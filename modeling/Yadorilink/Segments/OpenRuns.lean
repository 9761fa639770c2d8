import Yadorilink.Segments.FailedGroups
import Yadorilink.Segments.Opens

/-! Runs of a store whose opens can be cut short and whose files can lose bytes: when an open leaves
no segment open and no empty one behind. -/

namespace Yadorilink.Segments

open Machine

variable {hashBlock : Bytes → RawHash} {limits : GroupCommitLimits} {segments : Nat}
  {submitted : List Bytes} {index : BlockIndex} {store next : Store}

/-! ## Steps -/

/-- A step of the store, an open that ends after the first `done` of its calls, or a crash after
which files are shorter than the index has them, or gone. -/
inductive OpenEvent where
  | store (event : Event)
  | interrupted (removable stageRemovable : Nat → Bool) (done : Nat)
  | lossyCrash (found : List (Nat × Bytes)) (stagedFound : List Nat)

/-- The files such a crash can leave: some of those there were. -/
def Leaves (directory : Directory) (found : List (Nat × Bytes)) (stagedFound : List Nat) : Prop :=
  (found.map Prod.fst).Nodup ∧
    (∀ entry ∈ found, entry.1 ∈ directory.names ∨ entry.1 ∈ directory.unlinked) ∧
    ∀ name ∈ stagedFound, name ∈ directory.staged

instance Leaves.decidable (directory : Directory) (found : List (Nat × Bytes))
    (stagedFound : List Nat) : Decidable (Leaves directory found stagedFound) :=
  inferInstanceAs (Decidable (_ ∧ _ ∧ _))

def stepOpens (hashBlock : Bytes → RawHash) (limits : GroupCommitLimits) (segments : Nat)
    (store : Store) : OpenEvent → Option Store
  | .store event => step hashBlock limits segments store event
  | .interrupted removable stageRemovable done =>
    match store.handle with
    | some _ => none
    | none =>
      let actions := recoveryPlan removable stageRemovable store.index store.directory
      let left := RecoveryAction.run (actions.take done) ⟨store.index, store.directory⟩
      some { store with index := left.index, directory := left.directory }
  | .lossyCrash found stagedFound =>
    if Leaves store.directory found stagedFound then
      some { store with directory := .afterCrash found stagedFound, handle := none }
    else none

/-- The condition on a run that no two blocks put in it hash alike. -/
def OpensNoCollision (hashBlock : Bytes → RawHash) (store : Store) : OpenEvent → Prop
  | .store event => NoCollision hashBlock store event
  | .interrupted _ _ _ | .lossyCrash _ _ => True

instance OpensNoCollision.decidable (hashBlock : Bytes → RawHash) (store : Store) :
    (event : OpenEvent) → Decidable (OpensNoCollision hashBlock store event)
  | .store event => NoCollision.decidable hashBlock store event
  | .interrupted _ _ _ => .isTrue trivial
  | .lossyCrash _ _ => .isTrue trivial

theorem IndexSound.onIndex (sound : IndexSound hashBlock submitted index)
    (action : RecoveryAction) :
    Recovers hashBlock submitted index (action.onIndex index) := by
  cases action with
  | forget segmentId => exact sound.forgetSegment segmentId
  | dropMappings segmentId => exact sound.dropSegmentMappings segmentId
  | repair segmentId fileLen => exact sound.repairSegmentToLength segmentId fileLen
  | setSealed segmentId =>
    apply sound.restate (sound.coherent.setSegmentState segmentId) rfl
    intro other state durableEnd changed
    rcases row_setSegmentState.mp changed with ⟨before, old, _⟩
    exact ⟨before, old⟩
  | retire segmentId => exact sound.retireEmptySegment segmentId
  | remove | setLen | syncFile | removeStage | syncDirectory => exact .refl sound

theorem IndexSound.onIndexes (sound : IndexSound hashBlock submitted index)
    (actions : List RecoveryAction) :
    Recovers hashBlock submitted index (actions.foldl RecoveryAction.onIndex index) := by
  induction actions generalizing index with
  | nil => exact .refl sound
  | cons action actions induction =>
    have first := sound.onIndex action
    exact first.trans (induction first.sound)

theorem Sound.opens {event : OpenEvent} (sound : Sound hashBlock store)
    (free : OpensNoCollision hashBlock store event)
    (stepped : stepOpens hashBlock limits segments store event = some next) :
    Sound hashBlock next := by
  cases event with
  | store event => exact sound.step free stepped
  | interrupted removable stageRemovable done =>
    rw [stepOpens] at stepped
    split at stepped
    · cases stepped
    · rename_i closed
      cases stepped
      have kept := sound.index.onIndexes
        ((recoveryPlan removable stageRemovable store.index store.directory).take done)
      refine ⟨sound.free, ?_, ?_, ?_⟩
      · rw [RecoveryAction.index_run]
        exact kept.sound
      · intro handle opened
        cases closed.symm.trans opened
      · intro handle opened
        cases closed.symm.trans opened
  | lossyCrash found stagedFound =>
    rw [stepOpens] at stepped
    split at stepped
    · cases stepped
      exact ⟨sound.free, sound.index, by rintro _ ⟨⟩, by rintro _ ⟨⟩⟩
    · cases stepped

/-! ## Opening -/

instance SegmentRow.Closes.decidable (index : BlockIndex) (directory : Directory)
    (row : SegmentRow) : Decidable (row.Closes index directory) :=
  inferInstanceAs (Decidable (_ ∨ _ ∨ _ ∧ (_ → _ → _)))

theorem mappedTo_slice (index : BlockIndex) (segmentId : Nat) :
    (index.slice segmentId).mappedTo segmentId = index.mappedTo segmentId := by
  change List.filter _ (List.filter _ _) = _
  rw [List.filter_filter]
  simp only [Bool.and_self]
  rfl

theorem closed_recover_iff (sound : IndexSound hashBlock submitted index)
    {removable stageRemovable : Nat → Bool} {directory : Directory} :
    Closed (recover removable stageRemovable index directory).1.index ↔
      ∀ row ∈ index.segments, row.Closes index directory := by
  constructor
  · intro closed row listed
    apply (@closed_slice_recover removable stageRemovable _ _ _ sound.coherent listed).mp
    refine ⟨?_, ?_⟩
    · intro other member
      exact closed.sealed other (List.mem_filter.mp member).1
    · intro other member empty
      rcases List.mem_filter.mp member with ⟨found, inside⟩
      rw [of_decide_eq_true inside, mappedTo_slice, ← of_decide_eq_true inside] at empty
      exact closed.retired other found empty
  · intro closes
    have slices : ∀ row ∈ (recover removable stageRemovable index directory).1.index.segments,
        Closed ((recover removable stageRemovable index directory).1.index.slice row.segmentId) ∧
          row ∈ ((recover removable stageRemovable index directory).1.index.slice
            row.segmentId).segments := by
      intro row member
      have recovers := sound.recover removable stageRemovable directory
      rcases recovers.rows _ _ _ ⟨row, member, rfl, rfl, rfl⟩ with
        ⟨_, _, old, listed, same, _⟩
      refine ⟨?_, List.mem_filter.mpr ⟨member, decide_eq_true rfl⟩⟩
      rw [← same]
      exact (closed_slice_recover sound.coherent listed).mpr (closes old listed)
    refine ⟨?_, ?_⟩
    · intro row member
      rcases slices row member with ⟨closed, inSlice⟩
      exact closed.sealed row inSlice
    · intro row member empty
      rcases slices row member with ⟨closed, inSlice⟩
      exact closed.retired row inSlice ((mappedTo_slice _ _).trans empty)

/-- After any run, with opens cut short and files that lost bytes, an open leaves no segment active
and none without a block unretired if and only if each row it finds is one it closes. -/
theorem open_closes_segments_iff (hashBlock : Bytes → RawHash) (limits : GroupCommitLimits)
    (segments : Nat) {events : List OpenEvent} {last : Store}
    (free : Along (stepOpens hashBlock limits segments) (OpensNoCollision hashBlock) .fresh events)
    (ran : run (stepOpens hashBlock limits segments) .fresh events = some last)
    (removable stageRemovable : Nat → Bool) :
    Closed (recover removable stageRemovable last.index last.directory).1.index ↔
      ∀ row ∈ last.index.segments, row.Closes last.index last.directory :=
  closed_recover_iff (invariant_run (fun _ _ _ sound free stepped => sound.opens free stepped)
    sound_fresh free ran).index

def putThenCrash (found : Bytes) : List OpenEvent :=
  recordedPut.map OpenEvent.store ++ [.lossyCrash [(1, found)] []]

/-- The file has lost the record, and the open that notices is cut short. -/
def repairedOnce : List OpenEvent :=
  putThenCrash (encodeSegmentHeader 1) ++ [.interrupted (fun _ => true) (fun _ => true) 1]

def storeFoundWhole : Store :=
  (run (stepOpens hashOfByte defaultLimits maxWriteSegments) .fresh
    (putThenCrash (encodeSegmentHeader 1 ++ RecordFrame.bytes ⟨hashOfByte [1], [1]⟩))).get
    (by decide)

def storeRepairedOnce : Store :=
  (run (stepOpens hashOfByte defaultLimits maxWriteSegments) .fresh repairedOnce).get (by decide)

set_option maxRecDepth 4000 in
/-- With the file as it was recorded, the segment is sealed. -/
theorem open_closes_segments_iff_whole :
    Closed (recover (fun _ => true) (fun _ => true) storeFoundWhole.index
      storeFoundWhole.directory).1.index :=
  (open_closes_segments_iff hashOfByte defaultLimits maxWriteSegments
    (show Along _ _ _ (putThenCrash _) by decide) (Option.some_get _).symm _ _).mpr (by decide)

set_option maxRecDepth 4000 in
/-- The row repaired by the first open is still active after the second. -/
theorem interrupted_open_leaves_active :
    ¬∀ (hashBlock : Bytes → RawHash) (limits : GroupCommitLimits) (segments : Nat)
        (events : List OpenEvent) (last : Store) (removable stageRemovable : Nat → Bool),
      Along (stepOpens hashBlock limits segments) (OpensNoCollision hashBlock) .fresh events →
      run (stepOpens hashBlock limits segments) .fresh events = some last →
      Closed (recover removable stageRemovable last.index last.directory).1.index := by
  intro always
  have closed := always hashOfByte defaultLimits maxWriteSegments repairedOnce storeRepairedOnce
    (fun _ => true) (fun _ => true) (by decide) (Option.some_get _).symm
  have row : (⟨1, .active, segmentHeaderLen, Tally.zero⟩ : SegmentRow) ∈
      (recover (fun _ => true) (fun _ => true) storeRepairedOnce.index
        storeRepairedOnce.directory).1.index.segments := by decide
  exact closed.sealed _ row rfl

end Yadorilink.Segments
