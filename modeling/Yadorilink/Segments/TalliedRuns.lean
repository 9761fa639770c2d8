import Yadorilink.Segments.FailedGroups
import Yadorilink.Segments.Tallies

/-! The segment rows stay exact in every state a store reaches: whatever is put, removed, copied,
reclaimed or recovered, and whichever call fails, as long as nothing put or read hashes like a
block that was put without being it. -/

namespace Yadorilink.Segments

open Machine List Tally

variable {hashBlock : Bytes → RawHash} {limits : GroupCommitLimits} {segments : Nat}
  {store next : Store} {handle : Handle} {leader : Leader} {event : Event}
  {submitted more : List Bytes} {index : BlockIndex}

/-! ## What is put later -/

theorem Submitted.mono {frame : RecordFrame} (isSubmitted : Submitted hashBlock submitted frame)
    (subset : submitted ⊆ more) : Submitted hashBlock more frame :=
  ⟨subset isSubmitted.1, isSubmitted.2⟩

theorem Exact.mono (exact : Exact hashBlock submitted index) (subset : submitted ⊆ more) :
    Exact hashBlock more index where
  tallied := exact.tallied
  lengths := fun row member => (exact.lengths row member).mono subset
  ends := exact.ends

/-! ## Recovery -/

theorem Exact.recoverRow {recovering : Recovering}
    (exact : Exact hashBlock submitted recovering.index) (removable : Nat → Bool)
    (row : SegmentRow) :
    Exact hashBlock submitted (Segments.recoverRow removable recovering row).index := by
  rw [Segments.recoverRow]
  split
  · split
    · exact exact
    · exact exact.forgetSegment row.segmentId
  · split
    · exact (exact.dropSegmentMappings row.segmentId).forgetSegment row.segmentId
    · split
      · exact exact
      · split
        · exact exact.repairSegmentToLength row.segmentId _
        · exact exact

theorem Exact.closeRow (exact : Exact hashBlock submitted index) (row : SegmentRow) :
    Exact hashBlock submitted (Segments.closeRow index row) := by
  rw [Segments.closeRow]
  split
  · split
    · exact exact.retireEmptySegment row.segmentId
    · exact exact.setSegmentState row.segmentId .sealed
  · exact exact

theorem Exact.retireRow (exact : Exact hashBlock submitted index) (row : SegmentRow) :
    Exact hashBlock submitted (Segments.retireRow index row) := by
  rw [Segments.retireRow]
  split
  · exact exact.retireEmptySegment row.segmentId
  · exact exact

theorem Exact.recover (exact : Exact hashBlock submitted index)
    (removable stageRemovable : Nat → Bool) (directory : Directory) :
    Exact hashBlock submitted
      (Segments.recover removable stageRemovable index directory).1.index := by
  have reconciled : ∀ (rows : List SegmentRow) (recovering : Recovering),
      Exact hashBlock submitted recovering.index →
      Exact hashBlock submitted (rows.foldl (Segments.recoverRow removable) recovering).index := by
    intro rows
    induction rows with
    | nil => exact fun _ holds => holds
    | cons row rows induction =>
      exact fun recovering holds => induction _ (holds.recoverRow removable row)
  have each : ∀ change : BlockIndex → SegmentRow → BlockIndex,
      (∀ index row, Exact hashBlock submitted index → Exact hashBlock submitted (change index row)) →
      ∀ (rows : List SegmentRow) (index : BlockIndex), Exact hashBlock submitted index →
        Exact hashBlock submitted (rows.foldl change index) := by
    intro change keeps rows
    induction rows with
    | nil => exact fun _ holds => holds
    | cons row rows induction =>
      exact fun index holds => induction _ (keeps index row holds)
  apply each _ fun _ row holds => holds.retireRow row
  apply each _ fun _ row holds => holds.closeRow row
  exact reconciled index.segments ⟨index, directory⟩ exact

/-! ## The invariant -/

/-- What a compaction would read of the block it has looked up. -/
def Store.readsBlock (store : Store) (compaction : Compaction) : Option Bytes :=
  match compaction.stage with
  | .page (row :: _) (.located location _) _ =>
    (readRecordPayload (store.directory.file location.segmentId).bytes location row.hash).toOption
  | _ => none

/-- The condition on a run that nothing put or read hashes like a block that was put without being
it. -/
def Genuine (hashBlock : Bytes → RawHash) (store : Store) (event : Event) : Prop :=
  NoCollision hashBlock store event ∧ ∀ handle ∈ store.handle, ∀ compaction ∈ handle.compactions,
      ∀ payload ∈ store.readsBlock compaction,
        CollisionFree hashBlock (store.submitted ++ [payload])

instance Genuine.decidable (hashBlock : Bytes → RawHash) (store : Store) (event : Event) :
    Decidable (Genuine hashBlock store event) :=
  inferInstanceAs (Decidable (_ ∧ _))

/-- What the compactions hold are blocks that were put. -/
def SubmittedCopies (hashBlock : Bytes → RawHash) (submitted : List Bytes) (handle : Handle) :
    Prop :=
  ∀ compaction ∈ handle.compactions, ∀ copy ∈ compaction.stage.copies,
    Submitted hashBlock submitted copy

structure Tallied (hashBlock : Bytes → RawHash) (store : Store) : Prop where
  sound : Sound hashBlock store
  exact : Exact hashBlock store.submitted store.index
  brings : ∀ handle, store.handle = some handle →
    (store.group handle).Brings hashBlock store.submitted
  copies : ∀ handle, store.handle = some handle → SubmittedCopies hashBlock store.submitted handle

theorem tallied_fresh : Tallied hashBlock Store.fresh where
  sound := sound_fresh
  exact := exact_empty
  brings := by rintro _ ⟨⟩
  copies := by rintro _ ⟨⟩

/-! ## Steps -/

section

variable (copies : SubmittedCopies hashBlock submitted handle)

include copies

theorem SubmittedCopies.setCompaction
    (number : Nat) {changed : Compaction}
    (new : ∀ copy ∈ changed.stage.copies, Submitted hashBlock submitted copy) :
    SubmittedCopies hashBlock submitted (handle.setCompaction number changed) := by
  intro compaction member
  rcases mem_or_eq_of_mem_set member with old | rfl
  · exact copies compaction old
  · exact new

theorem SubmittedCopies.setStage
    (number : Nat) {stage : CompactionStage} (none : stage.copies = []) :
    SubmittedCopies hashBlock submitted (handle.setStage number stage) := by
  rw [Handle.setStage]
  split
  · apply copies.setCompaction number
    intro copy member
    rw [none] at member
    cases member
  · exact copies

theorem SubmittedCopies.relocated
    (kind : GroupKind) {stage : CompactionStage} (none : stage.copies = []) :
    SubmittedCopies hashBlock submitted (handle.relocated kind stage) := by
  cases kind with
  | ingest => exact copies
  | relocation number sources => exact copies.setStage number none

end

theorem brings_beginPut (index : BlockIndex) (blocks : List Bytes) (addedAt : Int)
    (subset : blocks ⊆ submitted) :
    (beginPut hashBlock index blocks addedAt).phase.Brings hashBlock submitted := by
  rw [beginPut]
  dsimp only
  split
  · trivial
  · refine ⟨?_, fun _ none => absurd none not_mem_nil⟩
    intro frame member
    rcases mem_uniqueFrames (mem_filter.mp member).1 with none | ⟨block, listed, rfl⟩
    · cases none
    · exact ⟨subset listed, rfl⟩

theorem brings_congr {group after : GroupState}
    (same : group.leader.map Leader.phase = after.leader.map Leader.phase)
    (brings : group.Brings hashBlock submitted) : after.Brings hashBlock submitted := by
  intro leader leads
  rw [leads] at same
  rcases Option.map_eq_some_iff.mp same with ⟨old, led, isPhase⟩
  rw [← isPhase]
  exact brings old led

theorem submitted_of_read {hash : RawHash} {payload : Bytes} {length : Nat}
    (free : CollisionFree hashBlock (submitted ++ [payload]))
    (put : HasLength hashBlock submitted hash length) (verified : hashBlock payload = hash) :
    Submitted hashBlock submitted ⟨hash, payload⟩ := by
  rcases put with ⟨block, listed, hashes, _⟩
  have same : block = payload := free block (mem_append_left _ listed) payload
    (mem_append_right _ (.head _)) (hashes.trans verified.symm)
  exact ⟨same ▸ listed, verified⟩

section

variable (tallied : Tallied hashBlock store)

include tallied

theorem Tallied.compaction {compaction : Compaction} {number : Nat} (opened : store.handle = some handle)
    (genuine : Genuine hashBlock store event)
    (found : handle.compactions[number]? = some compaction)
    (moves : CompactionMoves hashBlock store handle number compaction next) :
    Tallied hashBlock next := by
  have sound := tallied.sound.compaction opened found moves
  rcases moves with ⟨index, changed, move, rfl⟩
  have listed := mem_of_getElem? found
  have held := tallied.copies handle opened compaction listed
  have result : (∀ copy ∈ changed.stage.copies, Submitted hashBlock store.submitted copy) →
      Exact hashBlock store.submitted index →
      Tallied hashBlock { store with
        index := index, handle := some (handle.setCompaction number changed) } := by
    intro copies exact
    refine ⟨sound, exact, ?_, ?_⟩
    · intro current same
      cases same
      exact tallied.brings handle opened
    · intro current same
      cases same
      exact (tallied.copies handle opened).setCompaction number copies
  have coherent := tallied.sound.index.coherent
  generalize changed.stage = stage at move result
  cases move with
  | quiet fewer => exact result (fun copy member => held copy (fewer member)) tallied.exact
  | resolved before => exact result (by rw [before] at held; exact held) tallied.exact
  | suspected before => exact result (by rw [before] at held; exact held) tallied.exact
  | @copied row rest location tries copies payload stage before read verified more =>
    refine result ?_ tallied.exact
    intro copy member
    rw [more] at member
    rcases mem_append.mp member with old | new
    · rw [before] at held
      exact held copy old
    · rw [mem_singleton.mp new]
      have reads : payload ∈ store.readsBlock compaction := by
        rw [Store.readsBlock, before]
        dsimp only
        rw [read]
        rfl
      have free := genuine.2 handle opened compaction listed payload reads
      have put := (tallied.sound.tasks handle opened).looking compaction listed row.hash
        location (by rw [before]; rfl)
      exact submitted_of_read free put verified
  | corrupt before =>
    exact result (by rw [before] at held; exact held) (tallied.exact.removeBlocks coherent _)
  | dropped before =>
    exact result (by rw [before] at held; exact held) (tallied.exact.removeBlocks coherent _)
  | retired =>
    exact result (fun _ none => absurd none not_mem_nil)
      (tallied.exact.retireEmptySegment _)

theorem Tallied.leaderStep
    (opened : store.handle = some handle) (leads : handle.leader = some leader)
    (move : LeaderMove limits segments store handle leader event next) :
    Tallied hashBlock next := by
  have sound := tallied.sound.leaderStep opened leads move
  have copies := tallied.copies handle opened
  have moved : ∀ group, GroupMove limits segments (store.group handle) leader event group →
      Exact hashBlock store.submitted group.index ∧ group.Brings hashBlock store.submitted :=
    fun group move => tallied.exact.move tallied.sound.free tallied.sound.index
      (tallied.sound.group handle opened) leads (tallied.brings handle opened) move
  cases move with
  | @moved group move =>
    rcases moved group move with ⟨exact, brings⟩
    exact {
      sound := sound
      exact := exact
      brings := by
        rintro _ ⟨⟩
        exact brings
      copies := by
        rintro _ ⟨⟩
        exact copies }
  | @broken group move =>
    rcases moved group move with ⟨exact, brings⟩
    exact {
      sound := sound
      exact := exact
      brings := by
        rintro _ ⟨⟩
        exact brings
      copies := by
        rintro _ ⟨⟩
        exact copies.relocated leader.kind rfl }
  | undone =>
    exact {
      sound := sound
      exact := tallied.exact
      brings := by
        rintro _ ⟨⟩ _ ⟨⟩
      copies := by
        rintro _ ⟨⟩
        exact copies.relocated leader.kind rfl }
  | answered =>
    exact {
      sound := sound
      exact := tallied.exact
      brings := by
        rintro _ ⟨⟩ _ ⟨⟩
      copies := by
        rintro _ ⟨⟩
        exact copies.relocated leader.kind rfl }

theorem Tallied.openMove (opened : store.handle = some handle)
    (genuine : Genuine hashBlock store event)
    (move : OpenMove hashBlock limits segments store handle event next) :
    Tallied hashBlock next := by
  have sound := tallied.sound.openMove opened genuine.1 move
  have coherent := tallied.sound.index.coherent
  have copies := tallied.copies handle opened
  have brings := tallied.brings handle opened
  cases move with
  | led leads move => exact tallied.leaderStep opened leads move
  | @put blocks addedAt unled =>
    have subset : store.submitted ⊆ store.submitted ++ blocks := subset_append_left _ _
    exact {
      sound := sound
      exact := tallied.exact.mono subset
      brings := by
        rintro _ ⟨⟩
        exact GroupState.brings_of rfl
          (brings_beginPut store.index blocks addedAt (subset_append_right _ _))
      copies := by
        rintro _ ⟨⟩
        exact fun compaction listed copy held => (copies compaction listed copy held).mono subset }
  | @sealActive active committed =>
    exact {
      sound := sound
      exact := by
        dsimp only
        split
        · exact tallied.exact.setSegmentState active.segmentId .sealed
        · exact tallied.exact
      brings := by
        rintro _ ⟨⟩
        exact brings_congr rfl brings
      copies := by
        rintro _ ⟨⟩
        exact copies }
  | @relocate number addedAt compaction held _ found holds =>
    exact {
      sound := sound
      exact := tallied.exact
      brings := by
        rintro _ ⟨⟩
        apply GroupState.brings_of rfl
        refine ⟨?_, fun _ none => absurd none not_mem_nil⟩
        rw [← holds]
        exact copies compaction (mem_of_getElem? found)
      copies := by
        rintro _ ⟨⟩
        have idle : CompactionStage.relocating.copies = [] := rfl
        exact copies.setStage number idle }
  | @remove hashes =>
    exact {
      sound := sound
      exact := tallied.exact.removeBlocks coherent hashes
      brings := by
        rintro _ ⟨⟩
        apply brings_congr _ brings
        change _ = Option.map _ (Option.map _ _)
        rw [Option.map_map]
        rfl
      copies := by
        rintro _ ⟨⟩
        exact copies }
  | compact =>
    exact {
      sound := sound
      exact := tallied.exact
      brings := by
        rintro _ ⟨⟩
        exact brings
      copies := by
        rintro _ ⟨⟩
        exact forall_mem_concat copies (fun _ none => absurd none not_mem_nil) }
  | reclaim =>
    exact {
      sound := sound
      exact := tallied.exact
      brings := by
        rintro _ ⟨⟩
        exact brings
      copies := by
        rintro _ ⟨⟩
        exact copies }
  | compacted _ found moves => exact tallied.compaction opened genuine found moves
  | @reclaimed number reclaim changed index directory event _ found move =>
    refine ⟨sound, ?_, ?_, ?_⟩
    · generalize changed.rest = rest at move
      cases move with
      | passed | unlinked | synced => exact tallied.exact
      | @forgotten segmentId => exact tallied.exact.forgetSegment segmentId
    · rintro _ ⟨⟩
      exact brings
    · rintro _ ⟨⟩
      exact copies

theorem Tallied.step (genuine : Genuine hashBlock store event)
    (stepped : Segments.step hashBlock limits segments store event = some next) :
    Tallied hashBlock next := by
  have sound := tallied.sound.step genuine.1 stepped
  cases StoreMove.of_step stepped with
  | taken opened move => exact tallied.openMove opened genuine move
  | crashed => exact ⟨sound, tallied.exact, by rintro _ ⟨⟩, by rintro _ ⟨⟩⟩
  | @recovered removable stageRemovable =>
    refine ⟨sound, tallied.exact.recover removable stageRemovable store.directory, ?_, ?_⟩
    · rintro _ ⟨⟩ _ ⟨⟩
    · rintro _ ⟨⟩ _ ⟨⟩

end

/-! ## Segment accounting -/

theorem tallyIn_eq_sums (segmentId : Nat) (index : BlockIndex) : tallyIn segmentId index.blocks =
      { blocks := ((index.mappedTo segmentId).length : Int)
        payloadBytes := ((index.mappedTo segmentId).map fun block => (block.payloadLen : Int)).sum
        recordBytes := ((index.mappedTo segmentId).map fun block => (block.recordLen : Int)).sum } := by
  rw [BlockIndex.mappedTo]
  induction index.blocks with
  | nil => rfl
  | cons block blocks induction =>
    rw [tallyIn, induction]
    split
    · rename_i inside
      rw [filter_cons_of_pos (by simpa using inside)]
      ext
      · simp only [add, BlockRow.tally, one, length_cons]
        omega
      · simp only [add, BlockRow.tally, one, map_cons, sum_cons]
      · simp only [add, BlockRow.tally, one, map_cons, sum_cons]
    · rename_i outside
      rw [filter_cons_of_neg (by simpa using outside)]

/-- The accounts of an index: what each row counts, and where each block is. -/
structure Accounted (index : BlockIndex) : Prop where
  blocks : ∀ row ∈ index.segments, row.live.blocks = ((index.mappedTo row.segmentId).length : Int)
  payloadBytes : ∀ row ∈ index.segments, row.live.payloadBytes =
    ((index.mappedTo row.segmentId).map fun block => (block.payloadLen : Int)).sum
  recordBytes : ∀ row ∈ index.segments, row.live.recordBytes =
    ((index.mappedTo row.segmentId).map fun block => (block.recordLen : Int)).sum
  housed : ∀ block ∈ index.blocks, ∃ row ∈ index.segments, row.segmentId = block.segmentId
  within : ∀ block ∈ index.blocks, ∀ row ∈ index.segments, row.segmentId = block.segmentId →
    segmentHeaderLen ≤ block.recordOffset ∧ block.recordOffset + block.recordLen ≤ row.durableEnd
  retired : ∀ block ∈ index.blocks, ∀ row ∈ index.segments, row.segmentId = block.segmentId →
    row.state ≠ .retired

theorem Tallied.accounted (tallied : Tallied hashBlock store) : Accounted store.index := by
  have coherent := tallied.sound.index.coherent
  have sums : ∀ row ∈ store.index.segments, row.live =
      { blocks := ((store.index.mappedTo row.segmentId).length : Int)
        payloadBytes :=
          ((store.index.mappedTo row.segmentId).map fun block => (block.payloadLen : Int)).sum
        recordBytes :=
          ((store.index.mappedTo row.segmentId).map fun block => (block.recordLen : Int)).sum } :=
    fun row listed => (tallied.exact.tallied row listed).trans (tallyIn_eq_sums row.segmentId _)
  exact {
    blocks := fun row listed => congrArg blocks (sums row listed)
    payloadBytes := fun row listed => congrArg payloadBytes (sums row listed)
    recordBytes := fun row listed => congrArg recordBytes (sums row listed)
    housed := by
      intro block mapped
      rcases coherent.housed block mapped with ⟨row, listed, houses⟩
      exact ⟨row, listed, houses.1⟩
    within := by
      intro block mapped row listed inside
      refine ⟨?_, tallied.exact.ends block mapped row listed inside⟩
      rcases coherent.housed block mapped with ⟨_, _, houses⟩
      exact houses.2.2.1
    retired := by
      intro block mapped row listed inside retired
      exact coherent.unmapped_of_retired listed retired mapped inside.symm }

/-- In every state of every run, whatever calls fail and wherever it crashes, the rows of the
segments count exactly what is mapped into them. -/
theorem segment_accounting_exact (hashBlock : Bytes → RawHash) (limits : GroupCommitLimits)
    (segments : Nat) {events : List Event} {last : Store}
    (genuine : Along (step hashBlock limits segments) (Genuine hashBlock) .fresh events)
    (ran : run (step hashBlock limits segments) .fresh events = some last) :
    Accounted last.index :=
  (invariant_run (fun _ _ _ tallied genuine stepped => tallied.step genuine stepped)
    tallied_fresh genuine ran).accounted

set_option maxRecDepth 4000 in
/-- One block put and recorded. -/
theorem segment_accounting_exact_one :
    Accounted storeOfOne.index ∧ storeOfOne.index.blocks.length = 1 :=
  ⟨segment_accounting_exact hashOfByte defaultLimits maxWriteSegments (by decide)
    run_recordedPut, by decide⟩

end Yadorilink.Segments
