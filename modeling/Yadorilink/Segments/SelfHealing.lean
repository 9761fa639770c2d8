import Yadorilink.Segments.GraceWindow

/-! Reads of the store by many threads at once: each looks a block up, reads it, and where the bytes
do not read back drops the mapping, every one of these calls apart from the others. -/

namespace Yadorilink.Segments

open Machine List Option List.Subset

variable {hashBlock : Bytes → RawHash} {limits : GroupCommitLimits} {segments : Nat}
  {index after : BlockIndex} {store next : Store} {handle : Handle} {leader : Leader}
  {event : Event} {appends : List SegmentAppend}

/-! ## Readers -/

/-- Who reads a block. Only `getUnchecked` does not hash what it read, and a compaction removes the
block once more when the read tells it of damage. -/
inductive Caller where
  | get
  | getUnchecked
  | compaction
  deriving DecidableEq, Repr

/-- How far a read is: about to look the block up, to read it there, to look again whether it is
still there, to drop its mapping, or, for a compaction, to remove the block. `missing` tells that
the file was not found. -/
inductive ReaderStage where
  | unresolved (tries : Nat)
  | located (location : BlockLocation) (tries : Nat)
  | suspect (location : BlockLocation) (tries : Nat) (missing : Bool)
  | judged (location : BlockLocation) (missing : Bool)
  | condemned (location : BlockLocation)
  | done
  deriving DecidableEq

structure Reader where
  caller : Caller
  hash : RawHash
  stage : ReaderStage
  deriving DecidableEq

def ReaderStage.failed : ReaderStage → Option BlockLocation
  | .suspect location _ _ | .judged location _ | .condemned location => some location
  | _ => none

/-- The place a removal that is still to come was decided for. -/
def ReaderStage.removing : ReaderStage → Option BlockLocation
  | .judged location _ | .condemned location => some location
  | _ => none

def Reader.resolve (index : BlockIndex) (reader : Reader) : Option Reader :=
  match reader.stage with
  | .unresolved 0 => some { reader with stage := .done }
  | .unresolved (tries + 1) =>
    match index.lookup reader.hash with
    | some location => some { reader with stage := .located location tries }
    | none => some { reader with stage := .done }
  | _ => none

/-- Opens and reads the record. `cached` tells that the file is already open, `broken` that the read
itself fails. -/
def Reader.read (hashBlock : Bytes → RawHash) (directory : Directory) (cached broken : Bool)
    (reader : Reader) : Option Reader :=
  match reader.stage with
  | .located location tries =>
    if broken then some { reader with stage := .done }
    else if location.segmentId ∈ directory.names ∨ cached then
      match readRecordPayload (directory.file location.segmentId).bytes location reader.hash with
      | .ok payload =>
        if reader.caller ≠ .getUnchecked ∧ hashBlock payload ≠ reader.hash then
          some { reader with stage := .judged location false }
        else some { reader with stage := .done }
      | .error _ => some { reader with stage := .suspect location tries false }
    else some { reader with stage := .suspect location tries true }
  | _ => none

def Reader.recheck (index : BlockIndex) (reader : Reader) : Option Reader :=
  match reader.stage with
  | .suspect location tries missing =>
    if index.lookup reader.hash = some location then
      some { reader with stage := .judged location missing }
    else some { reader with stage := .unresolved tries }
  | _ => none

def Reader.drop (reader : Reader) : Option Reader :=
  match reader.stage with
  | .judged location missing =>
    if reader.caller = .compaction ∧ missing = false then
      some { reader with stage := .condemned location }
    else some { reader with stage := .done }
  | _ => none

def Reader.discard (reader : Reader) : Option Reader :=
  match reader.stage with
  | .condemned _ => some { reader with stage := .done }
  | _ => none

/-! ## Steps -/

/-- The store, the reads under way, and every place whose bytes did not read back for a block. -/
structure HealState where
  store : Store
  readers : List Reader
  failures : List (RawHash × BlockLocation)

def HealState.fresh : HealState := { store := .fresh, readers := [], failures := [] }

/-- A step of the store, damage to a file or its loss, or a call of a read. -/
inductive HealEvent where
  | store (event : Event)
  | damage (segmentId : Nat) (found : Option Bytes)
  | read (caller : Caller) (hash : RawHash)
  | resolve (number : Nat)
  | readRecord (number : Nat) (cached broken : Bool)
  | recheck (number : Nat)
  | drop (number : Nat) (committed : Bool)
  | discard (number : Nat) (committed : Bool)

def Directory.damage (directory : Directory) (segmentId : Nat) : Option Bytes → Directory
  | some bytes =>
    { directory with file := fun other =>
        if other = segmentId then { directory.file other with bytes := bytes }
        else directory.file other }
  | none => { directory with names := directory.names.filter fun name => name ≠ segmentId }

/-- The reads of a compaction that finds its block damaged. -/
def Event.judges : Event → Bool
  | .readBlock _ _ | .recheck _ => true
  | _ => false

def HealState.setReader (state : HealState) (number : Nat) (reader : Reader) : HealState :=
  { state with readers := state.readers.set number reader }

/-- Removes a block for a reader, if the transaction goes through. -/
def HealState.removeBlock (state : HealState) (hash : RawHash) (committed : Bool) : HealState :=
  if committed then
    { state with store := { state.store with index := state.store.index.removeBlocks [hash] } }
  else state

section
variable (hashBlock : Bytes → RawHash) (limits : GroupCommitLimits) (segments : Nat)

/-- One step. What a compaction drops as damaged it drops as a reader does, in calls of its own. -/
def healStep (state : HealState) : HealEvent → Option HealState
  | .store event =>
    (step hashBlock limits segments state.store event).bind fun next =>
      if event.judges = true ∧ next.index ≠ state.store.index then none
      else some { state with
        store := next, readers := if next.handle.isSome then state.readers else [] }
  | .damage segmentId found =>
    some { state with store := { state.store with
      directory := state.store.directory.damage segmentId found } }
  | .read caller hash =>
    if state.store.handle.isSome then
      some { state with readers := state.readers ++
        [{ caller := caller, hash := hash, stage := .unresolved readTries }] }
    else none
  | .resolve number =>
    state.readers[number]?.bind fun reader =>
      (reader.resolve state.store.index).map (state.setReader number)
  | .readRecord number cached broken =>
    state.readers[number]?.bind fun reader =>
      (reader.read hashBlock state.store.directory cached broken).map fun after =>
        { state.setReader number after with
          failures := state.failures ++
            (after.stage.failed.map fun location => (after.hash, location)).toList }
  | .recheck number =>
    state.readers[number]?.bind fun reader =>
      (reader.recheck state.store.index).map (state.setReader number)
  | .drop number committed =>
    state.readers[number]?.bind fun reader =>
      reader.drop.map fun after =>
        (state.setReader number after).removeBlock reader.hash committed
  | .discard number committed =>
    state.readers[number]?.bind fun reader =>
      reader.discard.map fun after =>
        (state.setReader number after).removeBlock reader.hash committed

end

/-- Whether recording the group maps the block, or moves it. -/
def Leader.Moves (leader : Leader) (index : BlockIndex) (hash : RawHash) : Prop :=
  hash ∈ (leader.phase.batches.flatMap OpenBatch.rows).map NewBlockRow.hash ∧
    (leader.kind = .ingest ↔ index.lookup hash = none)

instance Leader.Moves.decidable (leader : Leader) (index : BlockIndex) (hash : RawHash) :
    Decidable (leader.Moves index hash) :=
  inferInstanceAs (Decidable (_ ∧ (_ ↔ _)))

/-- The condition on a run: no group that maps or moves a block is recorded while a reader is about
to remove that block, and a reader that finds other bytes than the block's finds them where the
block is still mapped, or mapped nowhere. -/
def UndisturbedReads (hashBlock : Bytes → RawHash) (state : HealState) : HealEvent → Prop
  | .store (.record true) => ∀ handle ∈ state.store.handle, ∀ leader ∈ handle.leader,
      ∀ reader ∈ state.readers, reader.stage.removing.isSome →
        ¬leader.Moves state.store.index reader.hash
  | .readRecord number cached broken => ∀ reader ∈ state.readers[number]?,
      ∀ after ∈ reader.read hashBlock state.store.directory cached broken,
        ∀ location ∈ after.stage.removing, state.store.index.lookup reader.hash = none ∨
            state.store.index.lookup reader.hash = some location
  | _ => True

instance UndisturbedReads.decidable (hashBlock : Bytes → RawHash) (state : HealState) :
    (event : HealEvent) → Decidable (UndisturbedReads hashBlock state event)
  | .store (.record true) => inferInstanceAs (Decidable (∀ _ ∈ _, ∀ _ ∈ _, ∀ _ ∈ _, _ → _))
  | .readRecord _ _ _ => inferInstanceAs (Decidable (∀ _ ∈ _, ∀ _ ∈ _, ∀ _ ∈ _, _ ∨ _))
  | .store (.record false) | .store (.put _ _) | .store (.relocate _ _) | .store (.crash _ _)
  | .store (.recover _ _) | .store (.sealActive _) | .store (.layOut _) | .store .advance
  | .store (.append _) | .store (.sync _) | .store (.undo _) | .store .finish
  | .store (.remove _) | .store (.compact _) | .store .reclaim | .store (.page _)
  | .store (.resolve _) | .store (.readBlock _ _) | .store (.recheck _) | .store (.retire _ _)
  | .store (.abandonCompaction _) | .store (.unlink _ _) | .store (.forget _ _)
  | .store (.syncReclaim _) | .damage _ _ | .read _ _ | .resolve _ | .recheck _ | .drop _ _
  | .discard _ _ => .isTrue trivial

/-! ## Mappings of a recorded group -/

def Distinct (index : BlockIndex) : Prop := (index.blocks.map BlockRow.hash).Nodup

theorem Fades.distinct (fades : Fades index after) (distinct : Distinct index) : Distinct after :=
  (List.Sublist.map _ fades).nodup distinct

theorem lookup_eq_none_iff {hash : RawHash} :
    index.lookup hash = none ↔ ∀ row ∈ index.blocks, row.hash ≠ hash := by
  rw [BlockIndex.lookup, map_eq_none_iff, BlockIndex.lookupRow, find?_eq_none]
  constructor
  · intro none row member same
    exact none row member (decide_eq_true same)
  · intro none row member same
    exact none row member (of_decide_eq_true same)

theorem Distinct.location_of_lookup {hash : RawHash} {location : BlockLocation}
    (distinct : Distinct index) (found : index.lookup hash = some location) :
    ∀ row ∈ index.blocks, row.hash = hash → row.location = location := by
  intro row member same
  rcases map_eq_some_iff.mp found with ⟨first, isFirst, rfl⟩
  have about : first.hash = hash := by
    have tested := find?_some (show find? _ _ = some first from isFirst)
    exact of_decide_eq_true tested
  have equal := inj_on_of_nodup_map distinct member (mem_of_find?_eq_some isFirst)
    (same.trans about.symm)
  rw [equal]

def plannedHashes (appends : List SegmentAppend) : List RawHash :=
  (appends.flatMap SegmentAppend.blocks).map NewBlockRow.hash

theorem mem_plannedHashes {append : SegmentAppend} {block : NewBlockRow}
    (listed : append ∈ appends) (member : block ∈ append.blocks) :
    block.hash ∈ plannedHashes appends :=
  mem_map_of_mem (mem_flatMap.mpr ⟨append, listed, member⟩)

/-- What a group of puts maps is new, and keeps what there was. -/
structure Inserts (appends : List SegmentAppend) (before after : BlockIndex) : Prop where
  distinct : Distinct before → Distinct after
  kept : before.blocks ⊆ after.blocks
  new : ∀ row ∈ after.blocks, row ∈ before.blocks ∨ row.hash ∈ plannedHashes appends

theorem inserts_appends {appends planned : List SegmentAppend} (subset : appends ⊆ planned) :
    Inserts planned index (appends.foldl BlockIndex.applyAppend index) := by
  induction appends generalizing index with
  | nil => exact ⟨id, List.Subset.refl _, fun _ => .inl⟩
  | cons append appends induction =>
    have rest := @induction (index.applyAppend append) (subset_of_cons_subset subset)
    have listed := subset mem_cons_self
    have kept : index.blocks ⊆ (index.applyAppend append).blocks := by
      have opened : (index.openSegment append).blocks = index.blocks := blocks_openSegment
      rw [← opened]
      exact insertNewBlocks_subset _ _
    refine ⟨?_, List.Subset.trans kept rest.kept, ?_⟩
    · intro distinct
      apply rest.distinct
      apply distinct_insertNewBlocks
      rw [blocks_openSegment]
      exact distinct
    · intro row member
      rcases rest.new row member with old | planned
      · rcases mem_insertNewBlocks old with older | ⟨block, inAppend, rfl⟩
        · rw [blocks_openSegment] at older
          exact .inl older
        · exact .inr (mem_plannedHashes listed inAppend)
      · exact .inr planned

/-- A relocation moves some of the blocks of its plan. -/
structure Repoints (appends : List SegmentAppend) (before after : BlockIndex) : Prop where
  distinct : Distinct before → Distinct after
  moved : ∀ row ∈ after.blocks, ∃ old ∈ before.blocks, old.hash = row.hash ∧
    (row = old ∨ row.hash ∈ plannedHashes appends)

theorem Repoints.trans {middle : BlockIndex} (first : Repoints appends index middle)
    (second : Repoints appends middle after) : Repoints appends index after where
  distinct := fun distinct => second.distinct (first.distinct distinct)
  moved := by
    intro row member
    rcases second.moved row member with ⟨old, listed, same, rfl | planned⟩
    · exact first.moved row listed
    · rcases first.moved old listed with ⟨older, before, about, _⟩
      exact ⟨older, before, about.trans same, .inr planned⟩

theorem repoints_of_blocks (same : after.blocks = index.blocks) : Repoints appends index after where
  distinct := by
    rw [Distinct, Distinct, same]
    exact id
  moved := fun row member => ⟨row, same ▸ member, rfl, .inl rfl⟩

theorem repoints_repointBlock {segmentId : Nat} {block : NewBlockRow}
    (planned : block.hash ∈ plannedHashes appends) :
    Repoints appends index (index.repointBlock segmentId block).1 where
  distinct := fun distinct => ((ages_repointBlock segmentId index block).stamps 0).distinct distinct
  moved := by
    intro row member
    rw [BlockIndex.repointBlock] at member
    split at member
    · exact ⟨row, member, rfl, .inl rfl⟩
    · rcases mem_map.mp member with ⟨old, listed, rfl⟩
      refine ⟨old, listed, (hash_follow block old).symm, ?_⟩
      by_cases about : old.hash = block.hash
      · right
        rw [hash_follow, about]
        exact planned
      · exact .inl (if_neg about)

theorem repoints_blocks {appends : List SegmentAppend} {segmentId : Nat}
    {blocks : List NewBlockRow} (planned : ∀ block ∈ blocks, block.hash ∈ plannedHashes appends) :
    Repoints appends index (index.repointRelocatedBlocks segmentId blocks).1 := by
  induction blocks generalizing index with
  | nil => exact repoints_of_blocks rfl
  | cons block blocks induction =>
    rw [BlockIndex.repointRelocatedBlocks]
    exact (repoints_repointBlock (planned block mem_cons_self)).trans
      (induction fun later member => planned later (.tail block member))

theorem repoints_appends {appends planned : List SegmentAppend} (subset : appends ⊆ planned) :
    Repoints planned index (appends.foldl BlockIndex.applyRelocation index) := by
  induction appends generalizing index with
  | nil => exact repoints_of_blocks rfl
  | cons append appends induction =>
    have listed := subset mem_cons_self
    have opened : Repoints planned index (index.openSegment append) :=
      repoints_of_blocks blocks_openSegment
    have repointed := @repoints_blocks (index.openSegment append) planned append.segmentId
      append.blocks fun block member => mem_plannedHashes listed member
    have moved : Repoints planned (index.openSegment append) (index.applyRelocation append) :=
      ⟨repointed.distinct, repointed.moved⟩
    exact (opened.trans moved).trans (induction (subset_of_cons_subset subset))

/-- Recording a group leaves a mapping as it is unless the group maps or moves the block. -/
structure Records (leader : Leader) (before after : BlockIndex) : Prop where
  distinct : Distinct before → Distinct after
  rows : Distinct before → ∀ row ∈ after.blocks, row ∈ before.blocks ∨ leader.Moves before row.hash

theorem records_commitPlan {batches : List OpenBatch} {sealed : List Nat} {writer : WriterState}
    (phase : leader.phase = .record batches sealed) :
    Records leader index (commitPlan index (groupPlan writer batches sealed) leader.kind) := by
  have closed : (index.sealAll sealed).blocks = index.blocks := blocks_sealAll index sealed
  have before : Distinct index → Distinct (index.sealAll sealed) := by
    intro distinct
    rw [Distinct, closed]
    exact distinct
  have staged : plannedHashes (batches.map OpenBatch.toAppend) =
      (leader.phase.batches.flatMap OpenBatch.rows).map NewBlockRow.hash := by
    rw [plannedHashes, flatMap_map, phase]
    rfl
  cases kind : leader.kind with
  | ingest =>
    have inserts := @inserts_appends (index.sealAll sealed) _ _
      (refl (batches.map OpenBatch.toAppend))
    refine ⟨fun distinct => inserts.distinct (before distinct), ?_⟩
    intro distinct row member
    rcases inserts.new row member with old | planned
    · exact .inl (closed ▸ old)
    · by_cases unmapped : index.lookup row.hash = none
      · exact .inr ⟨staged ▸ planned, iff_of_true kind unmapped⟩
      · left
        rw [lookup_eq_none_iff] at unmapped
        push Not at unmapped
        rcases unmapped with ⟨old, listed, about⟩
        have stays := inserts.kept (closed ▸ listed)
        have isRow := inj_on_of_nodup_map (inserts.distinct (before distinct)) member stays
          about.symm
        rw [isRow]
        exact listed
  | relocation number sources =>
    have repoints := @repoints_appends (index.sealAll sealed) _ _
      (refl (batches.map OpenBatch.toAppend))
    have moved := repoints.trans (repoints_of_blocks (blocks_retireAll _ sources))
    refine ⟨fun distinct => moved.distinct (before distinct), ?_⟩
    intro distinct row member
    rcases moved.moved row member with ⟨old, listed, about, rfl | planned⟩
    · exact .inl (closed ▸ listed)
    · refine .inr ⟨staged ▸ planned, iff_of_false (by rw [kind]; rintro ⟨⟩) ?_⟩
      rw [lookup_eq_none_iff]
      intro none
      exact none old (closed ▸ listed) about

theorem fades_or_records (stepped : step hashBlock limits segments store event = some next) :
    Fades store.index next.index ∨ event = .record true ∧ ∃ handle leader,
      store.handle = some handle ∧ handle.leader = some leader ∧
        Records leader store.index next.index := by
  cases StoreMove.of_step stepped with
  | crashed => exact .inl (fades_of_blocks rfl)
  | @recovered removable stageRemovable =>
    exact .inl (fades_recover removable stageRemovable store.index store.directory)
  | @taken handle _ _ opened move =>
    cases move with
    | @led leader _ _ leads move =>
      have moved : ∀ after, GroupMove limits segments (store.group handle) leader event after →
          Fades store.index after.index ∨ event = .record true ∧ ∃ handle leader,
            store.handle = some handle ∧ handle.leader = some leader ∧
              Records leader store.index after.index := by
        intro after move
        by_cases fails : Fails event
        · exact .inl (fades_of_blocks (blocks_of_fails move fails))
        · cases move with
          | @record batches sealed committed phase =>
            cases committed with
            | false => exact absurd rfl fails
            | true => exact .inr ⟨rfl, handle, leader, opened, leads, records_commitPlan phase⟩
          | _ => exact absurd trivial fails
      cases move with
      | moved move | broken move => exact moved _ move
      | undone | answered => exact .inl (fades_of_blocks rfl)
    | put | relocate | compact | reclaim => exact .inl (fades_of_blocks rfl)
    | sealActive =>
      refine .inl (fades_of_blocks ?_)
      dsimp only
      split <;> rfl
    | remove => exact .inl (fades_removeBlocks _ _)
    | compacted task found moves =>
      rcases moves with ⟨index, changed, move, rfl⟩
      exact .inl (fades_compactionMove move)
    | reclaimed task found move => exact .inl (fades_reclaimMove move)

/-! ## Runs -/

/-- Whatever a reader is about to remove is mapped, if at all, where its bytes did not read back. -/
structure Healing (state : HealState) : Prop where
  distinct : Distinct state.store.index
  failed : ∀ reader ∈ state.readers, ∀ location, reader.stage.failed = some location →
    (reader.hash, location) ∈ state.failures
  only : ∀ reader ∈ state.readers, ∀ location, reader.stage.removing = some location →
    ∀ row ∈ state.store.index.blocks, row.hash = reader.hash → row.location = location

variable {state later : HealState} {reader changed : Reader} {number : Nat}

theorem healing_fresh : Healing .fresh where
  distinct := List.nodup_nil
  failed := by rintro _ ⟨⟩
  only := by rintro _ ⟨⟩

theorem Healing.restore {next : HealState} (healing : Healing state)
    (readers : next.readers ⊆ state.readers) (failures : next.failures = state.failures)
    (distinct : Distinct next.store.index)
    (rows : ∀ reader ∈ next.readers, reader.stage.removing.isSome →
      ∀ row ∈ next.store.index.blocks, row.hash = reader.hash →
        row ∈ state.store.index.blocks) : Healing next where
  distinct := distinct
  failed := by
    rw [failures]
    exact fun reader member => healing.failed reader (readers member)
  only := by
    intro reader member location removes row mapped same
    have before := rows reader member (by rw [removes]; rfl) row mapped same
    exact healing.only reader (readers member) location removes row before same

theorem Healing.fade {next : HealState} (healing : Healing state)
    (fades : Fades state.store.index next.store.index) (readers : next.readers ⊆ state.readers)
    (failures : next.failures = state.failures) : Healing next :=
  healing.restore readers failures (fades.distinct healing.distinct)
    fun _ _ _ _ mapped _ => fades.subset mapped

theorem Healing.setReader (healing : Healing state) {failures : List (RawHash × BlockLocation)}
    (grows : state.failures ⊆ failures)
    (failed : ∀ location, changed.stage.failed = some location →
      (changed.hash, location) ∈ failures)
    (only : ∀ location, changed.stage.removing = some location →
      ∀ row ∈ state.store.index.blocks, row.hash = changed.hash → row.location = location) :
    Healing { state.setReader number changed with failures := failures } where
  distinct := healing.distinct
  failed := by
    intro other member location isFailed
    rcases mem_or_eq_of_mem_set member with old | rfl
    · exact grows (healing.failed other old location isFailed)
    · exact failed location isFailed
  only := by
    intro other member location removes
    rcases mem_or_eq_of_mem_set member with old | rfl
    · exact healing.only other old location removes
    · exact only location removes

theorem fades_removeFor (committed : Bool) (hash : RawHash) :
    Fades state.store.index (state.removeBlock hash committed).store.index := by
  rw [HealState.removeBlock]
  split
  · exact fades_removeBlocks _ _
  · exact fades_of_blocks rfl

theorem Healing.removeFor (healing : Healing state) (hash : RawHash) (committed : Bool) :
    Healing (state.removeBlock hash committed) := by
  refine healing.fade (fades_removeFor committed hash) ?_ ?_
  · rw [HealState.removeBlock]
    split <;> exact refl _
  · rw [HealState.removeBlock]
    split <;> rfl

theorem Reader.resolve_spec (resolved : reader.resolve index = some changed) :
    changed.stage.failed = none ∧ changed.stage.removing = none := by
  rw [Reader.resolve] at resolved
  split at resolved
  · cases resolved
    exact ⟨rfl, rfl⟩
  · split at resolved
    · cases resolved
      exact ⟨rfl, rfl⟩
    · cases resolved
      exact ⟨rfl, rfl⟩
  · cases resolved

theorem Reader.read_spec {directory : Directory} {cached broken : Bool}
    (took : reader.read hashBlock directory cached broken = some changed) :
    changed.hash = reader.hash ∧
      ∀ location, changed.stage.removing = some location → changed.stage.failed = some location := by
  rw [Reader.read] at took
  split at took
  · split at took
    · cases took
      exact ⟨rfl, by rintro _ ⟨⟩⟩
    · split at took
      · split at took
        · split at took
          · cases took
            exact ⟨rfl, fun _ => id⟩
          · cases took
            exact ⟨rfl, by rintro _ ⟨⟩⟩
        · cases took
          exact ⟨rfl, by rintro _ ⟨⟩⟩
      · cases took
        exact ⟨rfl, by rintro _ ⟨⟩⟩
  · cases took

theorem Reader.recheck_spec (rechecked : reader.recheck index = some changed) :
    changed.hash = reader.hash ∧ (changed.stage.failed = none ∧ changed.stage.removing = none ∨
        ∃ location, reader.stage.failed = some location ∧ changed.stage.failed = some location ∧
          changed.stage.removing = some location ∧ index.lookup reader.hash = some location) := by
  rw [Reader.recheck] at rechecked
  split at rechecked
  · rename_i location tries missing stage
    split at rechecked
    · rename_i still
      cases rechecked
      refine ⟨rfl, .inr ⟨location, ?_, rfl, rfl, still⟩⟩
      rw [stage]
      rfl
    · cases rechecked
      exact ⟨rfl, .inl ⟨rfl, rfl⟩⟩
  · cases rechecked

theorem Reader.drop_spec (dropped : reader.drop = some changed) :
    changed.hash = reader.hash ∧ ∃ location, reader.stage.failed = some location ∧
      reader.stage.removing = some location ∧
        ∀ left, changed.stage.failed = some left ∨ changed.stage.removing = some left →
          left = location := by
  rw [Reader.drop] at dropped
  split at dropped
  · rename_i location missing stage
    rw [stage]
    split at dropped
    · cases dropped
      refine ⟨rfl, location, rfl, rfl, ?_⟩
      intro left either
      rcases either with failed | removing
      · cases failed
        rfl
      · cases removing
        rfl
    · cases dropped
      refine ⟨rfl, location, rfl, rfl, ?_⟩
      intro left either
      rcases either with failed | removing
      · cases failed
      · cases removing
  · cases dropped

theorem Reader.discard_spec (discarded : reader.discard = some changed) :
    changed.stage.failed = none ∧ changed.stage.removing = none ∧
      ∃ location, reader.stage.failed = some location ∧ reader.stage.removing = some location := by
  rw [Reader.discard] at discarded
  split at discarded
  · rename_i location stage
    cases discarded
    refine ⟨rfl, rfl, location, ?_, ?_⟩ <;> rw [stage] <;> rfl
  · cases discarded

theorem Healing.setQuiet (healing : Healing state) (failed : changed.stage.failed = none)
    (removing : changed.stage.removing = none) : Healing (state.setReader number changed) := by
  refine healing.setReader (refl _) ?_ ?_
  · intro location isFailed
    cases failed.symm.trans isFailed
  · intro location removes
    cases removing.symm.trans removes

theorem Healing.step {event : HealEvent} (healing : Healing state)
    (undisturbed : UndisturbedReads hashBlock state event)
    (stepped : healStep hashBlock limits segments state event = some later) : Healing later := by
  cases event with
  | store event =>
    rcases bind_eq_some_iff.mp stepped with ⟨next, moved, took⟩
    split at took
    · cases took
    · cases took
      have fewer : (if next.handle.isSome then state.readers else []) ⊆ state.readers := by
        split
        · exact refl _
        · exact nil_subset _
      rcases fades_or_records moved with fades | ⟨rfl, handle, leader, opened, leads, records⟩
      · exact healing.fade fades fewer rfl
      · refine healing.restore fewer rfl (records.distinct healing.distinct) ?_
        intro reader member removes row mapped same
        rcases records.rows healing.distinct row mapped with old | moves
        · exact old
        · have still := undisturbed handle opened leader leads reader (fewer member) removes
          exact absurd (same ▸ moves) still
  | damage segmentId found =>
    cases stepped
    exact healing.fade (fades_of_blocks rfl) (refl _) rfl
  | read caller hash =>
    rw [healStep] at stepped
    split at stepped
    · cases stepped
      refine ⟨healing.distinct, ?_, ?_⟩
      · intro reader member location isFailed
        rcases mem_append.mp member with old | new
        · exact healing.failed reader old location isFailed
        · rw [mem_singleton.mp new] at isFailed
          cases isFailed
      · intro reader member location removes
        rcases mem_append.mp member with old | new
        · exact healing.only reader old location removes
        · rw [mem_singleton.mp new] at removes
          cases removes
    · cases stepped
  | resolve number =>
    rcases bind_eq_some_iff.mp stepped with ⟨reader, found, moved⟩
    rcases map_eq_some_iff.mp moved with ⟨changed, resolved, rfl⟩
    rcases Reader.resolve_spec resolved with ⟨failed, removing⟩
    exact healing.setQuiet failed removing
  | readRecord number cached broken =>
    rcases bind_eq_some_iff.mp stepped with ⟨reader, found, moved⟩
    rcases map_eq_some_iff.mp moved with ⟨changed, took, rfl⟩
    rcases Reader.read_spec took with ⟨sameHash, judges⟩
    refine healing.setReader (subset_append_left _ _) ?_ ?_
    · intro location isFailed
      rw [isFailed]
      exact mem_append_right _ (.head _)
    · intro location removes row mapped same
      rw [sameHash] at same
      rcases undisturbed reader found changed took location removes with unmapped | there
      · exact absurd same (lookup_eq_none_iff.mp unmapped row mapped)
      · exact healing.distinct.location_of_lookup there row mapped same
  | recheck number =>
    rcases bind_eq_some_iff.mp stepped with ⟨reader, found, moved⟩
    rcases map_eq_some_iff.mp moved with ⟨changed, rechecked, rfl⟩
    rcases Reader.recheck_spec rechecked with
      ⟨sameHash, ⟨failed, removing⟩ | ⟨location, wasFailed, isFailed, removes, there⟩⟩
    · exact healing.setQuiet failed removing
    · refine healing.setReader (refl _) ?_ ?_
      · intro other same
        cases isFailed.symm.trans same
        rw [sameHash]
        exact healing.failed reader (mem_of_getElem? found) location wasFailed
      · intro other same row mapped about
        cases removes.symm.trans same
        rw [sameHash] at about
        exact healing.distinct.location_of_lookup there row mapped about
  | drop number committed =>
    rcases bind_eq_some_iff.mp stepped with ⟨reader, found, moved⟩
    rcases map_eq_some_iff.mp moved with ⟨changed, dropped, rfl⟩
    rcases Reader.drop_spec dropped with ⟨sameHash, location, failed, removes, still⟩
    have member := mem_of_getElem? found
    have set : Healing (state.setReader number changed) := by
      refine healing.setReader (refl _) ?_ ?_
      · intro left isFailed
        rw [still left (.inl isFailed), sameHash]
        exact healing.failed reader member location failed
      · intro left isRemoved
        rw [still left (.inr isRemoved), sameHash]
        exact healing.only reader member location removes
    exact set.removeFor reader.hash committed
  | discard number committed =>
    rcases bind_eq_some_iff.mp stepped with ⟨reader, found, moved⟩
    rcases map_eq_some_iff.mp moved with ⟨changed, discarded, rfl⟩
    rcases Reader.discard_spec discarded with ⟨failed, removing, _⟩
    exact (healing.setQuiet failed removing).removeFor reader.hash committed

def HealEvent.Heals : HealEvent → Prop
  | .drop _ _ | .discard _ _ => True
  | _ => False

theorem removed_of_removeFor {committed : Bool} {row : BlockRow} {hash : RawHash}
    (mapped : row ∈ state.store.index.blocks)
    (gone : row ∉ (state.removeBlock hash committed).store.index.blocks) : row.hash = hash := by
  rw [HealState.removeBlock] at gone
  split at gone
  · by_contra apart
    refine gone (mem_removeBlocks mapped ?_)
    rw [mem_singleton]
    exact apart
  · exact absurd mapped gone

/-- In every run in which no block is recorded under a reader that is about to remove it, a mapping
that a read removes is to a place whose bytes did not read back for the block. -/
theorem reads_drop_judged_mappings (hashBlock : Bytes → RawHash) (limits : GroupCommitLimits)
    (segments : Nat) {events : List HealEvent} {event : HealEvent} {state later : HealState}
    (undisturbed : Along (healStep hashBlock limits segments) (UndisturbedReads hashBlock) .fresh
      events)
    (ran : run (healStep hashBlock limits segments) .fresh events = some state)
    (heals : event.Heals)
    (stepped : healStep hashBlock limits segments state event = some later) :
    ∀ row ∈ state.store.index.blocks, row ∉ later.store.index.blocks →
      (row.hash, row.location) ∈ state.failures := by
  have healing := invariant_run (fun _ _ _ healing undisturbed stepped =>
    healing.step undisturbed stepped) healing_fresh undisturbed ran
  have judged : ∀ reader ∈ state.readers, ∀ location, reader.stage.failed = some location →
      reader.stage.removing = some location → ∀ row ∈ state.store.index.blocks,
        row.hash = reader.hash → (row.hash, row.location) ∈ state.failures := by
    intro reader member location failed removes row mapped same
    rw [same, healing.only reader member location removes row mapped same]
    exact healing.failed reader member location failed
  intro row mapped gone
  cases event with
  | drop number committed =>
    rcases Option.bind_eq_some_iff.mp stepped with ⟨reader, found, moved⟩
    rcases Option.map_eq_some_iff.mp moved with ⟨changed, dropped, rfl⟩
    rcases Reader.drop_spec dropped with ⟨_, location, failed, removes, _⟩
    exact judged reader (List.mem_of_getElem? found) location failed removes row mapped
      (@removed_of_removeFor (state.setReader number changed) _ _ _ mapped gone)
  | discard number committed =>
    rcases Option.bind_eq_some_iff.mp stepped with ⟨reader, found, moved⟩
    rcases Option.map_eq_some_iff.mp moved with ⟨changed, discarded, rfl⟩
    rcases Reader.discard_spec discarded with ⟨_, _, location, failed, removes⟩
    exact judged reader (List.mem_of_getElem? found) location failed removes row mapped
      (@removed_of_removeFor (state.setReader number changed) _ _ _ mapped gone)
  | _ => exact heals.elim

/-- One block is put, its record is damaged, and a read judges its mapping. -/
def damagedRead : List HealEvent :=
  recordedPut.map HealEvent.store ++
    [.damage 1 (some (encodeSegmentHeader 1)), .read .get (hashOfByte [1]), .resolve 0,
      .readRecord 0 false false, .recheck 0]

/-- Before the read drops the mapping, the block is deleted and put again. -/
def putMeanwhile : List HealEvent :=
  damagedRead ++ ([.remove [hashOfByte [1]], .put [[1]] 1, .layOut .failed, .advance,
    .append [[53]], .advance, .sync true, .advance, .record true, .finish] : List Event).map
      HealEvent.store

def stateDamaged : HealState :=
  (run (healStep hashOfByte defaultLimits maxWriteSegments) .fresh damagedRead).get (by decide)

def statePutMeanwhile : HealState :=
  (run (healStep hashOfByte defaultLimits maxWriteSegments) .fresh putMeanwhile).get (by decide)

set_option maxRecDepth 4000 in
/-- The damaged mapping is the one the read drops. -/
theorem reads_drop_judged_mappings_damaged :
    stateDamaged.store.index.blocks ≠ [] ∧ ∀ row ∈ stateDamaged.store.index.blocks,
      row ∉ ((healStep hashOfByte defaultLimits maxWriteSegments stateDamaged (.drop 0 true)).get
        (by decide)).store.index.blocks → (row.hash, row.location) ∈ stateDamaged.failures :=
  ⟨by decide, @reads_drop_judged_mappings hashOfByte defaultLimits maxWriteSegments damagedRead
    (.drop 0 true) _ _ (by decide) (Option.some_get _).symm trivial (Option.some_get _).symm⟩

set_option maxRecDepth 4000 in
/-- The mapping of the second put is dropped for the damage to the first one's record. -/
theorem stale_judgment_drops_new_mapping :
    ¬∀ (hashBlock : Bytes → RawHash) (limits : GroupCommitLimits) (segments : Nat)
        (events : List HealEvent) (event : HealEvent) (state later : HealState),
      run (healStep hashBlock limits segments) .fresh events = some state → event.Heals →
      healStep hashBlock limits segments state event = some later →
      ∀ row ∈ state.store.index.blocks, row ∉ later.store.index.blocks →
        (row.hash, row.location) ∈ state.failures := by
  intro always
  have failed := always hashOfByte defaultLimits maxWriteSegments putMeanwhile (.drop 0 true)
    statePutMeanwhile
    ((healStep hashOfByte defaultLimits maxWriteSegments statePutMeanwhile (.drop 0 true)).get
      (by decide)) (Option.some_get _).symm trivial (Option.some_get _).symm
    ⟨hashOfByte [1], 1, 69, 1, 53, 1⟩ (by decide) (by decide)
  revert failed
  decide

end Yadorilink.Segments
