import Yadorilink.Segments.FailedGroups

/-! The grace window of a sweep: runs of the store with a clock, which blocks puts have answered for
and when, and when a sweep leaves those alone that were answered for after its cutoff. -/

namespace Yadorilink.Segments

open Machine List BlockIndex GroupState

variable {hashBlock : Bytes → RawHash} {limits : GroupCommitLimits} {segments : Nat}
  {index middle after : BlockIndex} {store next : Store} {handle : Handle} {leader : Leader}
  {event : Event} {addedAt : Int}

/-! ## Steps -/

/-- A block of a put, with the time its copy was recorded: that of the mapping the put found, or
that of the put's own group. -/
structure Recorded where
  hash : RawHash
  recordedAt : Int
  deriving DecidableEq

/-- A block a put has returned for. -/
structure Returned extends Recorded where
  returnedAt : Int
  deriving DecidableEq

/-- A sweep between its two transactions. -/
structure Sweep where
  cutoff : Int
  candidates : List RawHash
  deriving DecidableEq

/-- The store with the time, the blocks of the last put, the blocks that were returned for and not
deleted since, and the sweeps that have chosen what they remove. -/
structure GraceState where
  store : Store
  clock : Int
  pending : List Recorded
  returned : List Returned
  sweeps : List Sweep

def GraceState.fresh (clock : Int) : GraceState :=
  { store := .fresh, clock := clock, pending := [], returned := [], sweeps := [] }

/-- A step of the store, or one of the two transactions of a sweep. -/
inductive GraceEvent where
  | store (now : Int) (event : Event)
  | select (now : Int) (live : List RawHash) (cutoff : Int)
  | sweep (now : Int) (number : Nat)

def Event.ReadsClock (now : Int) : Event → Prop
  | .put _ addedAt | .relocate _ addedAt => addedAt = now
  | _ => True

instance Event.ReadsClock.decidable (now : Int) : (event : Event) → Decidable (event.ReadsClock now)
  | .put _ addedAt | .relocate _ addedAt => inferInstanceAs (Decidable (addedAt = now))
  | .crash _ _ | .recover _ _ | .sealActive _ | .layOut _ | .advance | .append _ | .sync _
  | .record _ | .undo _ | .finish | .remove _ | .compact _ | .reclaim | .page _ | .resolve _
  | .readBlock _ _ | .recheck _ | .retire _ _ | .abandonCompaction _ | .unlink _ _ | .forget _ _
  | .syncReclaim _ => .isTrue trivial

section
variable (hashBlock : Bytes → RawHash) (limits : GroupCommitLimits) (segments : Nat)

def recordedBy (index : BlockIndex) (blocks : List Bytes) (now : Int) : List Recorded :=
  (uniqueFrames hashBlock blocks []).map fun frame =>
    { hash := frame.hash
      recordedAt := ((index.lookupRow frame.hash).map BlockRow.addedAt).getD now }

def Store.answering (store : Store) : Bool :=
  match store.handle with
  | some { leader := some { kind := .ingest, phase := .answer, .. }, .. } => true
  | _ => false

def GraceState.answers (state : GraceState) : Event → List Recorded
  | .finish => if state.store.answering then state.pending else []
  | _ => []

def GraceState.kept (state : GraceState) : Event → List Returned
  | .remove hashes => state.returned.filter fun entry => entry.hash ∉ hashes
  | _ => state.returned

def GraceState.took (state : GraceState) (now : Int) (event : Event) (store : Store) :
    GraceState :=
  { store := store, clock := now
    pending :=
      match event with
      | .put blocks _ => recordedBy hashBlock state.store.index blocks now
      | _ => state.pending
    returned := state.kept event ++
      (state.answers event).map fun entry => { toRecorded := entry, returnedAt := now }
    sweeps := if store.handle.isSome then state.sweeps else [] }

def graceStep (state : GraceState) : GraceEvent → Option GraceState
  | .store now event =>
    if state.clock ≤ now ∧ event.ReadsClock now then
      (step hashBlock limits segments state.store event).map (state.took hashBlock now event)
    else none
  | .select now live cutoff =>
    if state.clock ≤ now ∧ state.store.handle.isSome then
      some { state with
        clock := now
        sweeps := state.sweeps ++
          [{ cutoff := cutoff, candidates := state.store.index.sweepCandidates live cutoff }] }
    else none
  | .sweep now number =>
    match state.sweeps[number]? with
    | none => none
    | some sweep =>
      if state.clock ≤ now then
        (step hashBlock limits segments state.store (.remove sweep.candidates)).map
          fun store =>
            { state with
              store := store, clock := now, sweeps := state.sweeps.eraseIdx number }
      else none

end

/-- The condition on a run: no sweep's cutoff lies between the time a copy was recorded and the time
a put returned for it, and no put returns for a block while a sweep has chosen that block. -/
def InGrace (state : GraceState) : GraceEvent → Prop
  | .store now event => ∀ entry ∈ state.answers event, ∀ sweep ∈ state.sweeps,
      sweep.cutoff < now → entry.hash ∉ sweep.candidates
  | .select _ live cutoff => ∀ entry ∈ state.returned, entry.hash ∉ live →
      entry.recordedAt ≤ cutoff → entry.returnedAt ≤ cutoff
  | .sweep _ _ => True

instance InGrace.decidable (state : GraceState) : (event : GraceEvent) →
    Decidable (InGrace state event)
  | .store _ _ => inferInstanceAs (Decidable (∀ _ ∈ _, ∀ _ ∈ _, _ → _))
  | .select _ _ _ => inferInstanceAs (Decidable (∀ _ ∈ _, _ → _ → _))
  | .sweep _ _ => .isTrue trivial

/-! ## Mappings that stay -/

/-- The mappings left are some of those there were. -/
def Fades (before after : BlockIndex) : Prop := after.blocks.Sublist before.blocks

theorem fades_of_blocks (same : after.blocks = index.blocks) : Fades index after := by
  rw [Fades, same]

theorem Fades.trans (first : Fades index middle) (second : Fades middle after) :
    Fades index after :=
  List.Sublist.trans second first

theorem fades_foldl {α : Type} {apply : BlockIndex → α → BlockIndex}
    (each : ∀ index value, Fades index (apply index value)) (index : BlockIndex)
    (values : List α) : Fades index (values.foldl apply index) := by
  induction values generalizing index with
  | nil => exact fades_of_blocks rfl
  | cons value values induction => exact (each index value).trans (induction _)

theorem fades_removeBlock (index : BlockIndex) (hash : RawHash) :
    Fades index (index.removeBlock hash) := by
  rw [removeBlock]
  split
  · exact fades_of_blocks rfl
  · exact filter_sublist

theorem fades_removeBlocks (index : BlockIndex) (hashes : List RawHash) :
    Fades index (index.removeBlocks hashes) :=
  fades_foldl fades_removeBlock index hashes

theorem fades_recoverRow (removable : Nat → Bool) (recovering : Recovering) (row : SegmentRow) :
    Fades recovering.index (recoverRow removable recovering row).index := by
  rw [recoverRow]
  split
  · split
    · exact fades_of_blocks rfl
    · exact filter_sublist
  · split
    · have dropped : Fades recovering.index (recovering.index.dropSegmentMappings row.segmentId) :=
        filter_sublist
      exact dropped.trans filter_sublist
    · split
      · exact fades_of_blocks rfl
      · split
        · exact filter_sublist
        · exact fades_of_blocks rfl

theorem fades_recover (removable stageRemovable : Nat → Bool) (index : BlockIndex)
    (directory : Directory) :
    Fades index (recover removable stageRemovable index directory).1.index := by
  have reconciled : ∀ (rows : List SegmentRow) (recovering : Recovering),
      Fades recovering.index (rows.foldl (recoverRow removable) recovering).index := by
    intro rows
    induction rows with
    | nil => exact fun _ => fades_of_blocks rfl
    | cons row rows induction =>
      intro recovering
      exact (fades_recoverRow removable recovering row).trans (induction _)
  have closes : ∀ index row, Fades index (closeRow index row) := by
    intro index row
    rw [closeRow]
    split
    · split <;> exact fades_of_blocks rfl
    · exact fades_of_blocks rfl
  have retires : ∀ index row, Fades index (retireRow index row) := by
    intro index row
    rw [retireRow]
    split <;> exact fades_of_blocks rfl
  rw [recover]
  exact ((reconciled index.segments ⟨index, directory⟩).trans
    (fades_foldl closes _ index.segments)).trans (fades_foldl retires _ index.segments)

theorem fades_compactionMove {compaction : Compaction} {stage : CompactionStage}
    (move : CompactionMove hashBlock store compaction index stage) : Fades store.index index := by
  cases move with
  | quiet | resolved | copied | suspected => exact fades_of_blocks rfl
  | corrupt | dropped => exact fades_removeBlocks _ _
  | retired => exact fades_of_blocks rfl

theorem fades_reclaimMove {reclaim : Reclaim} {directory : Directory} {left : List Nat}
    (move : ReclaimMove store reclaim index directory left) : Fades store.index index := by
  cases move with
  | passed | unlinked | synced => exact fades_of_blocks rfl
  | forgotten => exact filter_sublist

/-! ## Times of mappings -/

def BlockRow.stamp (row : BlockRow) : RawHash × Int := (row.hash, row.addedAt)

/-- No block is mapped, and what stays keeps its time. -/
def Ages (before after : BlockIndex) : Prop :=
  (after.blocks.map BlockRow.stamp).Sublist (before.blocks.map BlockRow.stamp)

theorem Fades.ages (fades : Fades index after) : Ages index after := List.Sublist.map _ fades

theorem ages_of_blocks (same : after.blocks = index.blocks) : Ages index after :=
  (fades_of_blocks same).ages

theorem Ages.trans (first : Ages index middle) (second : Ages middle after) : Ages index after :=
  List.Sublist.trans second first

theorem stamp_follow (segmentId : Nat) (block : NewBlockRow) (row : BlockRow) :
    (row.follow segmentId block).stamp = row.stamp := by
  rw [BlockRow.follow]
  split <;> rfl

theorem ages_repointBlock (segmentId : Nat) (index : BlockIndex) (block : NewBlockRow) :
    Ages index (index.repointBlock segmentId block).1 := by
  rw [repointBlock]
  split
  · exact ages_of_blocks rfl
  · change ((index.blocks.map _).map BlockRow.stamp).Sublist _
    rw [map_map]
    have same : BlockRow.stamp ∘ BlockRow.follow segmentId block = BlockRow.stamp :=
      funext (stamp_follow segmentId block)
    rw [same]

theorem ages_repointRelocatedBlocks (segmentId : Nat) (index : BlockIndex)
    (blocks : List NewBlockRow) :
    Ages index (index.repointRelocatedBlocks segmentId blocks).1 := by
  induction blocks generalizing index with
  | nil => exact ages_of_blocks rfl
  | cons block blocks induction =>
    rw [repointRelocatedBlocks]
    exact (ages_repointBlock segmentId index block).trans (induction _)

theorem ages_applyRelocation (index : BlockIndex) (append : SegmentAppend) :
    Ages index (index.applyRelocation append) := by
  have opened : Ages index (index.openSegment append) := ages_of_blocks blocks_openSegment
  exact opened.trans (ages_repointRelocatedBlocks append.segmentId _ append.blocks)

theorem ages_commitRelocation (index : BlockIndex) (plan : RelocationPlan) :
    Ages index (index.commitRelocation plan) := by
  have closed : Ages index (index.sealAll plan.group.sealed) :=
    ages_of_blocks (blocks_sealAll index plan.group.sealed)
  have appended : ∀ (appends : List SegmentAppend) (index : BlockIndex),
      Ages index (appends.foldl applyRelocation index) := by
    intro appends
    induction appends with
    | nil => exact fun _ => ages_of_blocks rfl
    | cons append appends induction =>
      intro index
      exact (ages_applyRelocation index append).trans (induction _)
  have moved := closed.trans (appended plan.group.appends _)
  exact moved.trans (ages_of_blocks (blocks_retireAll _ plan.sources))

/-- What is mapped newly has the time `addedAt`, and what stays keeps its own. -/
structure Stamps (addedAt : Int) (before after : BlockIndex) : Prop where
  distinct : (before.blocks.map BlockRow.hash).Nodup → (after.blocks.map BlockRow.hash).Nodup
  rows : ∀ row ∈ after.blocks,
    (∃ old ∈ before.blocks, old.stamp = row.stamp) ∨ row.addedAt = addedAt

theorem Ages.stamps (ages : Ages index after) (addedAt : Int) : Stamps addedAt index after where
  distinct := by
    intro distinct
    have hashes := ages.map Prod.fst
    rw [map_map, map_map] at hashes
    exact hashes.nodup distinct
  rows := by
    intro row member
    rcases mem_map.mp (ages.subset (mem_map_of_mem member)) with ⟨old, listed, same⟩
    exact .inl ⟨old, listed, same⟩

theorem Stamps.trans (first : Stamps addedAt index middle) (second : Stamps addedAt middle after) :
    Stamps addedAt index after where
  distinct := fun distinct => second.distinct (first.distinct distinct)
  rows := by
    intro row member
    rcases second.rows row member with ⟨old, listed, same⟩ | new
    · rcases first.rows old listed with ⟨older, before, alike⟩ | new
      · exact .inl ⟨older, before, alike.trans same⟩
      · exact .inr ((congrArg Prod.snd same).symm.trans new)
    · exact .inr new

theorem distinct_insertNewBlocks {segmentId : Nat} {rows : List BlockRow}
    {blocks : List NewBlockRow} (distinct : (rows.map BlockRow.hash).Nodup) :
    ((insertNewBlocks segmentId rows blocks).1.map BlockRow.hash).Nodup := by
  induction blocks generalizing rows with
  | nil => exact distinct
  | cons block blocks induction =>
    rw [insertNewBlocks]
    split
    · exact induction distinct
    · rename_i absent
      apply induction
      rw [map_append, map_singleton]
      refine nodup_append.mpr ⟨distinct, nodup_singleton _, ?_⟩
      intro hash listed other isNew same
      rcases mem_map.mp listed with ⟨row, member, rfl⟩
      rw [mem_singleton.mp isNew] at same
      exact absent (any_eq_true.mpr ⟨row, member, decide_eq_true same⟩)

theorem stamps_applyAppend {append : SegmentAppend}
    (dated : ∀ block ∈ append.blocks, block.addedAt = addedAt) :
    Stamps addedAt index (index.applyAppend append) where
  distinct := by
    intro distinct
    apply distinct_insertNewBlocks
    rw [blocks_openSegment]
    exact distinct
  rows := by
    intro row member
    rcases mem_insertNewBlocks member with old | ⟨block, listed, rfl⟩
    · rw [blocks_openSegment] at old
      exact .inl ⟨row, old, rfl⟩
    · exact .inr (dated block listed)

theorem stamps_commitGroup {plan : GroupCommitPlan}
    (dated : ∀ append ∈ plan.appends, ∀ block ∈ append.blocks, block.addedAt = addedAt) :
    Stamps addedAt index (index.commitGroup plan) := by
  have appended : ∀ (appends : List SegmentAppend) (index : BlockIndex),
      (∀ append ∈ appends, ∀ block ∈ append.blocks, block.addedAt = addedAt) →
        Stamps addedAt index (appends.foldl applyAppend index) := by
    intro appends
    induction appends with
    | nil => exact fun _ _ => (ages_of_blocks rfl).stamps addedAt
    | cons append appends induction =>
      intro index dated
      exact (stamps_applyAppend (dated append mem_cons_self)).trans
        (induction _ fun later member => dated later (.tail append member))
  have closed : Ages index (index.sealAll plan.sealed) :=
    ages_of_blocks (blocks_sealAll index plan.sealed)
  have recorded := (closed.stamps addedAt).trans (appended plan.appends _ dated)
  exact ⟨recorded.distinct, recorded.rows⟩

/-! ## Times of groups -/

/-- What a group has staged carries the time it read. -/
def Leader.Dated (leader : Leader) : Prop :=
  ∀ batch ∈ leader.phase.batches, ∀ block ∈ batch.rows, block.addedAt = leader.addedAt

variable {group : GroupState} {batches : List OpenBatch}

theorem dated_stageLast {frame : RecordFrame}
    (dated : ∀ batch ∈ batches, ∀ block ∈ batch.rows, block.addedAt = addedAt) :
    ∀ batch ∈ stageLast addedAt frame batches, ∀ block ∈ batch.rows, block.addedAt = addedAt := by
  intro batch member
  rcases mem_stageLast member with ⟨old, listed, rfl | rfl⟩
  · exact dated batch listed
  · exact forall_mem_concat (dated old listed) rfl

/-- What a step of a group does to the times: it stays in the same group, and maps what carries the
group's time. -/
structure KeepsTime (group after : GroupState) (leader : Leader) : Prop where
  index : Stamps leader.addedAt group.index after.index
  relocated : leader.kind ≠ .ingest → Ages group.index after.index
  leader : ∀ leads, after.leader = some leads →
    leads.kind = leader.kind ∧ leads.addedAt = leader.addedAt ∧ leads.Dated

theorem KeepsTime.goOn {after : GroupState} {leads : Leader}
    (same : after.index.blocks = group.index.blocks) (leading : after.leader = some leads)
    (kind : leads.kind = leader.kind) (addedAt : leads.addedAt = leader.addedAt)
    (dated : leads.Dated) : KeepsTime group after leader where
  index := (ages_of_blocks same).stamps _
  relocated := fun _ => ages_of_blocks same
  leader := by
    intro other isOther
    cases leading.symm.trans isOther
    exact ⟨kind, addedAt, dated⟩

theorem dated_opening {opening : OpenBatch}
    (dated : ∀ batch ∈ batches, ∀ block ∈ batch.rows, block.addedAt = addedAt)
    (empty : opening.rows = []) :
    ∀ batch ∈ batches ++ [opening], ∀ block ∈ batch.rows, block.addedAt = addedAt := by
  intro batch member block listed
  rcases mem_append.mp member with old | new
  · exact dated batch old block listed
  · rw [mem_singleton.mp new, empty] at listed
    cases listed

theorem KeepsTime.layOut {after : GroupState} {frame : RecordFrame} {rest : List RecordFrame}
    {sealed : List Nat} {outcome : CreateOutcome} (dated : leader.Dated)
    (phase : leader.phase = .layOut (frame :: rest) batches sealed)
    (made : group.layOut limits leader frame rest batches sealed outcome = some after) :
    KeepsTime group after leader := by
  rw [Leader.Dated, phase] at dated
  have before : ∀ batch ∈ batches, ∀ block ∈ batch.rows, block.addedAt = leader.addedAt := dated
  unfold GroupState.layOut at made
  dsimp only at made
  split at made
  · split at made
    · cases made
      exact .goOn rfl rfl rfl rfl (dated_stageLast (dated_opening before rfl))
    · split at made
      · cases made
      · cases made
        have broken : ∀ leads, leader.creationFailed batches = some leads →
            leads.kind = leader.kind ∧ leads.addedAt = leader.addedAt ∧ leads.Dated := by
          intro leads isLeader
          rw [Leader.creationFailed] at isLeader
          split at isLeader
          · cases isLeader
            exact ⟨rfl, rfl, before⟩
          · cases isLeader
        refine ⟨(ages_of_blocks rfl).stamps _, fun _ => ages_of_blocks rfl, ?_⟩
        intro leads isLeader
        cases outcome with
        | created viaStage =>
          cases isLeader
          exact ⟨rfl, rfl, dated_stageLast (dated_opening before rfl)⟩
        | failed | leftStaged | leftUnpublished => exact broken leads isLeader
  · cases made
    exact .goOn rfl rfl rfl rfl (dated_stageLast before)

theorem KeepsTime.move {after : GroupState} (dated : leader.Dated)
    (move : GroupMove limits segments group leader event after) : KeepsTime group after leader := by
  cases move with
  | layOut phase made => exact .layOut dated phase made
  | laidOut phase =>
    rw [Leader.Dated, phase] at dated
    exact .goOn rfl rfl rfl rfl dated
  | appended phase | synced phase =>
    rw [Leader.Dated, phase] at dated
    refine .goOn rfl rfl rfl rfl ?_
    intro batch member
    apply dated
    rw [Phase.batches, append_nil]
    exact member
  | @append done batch rest sealed results _ phase made =>
    rw [Leader.Dated, phase] at dated
    unfold append at made
    dsimp only at made
    split at made
    · cases made
      have writes : ∀ written : OpenBatch, written.rows = batch.rows →
          ∀ other ∈ done ++ written :: rest, ∀ block ∈ other.rows,
            block.addedAt = leader.addedAt := by
        intro written same other member block listed
        rcases mem_append.mp member with early | late
        · exact dated other (mem_append_left _ early) block listed
        · rcases mem_cons.mp late with rfl | later
          · rw [same] at listed
            exact dated batch (mem_append_right _ mem_cons_self) block listed
          · exact dated other
              (mem_append_right _ (.tail batch later)) block listed
      refine .goOn rfl rfl rfl rfl ?_
      rw [Leader.Dated]
      dsimp only
      split
      · rw [Phase.batches, append_assoc, singleton_append]
        exact writes _ rfl
      · exact writes _ rfl
    · cases made
  | @sync done batch rest sealed synced phase =>
    rw [Leader.Dated, phase] at dated
    rw [sync]
    split
    · refine .goOn rfl rfl rfl rfl ?_
      rw [Leader.Dated, Phase.batches, append_assoc, singleton_append]
      exact dated
    · exact .goOn rfl rfl rfl rfl dated
  | @record batches sealed committed phase =>
    rw [Leader.Dated, phase] at dated
    rw [record]
    split
    · have empty : ∀ leads, some { leader with
          answered := leader.answered ++ (batches.flatMap OpenBatch.rows).map NewBlockRow.hash
          phase := .answer } = some leads →
            leads.kind = leader.kind ∧ leads.addedAt = leader.addedAt ∧ leads.Dated := by
        intro leads isLeader
        cases isLeader
        exact ⟨rfl, rfl, by rintro batch ⟨⟩⟩
      cases kind : leader.kind with
      | ingest =>
        refine ⟨?_, fun relocates => absurd kind relocates, kind ▸ empty⟩
        apply stamps_commitGroup
        intro append member
        rcases mem_map.mp member with ⟨batch, listed, rfl⟩
        exact dated batch listed
      | relocation number sources =>
        have moved := ages_commitRelocation group.index
          { group := groupPlan group.writer batches sealed, sources := sources }
        exact ⟨moved.stamps _, fun _ => moved, kind ▸ empty⟩
    · exact .goOn rfl rfl rfl rfl dated
  | @undo batch rest survivor outcome phase =>
    rw [Leader.Dated, phase] at dated
    have fewer : ∀ other ∈ rest, ∀ block ∈ other.rows, block.addedAt = leader.addedAt :=
      fun other member => dated other (.tail batch member)
    rw [rollBackOne]
    dsimp only
    split
    · split
      · exact .goOn rfl rfl rfl rfl fewer
      · refine .goOn ?_ rfl rfl rfl fewer
        dsimp only
        split <;> rfl
    · exact .goOn rfl rfl rfl rfl fewer

/-! ## Runs -/

/-- A group of put blocks began after everything that was recorded before it. -/
structure Leader.Timed (leader : Leader) (clock : Int) (recorded : List Recorded) : Prop where
  dated : leader.Dated
  begun : leader.kind = .ingest → leader.addedAt ≤ clock ∧
    ∀ entry ∈ recorded, entry.recordedAt ≤ leader.addedAt

/-- No mapping of a block is older than the copy a put of that block found or made. -/
structure Aged (store : Store) (clock : Int) (recorded : List Recorded) : Prop where
  distinct : (store.index.blocks.map BlockRow.hash).Nodup
  rows : ∀ row ∈ store.index.blocks, row.addedAt ≤ clock
  late : ∀ entry ∈ recorded, entry.recordedAt ≤ clock
  older : ∀ entry ∈ recorded, ∀ row ∈ store.index.blocks, row.hash = entry.hash →
    entry.recordedAt ≤ row.addedAt
  leads : ∀ handle, store.handle = some handle → ∀ leader, handle.leader = some leader →
    leader.Timed clock recorded

variable {clock now : Int} {recorded fewer : List Recorded}

theorem Leader.Timed.mono (timed : leader.Timed clock recorded) (later : clock ≤ now)
    (subset : fewer ⊆ recorded) : leader.Timed now fewer where
  dated := timed.dated
  begun := by
    intro ingests
    rcases timed.begun ingests with ⟨read, after⟩
    exact ⟨read.trans later, fun entry member => after entry (subset member)⟩

section

variable (aged : Aged store clock recorded)

include aged

theorem Aged.mono (later : clock ≤ now)
    (subset : fewer ⊆ recorded) : Aged store now fewer where
  distinct := aged.distinct
  rows := fun row member => (aged.rows row member).trans later
  late := fun entry member => (aged.late entry (subset member)).trans later
  older := fun entry member => aged.older entry (subset member)
  leads := fun handle opened leader leads => (aged.leads handle opened leader leads).mono later subset

theorem Aged.stamped (later : clock ≤ now)
    (stamps : Stamps addedAt store.index next.index) (within : addedAt ≤ now)
    (after : ∀ entry ∈ recorded, entry.recordedAt ≤ addedAt)
    (leads : ∀ handle, next.handle = some handle → ∀ leader, handle.leader = some leader →
      leader.Timed now recorded) : Aged next now recorded where
  distinct := stamps.distinct aged.distinct
  rows := by
    intro row member
    rcases stamps.rows row member with ⟨old, listed, same⟩ | new
    · have sameTime : old.addedAt = row.addedAt := congrArg Prod.snd same
      rw [← sameTime]
      exact (aged.rows old listed).trans later
    · rw [new]
      exact within
  late := fun entry member => (aged.late entry member).trans later
  older := by
    intro entry member row mapped hash
    rcases stamps.rows row mapped with ⟨old, listed, same⟩ | new
    · have sameHash : old.hash = row.hash := congrArg Prod.fst same
      have sameTime : old.addedAt = row.addedAt := congrArg Prod.snd same
      rw [← sameTime]
      exact aged.older entry member old listed (sameHash.trans hash)
    · rw [new]
      exact after entry member
  leads := leads

theorem Aged.aging (later : clock ≤ now)
    (ages : Ages store.index next.index)
    (leads : ∀ handle, next.handle = some handle → ∀ leader, handle.leader = some leader →
      leader.Timed now recorded) : Aged next now recorded :=
  aged.stamped later (ages.stamps now) (Int.le_refl now)
    (fun entry member => (aged.late entry member).trans later) leads

theorem Aged.leaderMove (later : clock ≤ now)
    (opened : store.handle = some handle) (leads : handle.leader = some leader)
    (move : LeaderMove limits segments store handle leader event next) :
    Aged next now recorded := by
  have timed := aged.leads handle opened leader leads
  have grouped : ∀ after, GroupMove limits segments (store.group handle) leader event after →
      ∀ changed, Aged (store.withGroup changed after) now recorded := by
    intro after move changed
    have keeps := KeepsTime.move timed.dated move
    have leading : ∀ leads, after.leader = some leads → leads.Timed now recorded := by
      intro leads isLeader
      rcases keeps.leader leads isLeader with ⟨kind, addedAt, dated⟩
      refine ⟨dated, ?_⟩
      rw [kind, addedAt]
      exact (timed.mono later (List.Subset.refl _)).begun
    by_cases ingests : leader.kind = .ingest
    · rcases timed.begun ingests with ⟨read, after⟩
      refine aged.stamped later keeps.index (read.trans later) after ?_
      intro other same
      cases same
      exact leading
    · refine aged.aging later (keeps.relocated ingests) ?_
      intro other same
      cases same
      exact leading
  cases move with
  | moved move => exact grouped _ move _
  | broken move => exact grouped _ move _
  | undone | answered =>
    refine aged.aging later (ages_of_blocks rfl) ?_
    intro other same
    cases same
    rintro _ ⟨⟩

end

def Event.records (hashBlock : Bytes → RawHash) (index : BlockIndex) (now : Int) :
    Event → List Recorded
  | .put blocks _ => recordedBy hashBlock index blocks now
  | _ => []

theorem records_of_task (task : event.ofTask = true) : event.records hashBlock index now = [] := by
  cases event with
  | put => cases task
  | _ => rfl

theorem records_of_leads (move : LeaderMove limits segments store handle leader event next) :
    event.records hashBlock index now = [] := by
  cases event with
  | put =>
    cases move with
    | moved move | broken move => cases move
    | undone finishes | answered finishes => cases finishes
  | _ => rfl

theorem mem_recordedBy {blocks : List Bytes} {entry : Recorded}
    (member : entry ∈ recordedBy hashBlock index blocks now) :
    (∃ row, index.lookupRow entry.hash = some row ∧ entry.recordedAt = row.addedAt) ∨
      index.lookupRow entry.hash = none ∧ entry.recordedAt = now := by
  rcases mem_map.mp member with ⟨frame, _, rfl⟩
  dsimp only
  cases index.lookupRow frame.hash with
  | none => exact .inr ⟨rfl, rfl⟩
  | some row => exact .inl ⟨row, rfl, rfl⟩

theorem Aged.put {blocks : List Bytes} (aged : Aged store clock recorded) (later : clock ≤ now) :
    Aged { store with
      handle := some { handle with leader := some (beginPut hashBlock store.index blocks now) }
      submitted := store.submitted ++ blocks } now
      (recordedBy hashBlock store.index blocks now ++ recorded) := by
  have late : ∀ entry ∈ recordedBy hashBlock store.index blocks now ++ recorded,
      entry.recordedAt ≤ now := by
    intro entry member
    rcases mem_append.mp member with new | old
    · rcases mem_recordedBy new with ⟨row, found, same⟩ | ⟨_, same⟩
      · rw [same]
        exact (aged.rows row (mem_of_find?_eq_some found)).trans later
      · rw [same]
    · exact (aged.late entry old).trans later
  refine ⟨aged.distinct, fun row member => (aged.rows row member).trans later, late, ?_, ?_⟩
  · intro entry member row mapped hash
    rcases mem_append.mp member with new | old
    · rcases mem_recordedBy new with ⟨found, isFound, same⟩ | ⟨absent, _⟩
      · have about : found.hash = entry.hash := by
          have tested := find?_some (show find? _ _ = some found from isFound)
          exact of_decide_eq_true tested
        have isRow := inj_on_of_nodup_map aged.distinct mapped
          (mem_of_find?_eq_some isFound) (hash.trans about.symm)
        rw [same, isRow]
      · exact absurd (decide_eq_true hash) (find?_eq_none.mp absent row mapped)
    · exact aged.older entry old row mapped hash
  · intro other same
    cases same
    rintro leader ⟨⟩
    refine ⟨?_, fun _ => ⟨Int.le_refl now, late⟩⟩
    rw [Leader.Dated, beginPut]
    dsimp only
    split
    · rintro batch ⟨⟩
    · rintro batch ⟨⟩

theorem Aged.step (aged : Aged store clock recorded) (later : clock ≤ now)
    (reads : event.ReadsClock now)
    (stepped : Segments.step hashBlock limits segments store event = some next) :
    Aged next now (event.records hashBlock store.index now ++ recorded) := by
  have still : ∀ handle, store.handle = some handle → ∀ leader, handle.leader = some leader →
      leader.Timed now recorded := fun handle opened leader leads =>
    (aged.leads handle opened leader leads).mono later (List.Subset.refl _)
  cases StoreMove.of_step stepped with
  | crashed => exact aged.aging later (ages_of_blocks rfl) (by rintro _ ⟨⟩)
  | @recovered removable stageRemovable =>
    have fades := fades_recover removable stageRemovable store.index store.directory
    refine aged.aging later fades.ages ?_
    intro other same
    cases same
    rintro _ ⟨⟩
  | @taken handle _ _ opened move =>
    cases move with
    | led leads move =>
      rw [records_of_leads move]
      exact aged.leaderMove later opened leads move
    | put unled =>
      cases reads
      exact aged.put later
    | sealActive unled =>
      refine aged.aging later (ages_of_blocks ?_) ?_
      · dsimp only
        split <;> rfl
      · intro other same
        cases same
        exact still handle opened
    | relocate unled =>
      refine aged.aging later (ages_of_blocks rfl) ?_
      intro other same
      cases same
      rintro leader ⟨⟩
      exact ⟨by rintro batch ⟨⟩, by rintro ⟨⟩⟩
    | remove =>
      refine aged.aging later (fades_removeBlocks _ _).ages ?_
      intro other same
      cases same
      intro leader isLeader
      rcases Option.map_eq_some_iff.mp isLeader with ⟨old, leads, rfl⟩
      have timed := still handle opened old leads
      exact ⟨timed.dated, timed.begun⟩
    | compact | reclaim =>
      refine aged.aging later (ages_of_blocks rfl) ?_
      intro other same
      cases same
      exact still handle opened
    | compacted task found moves =>
      rcases moves with ⟨index, changed, move, rfl⟩
      rw [records_of_task task]
      refine aged.aging later (fades_compactionMove move).ages ?_
      intro other same
      cases same
      exact still handle opened
    | reclaimed task found move =>
      rw [records_of_task task]
      refine aged.aging later (fades_reclaimMove move).ages ?_
      intro other same
      cases same
      exact still handle opened

def GraceState.entries (state : GraceState) : List Recorded :=
  state.pending ++ state.returned.map Returned.toRecorded

/-- No sweep has chosen a block that was returned for after its cutoff. -/
structure Spared (state : GraceState) : Prop where
  aged : Aged state.store state.clock state.entries
  sweeps : ∀ sweep ∈ state.sweeps, ∀ entry ∈ state.returned, sweep.cutoff < entry.returnedAt →
    entry.hash ∉ sweep.candidates

theorem spared_fresh (clock : Int) : Spared (.fresh clock) where
  aged :=
    { distinct := List.nodup_nil
      rows := by rintro _ ⟨⟩
      late := by rintro _ ⟨⟩
      older := by rintro _ ⟨⟩
      leads := by rintro _ ⟨⟩ }
  sweeps := by rintro _ ⟨⟩

variable {state later : GraceState}

theorem mem_kept {entry : Returned} (member : entry ∈ state.kept event) :
    entry ∈ state.returned := by
  cases event with
  | remove => exact (mem_filter.mp member).1
  | _ => exact member

theorem mem_answers {entry : Recorded} (member : entry ∈ state.answers event) :
    entry ∈ state.pending := by
  cases event with
  | finish =>
    rw [GraceState.answers] at member
    split at member
    · exact member
    · cases member
  | _ => cases member

theorem mem_returned_took {entry : Returned}
    (member : entry ∈ (state.took hashBlock now event store).returned) :
    entry ∈ state.returned ∨ entry.toRecorded ∈ state.answers event ∧ entry.returnedAt = now := by
  rcases mem_append.mp member with old | new
  · exact .inl (mem_kept old)
  · rcases mem_map.mp new with ⟨answered, listed, rfl⟩
    exact .inr ⟨listed, rfl⟩

theorem entries_took : (state.took hashBlock now event store).entries ⊆
    event.records hashBlock state.store.index now ++ state.entries := by
  intro entry member
  rcases mem_append.mp member with pending | returned
  · cases event with
    | put => exact mem_append_left _ pending
    | _ => exact mem_append_right _ (mem_append_left _ pending)
  · apply mem_append_right
    rcases mem_map.mp returned with ⟨entry, listed, rfl⟩
    rcases mem_returned_took listed with old | ⟨answered, _⟩
    · exact mem_append_right _ (mem_map_of_mem old)
    · exact mem_append_left _ (mem_answers answered)

theorem mem_sweepCandidates {live : List RawHash} {cutoff : Int} {hash : RawHash}
    (member : hash ∈ index.sweepCandidates live cutoff) :
    hash ∉ live ∧ ∃ row ∈ index.blocks, row.hash = hash ∧ row.addedAt ≤ cutoff := by
  rcases mem_filter.mp member with ⟨chosen, dead⟩
  rcases mem_map.mp chosen with ⟨row, listed, same⟩
  rcases mem_filter.mp listed with ⟨mapped, old⟩
  exact ⟨of_decide_eq_true dead, row, mapped, same, of_decide_eq_true old⟩

theorem Spared.step {event : GraceEvent} (spared : Spared state) (graced : InGrace state event)
    (stepped : graceStep hashBlock limits segments state event = some later) : Spared later := by
  cases event with
  | store now event =>
    rw [graceStep] at stepped
    split at stepped
    · rename_i allowed
      rcases Option.map_eq_some_iff.mp stepped with ⟨store, moved, rfl⟩
      have aged := spared.aged.step allowed.1 allowed.2 moved
      refine ⟨aged.mono (Int.le_refl _) entries_took, ?_⟩
      intro sweep member entry returned since
      have pending : sweep ∈ state.sweeps := by
        change sweep ∈ if store.handle.isSome then state.sweeps else [] at member
        split at member
        · exact member
        · cases member
      rcases mem_returned_took returned with old | ⟨answered, isNow⟩
      · exact spared.sweeps sweep pending entry old since
      · rw [isNow] at since
        exact graced entry.toRecorded answered sweep pending since
    · cases stepped
  | select now live cutoff =>
    rw [graceStep] at stepped
    split at stepped
    · rename_i allowed
      cases stepped
      refine ⟨spared.aged.mono allowed.1 (List.Subset.refl _), ?_⟩
      intro sweep member entry returned since chosen
      rcases mem_append.mp member with old | new
      · exact spared.sweeps sweep old entry returned since chosen
      · rw [mem_singleton.mp new] at since chosen
        rcases mem_sweepCandidates chosen with ⟨dead, row, mapped, same, before⟩
        have listed : entry.toRecorded ∈ state.entries :=
          mem_append_right _ (mem_map_of_mem returned)
        have recordedBefore := (spared.aged.older _ listed row mapped same).trans before
        exact absurd (graced entry returned dead recordedBefore) (not_le.mpr since)
    · cases stepped
  | sweep now number =>
    rw [graceStep] at stepped
    split at stepped
    · cases stepped
    · rename_i chosen _
      split at stepped
      · rename_i isLater
        rcases Option.map_eq_some_iff.mp stepped with ⟨store, moved, rfl⟩
        have reads : Event.ReadsClock now (.remove chosen.candidates) := trivial
        refine ⟨spared.aged.step isLater reads moved, ?_⟩
        intro sweep member
        exact spared.sweeps sweep (mem_of_mem_eraseIdx member)
      · cases stepped

/-- In every run whose sweeps choose and whose puts return in the grace of each other, a sweep keeps
the mapping of every block that a put returned for after its cutoff and that was not deleted
since. -/
theorem sweep_spares_fresh_blocks (hashBlock : Bytes → RawHash) (limits : GroupCommitLimits)
    (segments : Nat) {start now : Int} {events : List GraceEvent} {state later : GraceState}
    {number : Nat} {sweep : Sweep}
    (graced : Along (graceStep hashBlock limits segments) InGrace (.fresh start) events)
    (ran : run (graceStep hashBlock limits segments) (.fresh start) events = some state)
    (chosen : state.sweeps[number]? = some sweep)
    (swept : graceStep hashBlock limits segments state (.sweep now number) = some later) :
    ∀ entry ∈ state.returned, sweep.cutoff < entry.returnedAt →
      ∀ row ∈ state.store.index.blocks, row.hash = entry.hash → row ∈ later.store.index.blocks := by
  intro entry returned since row mapped same
  have spared := invariant_run (fun _ _ _ spared graced stepped => spared.step graced stepped)
    (spared_fresh start) graced ran
  have kept := spared.sweeps sweep (List.mem_of_getElem? chosen) entry returned since
  rw [graceStep, chosen] at swept
  dsimp only at swept
  split at swept
  · rcases Option.map_eq_some_iff.mp swept with ⟨store, moved, rfl⟩
    cases opened : state.store.handle with
    | none =>
      simp only [Segments.step, opened] at moved
      cases moved
    | some handle =>
      simp only [Segments.step, opened] at moved
      cases moved
      exact mem_removeBlocks mapped (same ▸ kept)
  · cases swept

/-- One block is put at the time 10, and swept for with the cutoff 5. -/
def sweptLater : List GraceEvent :=
  (GraceEvent.store 0 (.recover (fun _ => true) (fun _ => true)) :: .store 10 (.put [[1]] 10) ::
    (recordedPut.drop 2).map (.store 10)) ++ [.select 20 [] 5]

/-- One block is put at the time 0 and again at the time 10, and swept for with the cutoff 5. -/
def putAgain : List GraceEvent :=
  recordedPut.map (.store 0) ++ [.store 10 (.put [[1]] 10), .store 10 .finish, .select 20 [] 5]

def stateSweptLater : GraceState :=
  (run (graceStep hashOfByte defaultLimits maxWriteSegments) (.fresh 0) sweptLater).get (by decide)

def statePutAgain : GraceState :=
  (run (graceStep hashOfByte defaultLimits maxWriteSegments) (.fresh 0) putAgain).get (by decide)

set_option maxRecDepth 4000 in
/-- The block that is put once stays mapped. -/
theorem sweep_spares_fresh_blocks_once :
    stateSweptLater.returned ≠ [] ∧ ∀ entry ∈ stateSweptLater.returned, 5 < entry.returnedAt →
      ∀ row ∈ stateSweptLater.store.index.blocks, row.hash = entry.hash →
        row ∈ ((graceStep hashOfByte defaultLimits maxWriteSegments stateSweptLater
          (.sweep 20 0)).get (by decide)).store.index.blocks :=
  ⟨by decide, @sweep_spares_fresh_blocks hashOfByte defaultLimits maxWriteSegments _ _ sweptLater
    _ _ 0 { cutoff := 5, candidates := [] } (by decide) (Option.some_get _).symm (by decide)
    (Option.some_get _).symm⟩

set_option maxRecDepth 4000 in
/-- The second put finds the mapping of the first and does not renew its time. -/
theorem deduplicated_block_is_swept :
    ¬∀ (hashBlock : Bytes → RawHash) (limits : GroupCommitLimits) (segments : Nat)
        (start now : Int) (events : List GraceEvent) (state later : GraceState) (number : Nat)
        (sweep : Sweep),
      run (graceStep hashBlock limits segments) (.fresh start) events = some state →
      state.sweeps[number]? = some sweep →
      graceStep hashBlock limits segments state (.sweep now number) = some later →
      ∀ entry ∈ state.returned, sweep.cutoff < entry.returnedAt →
        ∀ row ∈ state.store.index.blocks, row.hash = entry.hash →
          row ∈ later.store.index.blocks := by
  intro always
  have kept := always hashOfByte defaultLimits maxWriteSegments 0 20 putAgain statePutAgain
    ((graceStep hashOfByte defaultLimits maxWriteSegments statePutAgain (.sweep 20 0)).get
      (by decide)) 0 { cutoff := 5, candidates := [hashOfByte [1]] } (Option.some_get _).symm
    (by decide) (Option.some_get _).symm ⟨⟨hashOfByte [1], 0⟩, 10⟩ (by decide) (by decide)
    ⟨hashOfByte [1], 1, 16, 1, 53, 0⟩ (by decide) rfl
  revert kept
  decide

end Yadorilink.Segments
