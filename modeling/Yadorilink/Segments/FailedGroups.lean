import Yadorilink.Segments.SegmentFiles

/-! Groups that fail: what was recorded before them stays mapped and readable, and what comes next
goes to the recorded end of its segment, unless an undo takes an index read that failed for a
segment without a row. -/

namespace Yadorilink.Segments

open Machine FileBytes List Option GroupState

variable {hashBlock : Bytes → RawHash} {limits : GroupCommitLimits} {segments : Nat}
  {store next last : Store} {handle : Handle} {leader : Leader} {event : Event}
  {submitted : List Bytes} {group after : GroupState} {index : BlockIndex}

/-! ## Where records land -/

/-- The segments a group has laid out and not written yet. -/
def Phase.unwritten : Phase → List OpenBatch
  | .layOut _ batches _ => batches
  | .append _ rest _ => rest
  | _ => []

/-- The segments of a group are about to be written at their recorded end, or right behind the
header of one the group created. -/
def Lands (index : BlockIndex) (leader : Option Leader) : Prop :=
  ∀ leads, leader = some leads → ∀ batch ∈ leads.phase.unwritten,
    batch.From index batch.writer.writeEnd

theorem Lands.undisturbed {later : BlockIndex} {before now : Option Leader}
    (lands : Lands index before) (undisturbed : Undisturbed index later)
    (phase : now.map Leader.phase = before.map Leader.phase) : Lands later now := by
  intro leads isNow batch member
  rw [isNow] at phase
  obtain ⟨old, wasLeader, same⟩ := map_eq_some_iff.mp phase.symm
  exact (lands old wasLeader batch (same ▸ member)).undisturbed undisturbed

theorem from_stageLast {addedAt : Int} {frame : RecordFrame} {batches : List OpenBatch}
    (opens : ∀ batch ∈ batches, batch.From index batch.writer.writeEnd) :
    ∀ batch ∈ stageLast addedAt frame batches, batch.From index batch.writer.writeEnd := by
  intro batch member
  rcases mem_stageLast member with ⟨old, listed, rfl | rfl⟩
  · exact opens batch listed
  · exact opens old listed

theorem Lands.layOut {frame : RecordFrame} {rest : List RecordFrame} {batches : List OpenBatch}
    {sealed : List Nat} {outcome : CreateOutcome} (sound : GroupSound hashBlock submitted group)
    (opens : ∀ batch ∈ batches, batch.From group.index batch.writer.writeEnd)
    (made : group.layOut limits leader frame rest batches sealed outcome = some after) :
    Lands after.index after.leader := by
  unfold GroupState.layOut at made
  dsimp only at made
  split at made
  · split at made
    · rename_i active isActive
      cases made
      intro leads same
      cases same
      apply from_stageLast
      refine forall_mem_concat opens ?_
      split at isActive
      · cases isActive
      · exact (sound.active active isActive).1
    · split at made
      · cases made
      · cases made
        cases outcome with
        | created viaStage =>
          intro leads same
          cases same
          apply from_stageLast
          refine forall_mem_concat opens ?_
          refine ⟨rfl, fun state durableEnd row => ?_⟩
          exact Nat.lt_irrefl _ (sound.rows _ _ _ row)
        | failed | leftStaged | leftUnpublished =>
          intro leads same
          dsimp only at same
          rw [Leader.creationFailed] at same
          split at same
          · cases same
            rintro _ ⟨⟩
          · cases same
  · cases made
    intro leads same
    cases same
    exact from_stageLast opens

theorem Lands.move (sound : GroupSound hashBlock submitted group)
    (lands : Lands group.index group.leader) (leads : group.leader = some leader)
    (move : GroupMove limits segments group leader event after) :
    Lands after.index after.leader := by
  have opens := lands leader leads
  cases move with
  | layOut phase made =>
    rw [phase] at opens
    exact Lands.layOut sound opens made
  | laidOut phase =>
    rw [phase] at opens
    intro leads same
    cases same
    exact opens
  | appended | synced =>
    intro leads same
    cases same
    rintro _ ⟨⟩
  | append phase made =>
    rw [phase] at opens
    rw [append] at made
    split at made
    · generalize appendChunks segments _ _ _ _ = wrote at made
      cases made
      intro leads same
      cases same
      dsimp only
      split
      · exact fun batch member => opens batch (.tail _ member)
      · rintro _ ⟨⟩
    · cases made
  | sync =>
    rw [sync]
    split
    · intro leads same
      cases same
      rintro _ ⟨⟩
    · intro leads same
      cases same
      rintro _ ⟨⟩
  | record =>
    rw [record]
    split
    · intro leads same
      cases same
      rintro _ ⟨⟩
    · intro leads same
      cases same
      rintro _ ⟨⟩
  | undo =>
    rw [rollBackOne]
    dsimp only
    split
    · split
      · intro leads same
        cases same
        rintro _ ⟨⟩
      · intro leads same
        cases same
        rintro _ ⟨⟩
    · intro leads same
      cases same
      rintro _ ⟨⟩

theorem CompactionMove.undisturbed {compaction : Compaction} {stage : CompactionStage}
    (move : CompactionMove hashBlock store compaction index stage) :
    Undisturbed store.index index := by
  cases move with
  | quiet | resolved | copied | suspected => exact .refl _
  | corrupt | dropped => exact undisturbed_removeBlocks _ _
  | retired => exact undisturbed_retireEmptySegment _ _

theorem ReclaimMove.undisturbed {reclaim : Reclaim} {directory : Directory} {rest : List Nat}
    (move : ReclaimMove store reclaim index directory rest)
    (gone : ∀ segmentId ∈ reclaim.rest, Gone (store.group handle) segmentId) :
    Undisturbed store.index index := by
  cases move with
  | passed | unlinked | synced => exact .refl _
  | @forgotten segmentId _ listed => exact undisturbed_forgetSegment (gone segmentId listed)

/-- The groups of a store are about to be written where their segments end. -/
def Store.Lands (store : Store) : Prop :=
  ∀ handle, store.handle = some handle → Segments.Lands store.index handle.leader

theorem lands_none (index : BlockIndex) : Lands index none := nofun

theorem Store.Lands.step (sound : Sound hashBlock store) (lands : store.Lands)
    (stepped : Segments.step hashBlock limits segments store event = some next) :
    next.Lands := by
  cases StoreMove.of_step stepped with
  | crashed => exact nofun
  | recovered =>
    intro handle same
    cases same
    exact lands_none _
  | @taken handle _ _ opened move =>
    have here := lands handle opened
    have group := sound.group handle opened
    intro current same
    cases move with
    | led leads move =>
      cases move with
      | moved move | broken move =>
        cases same
        exact Lands.move group here leads move
      | undone | answered =>
        cases same
        exact lands_none _
    | @put blocks addedAt unled =>
      cases same
      intro leads same batch member
      cases same
      rw [beginPut] at member
      dsimp only at member
      split at member <;> cases member
    | sealActive unled =>
      cases same
      dsimp only
      rw [unled]
      exact lands_none _
    | relocate =>
      cases same
      intro leads same batch member
      cases same
      cases member
    | remove =>
      cases same
      apply here.undisturbed (undisturbed_removeBlocks _ _)
      dsimp only
      rw [Option.map_map]
      rfl
    | compact | reclaim =>
      cases same
      exact here
    | compacted _ found moves =>
      obtain ⟨index, changed, move, rfl⟩ := moves
      cases same
      exact here.undisturbed move.undisturbed rfl
    | reclaimed _ found move =>
      cases same
      have gone := (sound.tasks handle opened).reclaims _ (mem_of_getElem? found)
      exact here.undisturbed (move.undisturbed gone) rfl

/-- The next records go to the recorded end of the segment they are appended to: the open segment
is recorded to end where it is written next, and so are the segments a group has laid out. -/
structure LandsAtEnds (store : Store) : Prop where
  active : ∀ handle, store.handle = some handle → ∀ writer, handle.writer.active = some writer →
    store.index.Row writer.segmentId .active writer.writeEnd
  laidOut : store.Lands

/-! ## What failing groups leave -/

/-- Events in which no group is recorded: groups that fail, with blocks deleted in between. -/
def Fails : Event → Prop
  | .put _ _ | .relocate _ _ | .layOut _ | .advance | .append _ | .sync _ | .undo _ | .finish
  | .sealActive _ | .remove _ => True
  | .record committed => committed = false
  | _ => False

instance Fails.decidable (event : Event) : Decidable (Fails event) :=
  match event with
  | .put _ _ | .relocate _ _ | .layOut _ | .advance | .append _ | .sync _ | .undo _ | .finish
  | .sealActive _ | .remove _ => .isTrue trivial
  | .record committed => inferInstanceAs (Decidable (committed = false))
  | .recover _ _ | .crash _ _ | .compact _ | .page _ | .resolve _ | .readBlock _ _ | .recheck _
  | .retire _ _ | .abandonCompaction _ | .reclaim | .unlink _ _ | .forget _ _ | .syncReclaim _ =>
    .isFalse not_false

def deletions (events : List Event) : List RawHash :=
  events.flatMap fun event =>
    match event with
    | .remove hashes => hashes
    | _ => []

/-- The file of a block's segment is there, with these bytes as the block's whole record. -/
structure Holds (directory : Directory) (row : BlockRow) (bytes : Bytes) : Prop where
  present : row.segmentId ∈ directory.names
  reads : readAt (directory.file row.segmentId).bytes row.recordOffset
    (recordLen row.payloadLen) = bytes
  whole : bytes.length = recordLen row.payloadLen

/-- Blocks that are not deleted stay mapped, and their records in the files. -/
def KeepsBlocks (store last : Store) (events : List Event) : Prop :=
  ∀ row ∈ store.index.blocks, row.hash ∉ deletions events → row ∈ last.index.blocks ∧
      ∀ bytes, Holds store.directory row bytes → Holds last.directory row bytes

/-- The mapped blocks whose whole record is in a file and that the events do not delete. -/
def spared (store : Store) (events : List Event) : List BlockRow :=
  store.index.blocks.filter fun row =>
    row.hash ∉ deletions events ∧ row.segmentId ∈ store.directory.names ∧
      (readAt (store.directory.file row.segmentId).bytes row.recordOffset
        (recordLen row.payloadLen)).length = recordLen row.payloadLen

def Store.undoing (store : Store) : Option Nat :=
  (store.handle.bind Handle.leader).bind Leader.undoing

/-- An undo that cannot read the index removes the file of a segment one of the blocks is in. -/
def Loses (rows : List BlockRow) (store : Store) : Event → Prop
  | .undo outcome =>
    outcome.lookedUp = false ∧ outcome.removed = true ∧
      ∃ row ∈ rows, store.undoing = some row.segmentId
  | _ => False

instance Loses.decidable (rows : List BlockRow) (store : Store) (event : Event) :
    Decidable (Loses rows store event) :=
  match event with
  | .undo outcome => inferInstanceAs (Decidable (outcome.lookedUp = false ∧
      outcome.removed = true ∧ ∃ row ∈ rows, store.undoing = some row.segmentId))
  | .put _ _ | .relocate _ _ | .layOut _ | .advance | .append _ | .sync _ | .finish
  | .sealActive _ | .remove _ | .record _ | .recover _ _ | .crash _ _ | .compact _ | .page _
  | .resolve _ | .readBlock _ _ | .recheck _ | .retire _ _ | .abandonCompaction _ | .reclaim
  | .unlink _ _ | .forget _ _ | .syncReclaim _ => .isFalse not_false

/-! ## Single steps -/

variable {row : BlockRow} {bytes : Bytes}

theorem mem_removeBlock {hash : RawHash} (mapped : row ∈ index.blocks) (other : row.hash ≠ hash) :
    row ∈ (index.removeBlock hash).blocks := by
  rw [BlockIndex.removeBlock]
  split
  · exact mapped
  · exact mem_filter.mpr ⟨mapped, decide_eq_true other⟩

theorem mem_removeBlocks {hashes : List RawHash} (mapped : row ∈ index.blocks)
    (kept : row.hash ∉ hashes) : row ∈ (index.removeBlocks hashes).blocks := by
  rw [BlockIndex.removeBlocks]
  induction hashes generalizing index with
  | nil => exact mapped
  | cons hash hashes induction =>
    rw [mem_cons, not_or] at kept
    exact induction (mem_removeBlock mapped kept.1) kept.2

/-- What a group that is not recorded keeps, and the segment it may seal. -/
structure Unrecorded (group : GroupState) (leader : Leader) (after : GroupState) : Prop where
  index : after.index = group.index ∨ ∃ batch rest survivor,
    leader.phase = .undo (batch :: rest) survivor ∧
      after.index = group.index.setSegmentState batch.segmentId .sealed
  next : group.writer.nextSegmentId ≤ after.writer.nextSegmentId
  leads : ∀ leads, after.leader = some leads →
    leads.kind = leader.kind ∧ leads.answered = leader.answered

theorem Unrecorded.goOn {phase : Phase} (index : after.index = group.index)
    (next : group.writer.nextSegmentId ≤ after.writer.nextSegmentId)
    (leads : after.leader = some { leader with phase := phase }) :
    Unrecorded group leader after := by
  refine ⟨.inl index, next, ?_⟩
  intro other isLeader
  cases leads.symm.trans isLeader
  exact ⟨rfl, rfl⟩

theorem Unrecorded.of_fails (move : GroupMove limits segments group leader event after)
    (fails : Fails event) : Unrecorded group leader after := by
  cases move with
  | @layOut frame rest batches sealed outcome _ phase made =>
    unfold layOut at made
    dsimp only at made
    split at made
    · split at made
      · cases made
        exact .goOn rfl (Nat.le_refl _) rfl
      · split at made
        · cases made
        · cases made
          cases outcome with
          | created viaStage => exact .goOn rfl (Nat.le_succ _) rfl
          | failed | leftStaged | leftUnpublished =>
            refine ⟨.inl rfl, Nat.le_succ _, ?_⟩
            intro leads isLeader
            dsimp only [Leader.creationFailed] at isLeader
            split at isLeader
            · cases isLeader
              exact ⟨rfl, rfl⟩
            · cases isLeader
    · cases made
      exact .goOn rfl (Nat.le_refl _) rfl
  | laidOut | appended | synced => exact .goOn rfl (Nat.le_refl _) rfl
  | append phase made =>
    rw [append] at made
    split at made
    · cases made
      exact .goOn rfl (Nat.le_refl _) rfl
    · cases made
  | sync =>
    rw [sync]
    split <;> exact .goOn rfl (Nat.le_refl _) rfl
  | record =>
    rw [record, if_neg (Bool.eq_false_iff.mp fails)]
    exact .goOn rfl (Nat.le_refl _) rfl
  | @undo batch rest survivor outcome phase =>
    rw [rollBackOne]
    dsimp only
    split
    · split
      · exact .goOn rfl (Nat.le_refl _) rfl
      · split
        · refine ⟨.inr ⟨batch, rest, survivor, phase, rfl⟩, Nat.le_refl _, ?_⟩
          rintro _ ⟨⟩
          exact ⟨rfl, rfl⟩
        · exact .goOn rfl (Nat.le_refl _) rfl
    · exact .goOn rfl (Nat.le_refl _) rfl

theorem blocks_of_fails (move : GroupMove limits segments group leader event after)
    (fails : Fails event) : after.index.blocks = group.index.blocks := by
  rcases (Unrecorded.of_fails move fails).index with same | ⟨batch, _, _, _, sealed⟩
  · rw [same]
  · rw [sealed]
    rfl

theorem Holds.kept {before after : Directory} (holds : Holds before row bytes)
    (keeps : KeepsFile before after row.segmentId
      (row.recordOffset + recordLen row.payloadLen)) : Holds after row bytes := by
  have long : row.recordOffset + recordLen row.payloadLen ≤
      (before.file row.segmentId).bytes.length := by
    have whole := holds.whole
    rw [← holds.reads, readAt, length_take, length_drop] at whole
    have positive : 0 < recordLen row.payloadLen := by
      rw [recordLen]
      exact Nat.lt_of_lt_of_le (by decide) (Nat.le_add_right recordOverhead row.payloadLen)
    omega
  refine ⟨keeps.present holds.present, ?_, holds.whole⟩
  rw [readAt_of_take (keeps.bytes long) (Nat.le_refl _)]
  exact holds.reads

/-- What one step of groups that fail does to a mapped block. -/
structure FailStep (store next : Store) (event : Event) (row : BlockRow) : Prop where
  mapped : row.hash ∉ deletions [event] → row ∈ next.index.blocks
  held : ∀ bytes, ¬Loses [row] store event → Holds store.directory row bytes →
    Holds next.directory row bytes
  lost : Loses [row] store event → row.segmentId ∉ next.directory.names
  absent : row.segmentId ∉ store.directory.names → row.segmentId ∉ next.directory.names

theorem FailStep.idle (same : next.directory = store.directory)
    (mapped : row.hash ∉ deletions [event] → row ∈ next.index.blocks)
    (spares : ¬Loses [row] store event) : FailStep store next event row where
  mapped := mapped
  held := fun _ _ holds => same ▸ holds
  lost := fun loses => absurd loses spares
  absent := fun absent => same ▸ absent

theorem loses_iff_erases (opened : store.handle = some handle)
    (leads : handle.leader = some leader) :
    Loses [row] store event ↔ leader.Erases row.segmentId event := by
  cases event with
  | undo outcome =>
    have undoing : store.undoing = leader.undoing := by
      rw [Store.undoing, opened, bind_some, leads, bind_some]
    rw [Loses, Leader.Erases, undoing]
    simp
  | _ => exact Iff.rfl

theorem FailStep.of_step (sound : Sound hashBlock store) (fails : Fails event)
    (stepped : Segments.step hashBlock limits segments store event = some next)
    (mapped : row ∈ store.index.blocks) : FailStep store next event row := by
  cases StoreMove.of_step stepped with
  | crashed => exact fails.elim
  | recovered => exact fails.elim
  | @taken handle _ _ opened move =>
    have group := sound.group handle opened
    obtain ⟨house, listed, houses⟩ := sound.index.coherent.housed row mapped
    have segment : store.index.Row row.segmentId house.state house.durableEnd :=
      ⟨house, listed, houses.1, rfl, rfl⟩
    have moved : ∀ leader group', handle.leader = some leader →
        GroupMove limits segments (store.group handle) leader event group' →
        ∀ changed, FailStep store (store.withGroup changed group') event row := by
      intro leader group' leads move changed
      exact {
        mapped := fun _ => (blocks_of_fails move fails).symm ▸ mapped
        held := by
          intro bytes spares holds
          rw [loses_iff_erases opened leads] at spares
          exact holds.kept
            (KeepsFile.move sound.index group leads move segment houses.2.2.2 spares)
        lost := by
          intro loses
          exact not_mem_of_erases move ((loses_iff_erases opened leads).mp loses)
        absent := absent_move move (group.rows _ _ _ segment) }
    cases move with
    | @led leader _ _ leads move =>
      cases move with
      | moved move => exact moved leader _ leads move _
      | broken move => exact moved leader _ leads move _
      | undone finishes =>
        subst finishes
        exact .idle rfl (fun _ => mapped) not_false
      | answered finishes =>
        subst finishes
        exact .idle rfl (fun _ => mapped) not_false
    | put => exact .idle rfl (fun _ => mapped) not_false
    | sealActive =>
      refine .idle rfl (fun _ => ?_) not_false
      dsimp only
      split <;> exact mapped
    | relocate => exact .idle rfl (fun _ => mapped) not_false
    | @remove hashes =>
      refine .idle rfl (fun kept => ?_) not_false
      apply mem_removeBlocks mapped
      rw [deletions, flatMap_singleton] at kept
      exact kept
    | compact => exact fails.elim
    | reclaim => exact fails.elim
    | compacted task =>
      cases event <;> first | exact fails.elim | cases task
    | reclaimed task =>
      cases event <;> first | exact fails.elim | cases task

/-! ## Runs -/

theorem not_mem_deletions {events : List Event} (kept : row.hash ∉ deletions (event :: events)) :
    row.hash ∉ deletions [event] ∧ row.hash ∉ deletions events := by
  rw [deletions, flatMap_cons, mem_append, not_or] at kept
  refine ⟨?_, kept.2⟩
  rw [deletions, flatMap_singleton]
  exact kept.1

variable {events : List Event}

theorem listed_run (sound : Sound hashBlock store)
    (free : Along (step hashBlock limits segments) (NoCollision hashBlock) store events)
    (fail : ∀ event ∈ events, Fails event)
    (ran : run (step hashBlock limits segments) store events = some last)
    (mapped : row ∈ store.index.blocks) (kept : row.hash ∉ deletions events) :
    row ∈ last.index.blocks ∧ (row.segmentId ∉ store.directory.names →
      row.segmentId ∉ last.directory.names) := by
  induction events generalizing store with
  | nil =>
    cases ran
    exact ⟨mapped, id⟩
  | cons event events induction =>
    obtain ⟨next, stepped, later⟩ := run_cons ran
    rcases not_mem_deletions kept with ⟨here, after⟩
    have fails := fail event (.head _)
    have made := FailStep.of_step sound fails stepped mapped
    rcases induction (sound.step free.1 stepped) (free.2 next stepped)
      (fun event member => fail event (.tail _ member)) later
      (made.mapped here) after with ⟨still, absent⟩
    exact ⟨still, fun gone => absent (made.absent gone)⟩

theorem held_run_iff {rows : List BlockRow} (sound : Sound hashBlock store)
    (free : Along (step hashBlock limits segments) (NoCollision hashBlock) store events)
    (fail : ∀ event ∈ events, Fails event)
    (ran : run (step hashBlock limits segments) store events = some last)
    (mapped : rows ⊆ store.index.blocks) (kept : ∀ row ∈ rows, row.hash ∉ deletions events)
    (held : ∀ row ∈ rows, ∃ bytes, Holds store.directory row bytes) :
    (∀ row ∈ rows, ∀ bytes, Holds store.directory row bytes → Holds last.directory row bytes) ↔
      Along (step hashBlock limits segments) (fun store event => ¬Loses rows store event) store
        events := by
  induction events generalizing store with
  | nil =>
    cases ran
    exact ⟨fun _ => trivial, fun _ _ _ _ => id⟩
  | cons event events induction =>
    obtain ⟨next, stepped, later⟩ := run_cons ran
    have fails := fail event (.head _)
    have failLater : ∀ event ∈ events, Fails event :=
      fun event member => fail event (.tail _ member)
    have steps : ∀ row ∈ rows, FailStep store next event row :=
      fun row member => .of_step sound fails stepped (mapped member)
    have sound' := sound.step free.1 stepped
    have mapped' : rows ⊆ next.index.blocks := fun row member =>
      (steps row member).mapped (not_mem_deletions (kept row member)).1
    have kept' : ∀ row ∈ rows, row.hash ∉ deletions events :=
      fun row member => (not_mem_deletions (kept row member)).2
    by_cases loses : Loses rows store event
    · refine iff_of_false ?_ (fun along => along.1 loses)
      intro all
      -- The file is gone after this step, and its number is not used again.
      cases event with
      | undo outcome =>
        obtain ⟨notRead, removed, row, member, undoing⟩ := loses
        have lost : Loses [row] store (.undo outcome) :=
          ⟨notRead, removed, row, .head _, undoing⟩
        obtain ⟨bytes, holds⟩ := held row member
        have absent := (listed_run sound' (free.2 next stepped) failLater later
          (mapped' member) (kept' row member)).2 ((steps row member).lost lost)
        exact absent (all row member bytes holds).present
      | _ => exact loses
    · have spares : ∀ row ∈ rows, ¬Loses [row] store event := by
        intro row member loses'
        cases event with
        | undo outcome =>
          obtain ⟨notRead, removed, found, isRow, undoing⟩ := loses'
          rw [mem_singleton.mp isRow] at undoing
          exact loses ⟨notRead, removed, row, member, undoing⟩
        | _ => exact loses'
      have held' : ∀ row ∈ rows, ∀ bytes, Holds store.directory row bytes →
          Holds next.directory row bytes :=
        fun row member bytes => (steps row member).held bytes (spares row member)
      have rest := induction sound' (free.2 next stepped) failLater later mapped' kept'
        (fun row member => by
          obtain ⟨bytes, holds⟩ := held row member
          exact ⟨bytes, held' row member bytes holds⟩)
      constructor
      · intro all
        refine ⟨loses, fun other taken => ?_⟩
        cases stepped.symm.trans taken
        apply rest.mp
        intro row member bytes holds
        obtain ⟨first, sooner⟩ := held row member
        have same : first = bytes :=
          (held' row member first sooner).reads.symm.trans holds.reads
        exact all row member bytes (same ▸ sooner)
      · intro along row member bytes holds
        exact rest.mpr (along.2 next stepped) row member bytes (held' row member bytes holds)

theorem lands_run (sound : Sound hashBlock store)
    (free : Along (step hashBlock limits segments) (NoCollision hashBlock) store events)
    (ran : run (step hashBlock limits segments) store events = some last)
    (lands : store.Lands) : last.Lands := by
  induction events generalizing store with
  | nil =>
    cases ran
    exact lands
  | cons event events induction =>
    obtain ⟨next, stepped, later⟩ := run_cons ran
    exact induction (sound.step free.1 stepped) (free.2 next stepped) later
      (lands.step sound stepped)

/-- A run of groups that fail loses nothing that was recorded, and the next group writes where the
index says, exactly when no undo removes the file of a recorded block because it could not read
the index. -/
theorem failed_groups_lose_nothing_iff (hashBlock : Bytes → RawHash) (limits : GroupCommitLimits)
    (segments : Nat) {before events : List Event} {store last : Store}
    (freeBefore : Along (step hashBlock limits segments) (NoCollision hashBlock) .fresh before)
    (reached : run (step hashBlock limits segments) .fresh before = some store)
    (free : Along (step hashBlock limits segments) (NoCollision hashBlock) store events)
    (fail : ∀ event ∈ events, Fails event)
    (ran : run (step hashBlock limits segments) store events = some last) :
    KeepsBlocks store last events ∧ LandsAtEnds last ↔ Along (step hashBlock limits segments)
        (fun state event => ¬Loses (spared store events) state event) store events := by
  have sound := sound_fresh.run freeBefore reached
  have soundLast := sound.run free ran
  have lands : LandsAtEnds last := {
    active := fun handle opened writer isActive =>
      ((soundLast.group handle opened).active writer isActive).1
    laidOut := lands_run sound free ran (lands_run sound_fresh freeBefore reached nofun) }
  have mapped : spared store events ⊆ store.index.blocks :=
    fun row member => (List.mem_filter.mp member).1
  have chosen : ∀ row ∈ spared store events, row.hash ∉ deletions events ∧
      row.segmentId ∈ store.directory.names ∧
      (readAt (store.directory.file row.segmentId).bytes row.recordOffset
        (recordLen row.payloadLen)).length = recordLen row.payloadLen :=
    fun row member => of_decide_eq_true (List.mem_filter.mp member).2
  have held := held_run_iff sound free fail ran mapped (fun row member => (chosen row member).1)
    fun row member => ⟨_, (chosen row member).2.1, rfl, (chosen row member).2.2⟩
  rw [← held]
  constructor
  · intro keeps row member
    exact (keeps.1 row (mapped member) (chosen row member).1).2
  · intro all
    refine ⟨?_, lands⟩
    intro row isMapped kept
    refine ⟨(listed_run sound free fail ran isMapped kept).1, fun bytes holds => ?_⟩
    refine all row (List.mem_filter.mpr ⟨isMapped, decide_eq_true ⟨kept, holds.present, ?_⟩⟩) bytes
      holds
    rw [holds.reads]
    exact holds.whole

/-! ## A group that is undone -/

def hashOfByte (block : Bytes) : RawHash :=
  if block = [1] then
    ⟨[0x4b, 0xf5, 0x12, 0x2f, 0x34, 0x45, 0x54, 0xc5, 0x3b, 0xde, 0x2e, 0xbb, 0x8c, 0xd2, 0xb7,
      0xe3, 0xd1, 0x60, 0x0a, 0xd6, 0x31, 0xc3, 0x85, 0xa5, 0xd7, 0xcc, 0xe2, 0x3c, 0x77, 0x85,
      0x45, 0x9a], rfl⟩
  else
    ⟨[0xdb, 0xc1, 0xb4, 0xc9, 0x00, 0xff, 0xe4, 0x8d, 0x57, 0x5b, 0x5d, 0xa5, 0xc6, 0x38, 0x04,
      0x01, 0x25, 0xf6, 0x5d, 0xb0, 0xfe, 0x3e, 0x24, 0x49, 0x4b, 0x76, 0xea, 0x98, 0x64, 0x57,
      0xd9, 0x86], rfl⟩

def defaultLimits : GroupCommitLimits := { segmentTargetBytes := 1024 * 1024 * 1024 }

def recordedPut : List Event :=
  [.recover (fun _ => true) (fun _ => true), .put [[1]] 0, .layOut (.created true), .advance,
    .append [[53]], .advance, .sync true, .advance, .record true, .finish]

def unsyncedPut (lookedUp : Bool) : List Event :=
  [.put [[2]] 1, .layOut .failed, .advance, .append [[53]], .advance, .sync false,
    .undo { lookedUp := lookedUp, truncation := .truncated, sealedRow := true, removed := true },
    .finish]

def storeOfOne : Store :=
  (run (step hashOfByte defaultLimits maxWriteSegments) .fresh recordedPut).get (by decide)

def storeAfterUndo (lookedUp : Bool) : Store :=
  (run (step hashOfByte defaultLimits maxWriteSegments) storeOfOne (unsyncedPut lookedUp)).get (by
    cases lookedUp <;> decide)

theorem run_recordedPut :
    run (step hashOfByte defaultLimits maxWriteSegments) .fresh recordedPut = some storeOfOne :=
  (some_get _).symm

theorem run_unsyncedPut (lookedUp : Bool) :
    run (step hashOfByte defaultLimits maxWriteSegments) storeOfOne (unsyncedPut lookedUp) =
      some (storeAfterUndo lookedUp) :=
  (some_get _).symm

/-- With the index read, the first block keeps its record. -/
theorem failed_groups_lose_nothing_iff_unsynced :
    KeepsBlocks storeOfOne (storeAfterUndo true) (unsyncedPut true) ∧
      LandsAtEnds (storeAfterUndo true) :=
  (failed_groups_lose_nothing_iff hashOfByte defaultLimits maxWriteSegments (by decide)
    run_recordedPut (by decide) (by decide) (run_unsyncedPut true)).mpr
    (by decide)

/-- With the index read failing, the file of the first block is removed. -/
theorem undo_without_index_removes_file :
    ¬∀ (hashBlock : Bytes → RawHash) (limits : GroupCommitLimits) (segments : Nat)
        (before events : List Event) (store last : Store),
      Along (step hashBlock limits segments) (NoCollision hashBlock) .fresh before →
      run (step hashBlock limits segments) .fresh before = some store →
      Along (step hashBlock limits segments) (NoCollision hashBlock) store events →
      (∀ event ∈ events, Fails event) →
      run (step hashBlock limits segments) store events = some last →
      KeepsBlocks store last events ∧ LandsAtEnds last := by
  intro always
  have keeps := (always hashOfByte defaultLimits maxWriteSegments recordedPut (unsyncedPut false)
    storeOfOne (storeAfterUndo false) (by decide) run_recordedPut (by decide)
    (by decide) (run_unsyncedPut false)).1
  have mapped : (⟨hashOfByte [1], 1, 16, 1, 53, 0⟩ : BlockRow) ∈ storeOfOne.index.blocks := by
    decide
  have holds := (keeps _ mapped (by decide)).2 _ ⟨by decide, rfl, by decide⟩
  have gone : 1 ∉ (storeAfterUndo false).directory.names := by decide
  exact gone holds.present

end Yadorilink.Segments
