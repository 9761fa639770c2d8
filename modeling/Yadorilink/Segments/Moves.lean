import Yadorilink.Segments.Invariants

/-! What one step of an open store can do, by who takes it: the group that leads, a compaction,
a reclamation, or a call of its own. -/

namespace Yadorilink.Segments

open List

variable {hashBlock : Bytes → RawHash} {limits : GroupCommitLimits} {segments : Nat}
  {store next : Store} {handle : Handle} {leader : Leader} {event : Event}

/-! ## Groups -/

/-- A step of the group that leads. -/
inductive GroupMove (limits : GroupCommitLimits) (segments : Nat) (group : GroupState)
    (leader : Leader) : Event → GroupState → Prop where
  | layOut {frame rest batches sealed outcome after}
      (phase : leader.phase = .layOut (frame :: rest) batches sealed)
      (made : group.layOut limits leader frame rest batches sealed outcome = some after) :
      GroupMove limits segments group leader (.layOut outcome) after
  | laidOut {batches sealed} (phase : leader.phase = .layOut [] batches sealed) :
      GroupMove limits segments group leader .advance
        { group with leader := some { leader with phase := .append [] batches sealed } }
  | appended {done sealed} (phase : leader.phase = .append done [] sealed) :
      GroupMove limits segments group leader .advance
        { group with leader := some { leader with phase := .sync [] done sealed } }
  | synced {done sealed} (phase : leader.phase = .sync done [] sealed) :
      GroupMove limits segments group leader .advance
        { group with leader := some { leader with phase := .record done sealed } }
  | append {done batch rest sealed results after}
      (phase : leader.phase = .append done (batch :: rest) sealed)
      (made : group.append segments leader done batch rest sealed results = some after) :
      GroupMove limits segments group leader (.append results) after
  | sync {done batch rest sealed synced}
      (phase : leader.phase = .sync done (batch :: rest) sealed) :
      GroupMove limits segments group leader (.sync synced)
        (group.sync leader done batch rest sealed synced)
  | record {batches sealed committed} (phase : leader.phase = .record batches sealed) :
      GroupMove limits segments group leader (.record committed)
        (group.record leader batches sealed committed)
  | undo {batch rest survivor outcome}
      (phase : leader.phase = .undo (batch :: rest) survivor) :
      GroupMove limits segments group leader (.undo outcome)
        (group.rollBackOne leader batch rest survivor outcome)

/-- What whoever leads makes of the store. -/
inductive LeaderMove (limits : GroupCommitLimits) (segments : Nat) (store : Store)
    (handle : Handle) (leader : Leader) (event : Event) : Store → Prop where
  | moved {group} (move : GroupMove limits segments (store.group handle) leader event group) :
      LeaderMove limits segments store handle leader event (store.withGroup handle group)
  | broken {group} (move : GroupMove limits segments (store.group handle) leader event group) :
      LeaderMove limits segments store handle leader event
        (store.withGroup (handle.relocated leader.kind .ended) group)
  | undone {survivor} (finishes : event = .finish) (phase : leader.phase = .undo [] survivor) :
      LeaderMove limits segments store handle leader event
        { store with handle := some { handle.relocated leader.kind .ended with
            leader := none, writer := { handle.writer with active := survivor } } }
  | answered {owed} (finishes : event = .finish) (phase : leader.phase = .answer)
      (owes : ∀ hash ∈ owed,
        hash ∈ store.owed ∨ leader.kind = .ingest ∧ hash ∈ leader.answered) :
      LeaderMove limits segments store handle leader event
        { store with
          handle := some { handle.relocated leader.kind .turn with leader := none }
          owed := owed }

theorem LeaderMove.of_step
    (stepped : stepLeader limits segments store handle leader event = some next) :
    LeaderMove limits segments store handle leader event next := by
  cases event with
  | layOut outcome =>
    rw [stepLeader] at stepped
    split at stepped
    · rename_i frame rest batches sealed phase
      obtain ⟨group, made, rfl⟩ := Option.map_eq_some_iff.mp stepped
      have move : GroupMove limits segments (store.group handle) leader (.layOut outcome) group :=
        .layOut phase made
      split
      · exact .broken move
      · exact .moved move
    · cases stepped
  | advance =>
    rw [stepLeader] at stepped
    dsimp only at stepped
    split at stepped
    · rename_i phase
      cases stepped
      exact .moved (.laidOut phase)
    · rename_i phase
      cases stepped
      exact .moved (.appended phase)
    · rename_i phase
      cases stepped
      exact .moved (.synced phase)
    · cases stepped
  | append results =>
    rw [stepLeader] at stepped
    split at stepped
    · rename_i phase
      obtain ⟨group, made, rfl⟩ := Option.map_eq_some_iff.mp stepped
      exact .moved (.append phase made)
    · cases stepped
  | sync synced =>
    rw [stepLeader] at stepped
    split at stepped
    · rename_i phase
      cases stepped
      exact .moved (.sync phase)
    · cases stepped
  | record committed =>
    rw [stepLeader] at stepped
    split at stepped
    · rename_i phase
      cases stepped
      exact .moved (.record phase)
    · cases stepped
  | undo outcome =>
    rw [stepLeader] at stepped
    split at stepped
    · rename_i phase
      cases stepped
      exact .moved (.undo phase)
    · cases stepped
  | finish =>
    rw [stepLeader] at stepped
    split at stepped
    · rename_i phase
      cases stepped
      exact .undone rfl phase
    · rename_i phase
      cases stepped
      refine .answered rfl phase ?_
      intro hash listed
      split at listed
      · rename_i kind
        exact (mem_append.mp listed).imp_right fun answered => ⟨kind, answered⟩
      · exact .inl listed
    · cases stepped
  | _ => cases stepped

/-! ## Compactions -/

/-- The block a compaction found unreadable where it looked, with the place. -/
def CompactionStage.suspecting : CompactionStage → Option (RawHash × BlockLocation)
  | .page (row :: _) (.suspect location _) _ => some (row.hash, location)
  | _ => none

/-- What a step of a compaction makes of the index and of its own stage. -/
inductive CompactionMove (hashBlock : Bytes → RawHash) (store : Store) (compaction : Compaction) :
    BlockIndex → CompactionStage → Prop where
  | quiet {stage} (fewer : stage.copies ⊆ compaction.stage.copies)
      (reading : stage.looking = none) (trusting : stage.suspecting = none) :
      CompactionMove hashBlock store compaction store.index stage
  | resolved {row rest tries copies location}
      (stage : compaction.stage = .page (row :: rest) (.unresolved (tries + 1)) copies)
      (found : store.index.lookup row.hash = some location) :
      CompactionMove hashBlock store compaction store.index
        (.page (row :: rest) (.located location tries) copies)
  | copied {row rest location tries copies payload stage}
      (before : compaction.stage = .page (row :: rest) (.located location tries) copies)
      (read : readRecordPayload (store.directory.file location.segmentId).bytes location row.hash =
        .ok payload)
      (verified : hashBlock payload = row.hash)
      (more : stage.copies = copies ++ [⟨row.hash, payload⟩])
      (reading : stage.looking = none) (trusting : stage.suspecting = none) :
      CompactionMove hashBlock store compaction store.index stage
  | suspected {row rest location tries copies}
      (before : compaction.stage = .page (row :: rest) (.located location tries) copies)
      (lost : location.segmentId ∉ store.directory.names ∨ ∃ error,
        readRecordPayload (store.directory.file location.segmentId).bytes location row.hash =
          .error error) :
      CompactionMove hashBlock store compaction store.index
        (.page (row :: rest) (.suspect location tries) copies)
  | corrupt {row rest location tries copies payload}
      (before : compaction.stage = .page (row :: rest) (.located location tries) copies)
      (read : readRecordPayload (store.directory.file location.segmentId).bytes location row.hash =
        .ok payload)
      (differs : hashBlock payload ≠ row.hash) :
      CompactionMove hashBlock store compaction (store.index.removeBlocks [row.hash, row.hash])
        (.page rest (.unresolved readTries) copies)
  | dropped {row rest location tries copies}
      (before : compaction.stage = .page (row :: rest) (.suspect location tries) copies)
      (still : store.index.lookup row.hash = some location) :
      CompactionMove hashBlock store compaction (store.index.removeBlocks [row.hash, row.hash])
        (.page rest (.unresolved readTries) copies)
  | retired :
      CompactionMove hashBlock store compaction
        (store.index.retireEmptySegment compaction.source) .ended

variable {compaction : Compaction} {number : Nat}

def CompactionMoves (hashBlock : Bytes → RawHash) (store : Store) (handle : Handle) (number : Nat)
    (compaction : Compaction) (next : Store) : Prop :=
  ∃ index changed, CompactionMove hashBlock store compaction index changed.stage ∧
    next = { store with index := index, handle := some (handle.setCompaction number changed) }

theorem CompactionMove.moves {index : BlockIndex} {stage : CompactionStage}
    (move : CompactionMove hashBlock store compaction index stage)
    (found : handle.compactions[number]? = some compaction)
    (same : next = { store with index := index, handle := some (handle.setStage number stage) }) :
    CompactionMoves hashBlock store handle number compaction next := by
  refine ⟨index, { compaction with stage := stage }, move, ?_⟩
  rw [same, Handle.setStage, found]

theorem CompactionMoves.of_step (found : handle.compactions[number]? = some compaction)
    (stepped : stepCompaction hashBlock store handle number compaction event = some next) :
    CompactionMoves hashBlock store handle number compaction next := by
  cases event with
  | page other =>
    rw [stepCompaction] at stepped
    split at stepped
    · dsimp only at stepped
      split at stepped
      · cases stepped
        exact CompactionMove.moves (.quiet (nil_subset _) rfl rfl) found rfl
      · cases stepped
        refine ⟨_, _, .quiet (nil_subset _) ?_ ?_, rfl⟩
        · cases store.index.liveBlocksInSegment _ _ _ <;> rfl
        · cases store.index.liveBlocksInSegment _ _ _ <;> rfl
    · cases stepped
      exact CompactionMove.moves (.quiet (nil_subset _) rfl rfl) found rfl
    · cases stepped
  | resolve other =>
    rw [stepCompaction] at stepped
    split at stepped
    · rename_i row rest tries copies stage
      have skips : CompactionMove hashBlock store compaction store.index
          (.page rest (.unresolved readTries) copies) := by
        refine .quiet ?_ ?_ ?_
        · rw [stage]
          exact List.Subset.refl _
        · cases rest <;> rfl
        · cases rest <;> rfl
      split at stepped
      · rename_i found'
        cases stepped
        exact CompactionMove.moves (.resolved stage found') found rfl
      · cases stepped
        exact skips.moves found rfl
    · cases stepped
  | readBlock other cached =>
    rw [stepCompaction] at stepped
    split at stepped
    · rename_i row rest location tries copies stage
      dsimp only at stepped
      split at stepped
      · split at stepped
        · rename_i payload read
          split at stepped
          · rename_i verified
            split at stepped
            · cases stepped
              exact ⟨_, _, .copied stage read verified rfl rfl rfl, rfl⟩
            · cases stepped
              refine CompactionMove.moves (.copied stage read verified rfl ?_ ?_) found rfl
              · cases rest <;> rfl
              · cases rest <;> rfl
          · rename_i differs
            cases stepped
            exact CompactionMove.moves (.corrupt stage read differs) found rfl
        · rename_i error failed
          cases stepped
          exact CompactionMove.moves (.suspected stage (.inr ⟨error, failed⟩)) found rfl
      · rename_i absent
        cases stepped
        refine CompactionMove.moves (.suspected stage (.inl ?_)) found rfl
        exact fun present => absent (.inl present)
    · cases stepped
  | recheck other =>
    rw [stepCompaction] at stepped
    split at stepped
    · rename_i row rest location tries copies stage
      split at stepped
      · rename_i still
        cases stepped
        exact CompactionMove.moves (.dropped stage still) found rfl
      · cases stepped
        refine CompactionMove.moves (.quiet ?_ rfl rfl) found rfl
        rw [stage]
        exact List.Subset.refl _
    · cases stepped
  | retire other committed =>
    rw [stepCompaction] at stepped
    split at stepped
    · cases stepped
      split
      · exact CompactionMove.moves .retired found rfl
      · exact CompactionMove.moves (.quiet (nil_subset _) rfl rfl) found rfl
    · cases stepped
  | abandonCompaction other =>
    rw [stepCompaction] at stepped
    split at stepped
    · cases stepped
    · cases stepped
      exact CompactionMove.moves (.quiet (nil_subset _) rfl rfl) found rfl
  | _ => cases stepped

/-! ## Reclamations -/

/-- What a step of a reclamation makes of the index, the directory and what is left to do. -/
inductive ReclaimMove (store : Store) (reclaim : Reclaim) :
    BlockIndex → Directory → List Nat → Prop where
  | passed {rest} (fewer : rest ⊆ reclaim.rest) :
      ReclaimMove store reclaim store.index store.directory rest
  | unlinked {segmentId} (listed : segmentId ∈ reclaim.rest) :
      ReclaimMove store reclaim store.index (store.directory.removePath segmentId) reclaim.rest
  | forgotten {segmentId rest} (listed : segmentId ∈ reclaim.rest) (fewer : rest ⊆ reclaim.rest) :
      ReclaimMove store reclaim (store.index.forgetSegment segmentId) store.directory rest
  | synced : ReclaimMove store reclaim store.index store.directory.sync reclaim.rest

theorem ReclaimMove.of_step {reclaim : Reclaim}
    (stepped : stepReclaim store handle number reclaim event = some next) :
    ∃ index directory changed, ReclaimMove store reclaim index directory changed.rest ∧
      next = { store with
        index := index, directory := directory
        handle := some (handle.setReclaim number changed) } := by
  cases event with
  | unlink other removed =>
    rw [stepReclaim] at stepped
    split at stepped
    · rename_i segmentId rest pending _
      split at stepped
      · cases stepped
        exact ⟨_, _, { reclaim with unlinked := true }, .passed (List.Subset.refl _), rfl⟩
      · split at stepped
        · cases stepped
          refine ⟨_, _, { reclaim with unlinked := true }, .unlinked ?_, rfl⟩
          rw [pending]
          exact .head _
        · cases stepped
          refine ⟨_, _, _, .passed ?_, rfl⟩
          rw [pending]
          exact subset_cons_self ..
    · cases stepped
  | forget other committed =>
    rw [stepReclaim] at stepped
    split at stepped
    · rename_i segmentId rest pending _
      split at stepped
      · cases stepped
        refine ⟨_, _, _, .forgotten ?_ ?_, rfl⟩
        · rw [pending]
          exact .head _
        · rw [pending]
          exact subset_cons_self ..
      · cases stepped
        exact ⟨_, _, _, .passed (nil_subset _), rfl⟩
    · cases stepped
  | syncReclaim other =>
    rw [stepReclaim] at stepped
    split at stepped
    · cases stepped
      exact ⟨_, _, { reclaim with removed := 0 }, .synced, rfl⟩
    · cases stepped
  | _ => cases stepped

/-! ## The store -/

/-- Steps of compactions and reclamations under way. -/
def Event.ofTask : Event → Bool
  | .page _ | .resolve _ | .readBlock _ _ | .recheck _ | .retire _ _ | .abandonCompaction _
  | .unlink _ _ | .forget _ _ | .syncReclaim _ => true
  | _ => false

/-- What a step makes of an open store. -/
inductive OpenMove (hashBlock : Bytes → RawHash) (limits : GroupCommitLimits) (segments : Nat)
    (store : Store) (handle : Handle) : Event → Store → Prop where
  | led {leader : Leader} {event : Event} {next : Store} (leads : handle.leader = some leader)
      (move : LeaderMove limits segments store handle leader event next) :
      OpenMove hashBlock limits segments store handle event next
  | put {blocks addedAt} (unled : handle.leader = none) :
      OpenMove hashBlock limits segments store handle (.put blocks addedAt)
        { store with
          handle := some { handle with
            leader := some (beginPut hashBlock store.index blocks addedAt) }
          submitted := store.submitted ++ blocks }
  | sealActive {active committed} (unled : handle.leader = none)
      (isActive : handle.writer.active = some active) :
      OpenMove hashBlock limits segments store handle (.sealActive committed)
        { store with
          index :=
            if committed then store.index.setSegmentState active.segmentId .sealed
            else store.index
          handle := some { handle with writer := { handle.writer with active := none } } }
  | relocate {number : Nat} {addedAt : Int} {compaction : Compaction} {copies} (unled : handle.leader = none)
      (found : handle.compactions[number]? = some compaction)
      (holds : compaction.stage.copies = copies) :
      OpenMove hashBlock limits segments store handle (.relocate number addedAt)
        { store with handle := some { handle.setStage number .relocating with
          leader := some
            { kind := .relocation number [compaction.source], addedAt := addedAt, answered := []
              phase := .layOut copies [] [] } } }
  | remove {hashes} :
      OpenMove hashBlock limits segments store handle (.remove hashes)
        { store with
          index := store.index.removeBlocks hashes
          owed := store.owed.filter fun hash => hash ∉ hashes
          handle := some { handle with leader := handle.leader.map fun leader =>
            { leader with answered := leader.answered.filter fun hash => hash ∉ hashes } } }
  | compact {segmentId row} (found : store.index.segment segmentId = some row)
      (closed : row.state ≠ .active) :
      OpenMove hashBlock limits segments store handle (.compact segmentId)
        { store with handle := some { handle with
          compactions := handle.compactions ++
            [{ source := segmentId, cursor := none, stage := .turn }] } }
  | reclaim :
      OpenMove hashBlock limits segments store handle .reclaim
        { store with handle := some { handle with
          reclaims := handle.reclaims ++
            [{ rest := (store.index.segments.filter fun row => row.state = .retired).map
                 SegmentRow.segmentId
               unlinked := false, removed := 0 }] } }
  | compacted {number : Nat} {compaction : Compaction} {event : Event} {next : Store}
      (task : event.ofTask = true)
      (found : handle.compactions[number]? = some compaction)
      (moves : CompactionMoves hashBlock store handle number compaction next) :
      OpenMove hashBlock limits segments store handle event next
  | reclaimed {number : Nat} {reclaim changed index directory} {event : Event}
      (task : event.ofTask = true)
      (found : handle.reclaims[number]? = some reclaim)
      (move : ReclaimMove store reclaim index directory changed.rest) :
      OpenMove hashBlock limits segments store handle event
        { store with
          index := index, directory := directory
          handle := some (handle.setReclaim number changed) }

theorem OpenMove.of_unled (unled : handle.leader = none)
    (stepped : stepUnled hashBlock store handle event = some next) :
    OpenMove hashBlock limits segments store handle event next := by
  cases event with
  | put blocks addedAt =>
    cases stepped
    exact .put unled
  | sealActive committed =>
    obtain ⟨active, isActive, rfl⟩ := Option.map_eq_some_iff.mp stepped
    exact .sealActive unled isActive
  | relocate number addedAt =>
    rw [stepUnled] at stepped
    split at stepped
    · rename_i found
      cases stepped
      exact .relocate unled found rfl
    · rename_i found
      cases stepped
      exact .relocate unled found rfl
    · cases stepped
  | _ => cases stepped

theorem OpenMove.of_step
    (stepped : stepOpen hashBlock limits segments store handle event = some next) :
    OpenMove hashBlock limits segments store handle event next := by
  cases event with
  | remove hashes =>
    cases stepped
    exact .remove
  | compact segmentId =>
    rw [stepOpen] at stepped
    split at stepped
    · rename_i found
      split at stepped
      · cases stepped
      · rename_i closed
        cases stepped
        exact .compact found closed
    · cases stepped
  | reclaim =>
    cases stepped
    exact .reclaim
  | page number | resolve number | readBlock number _ | recheck number | retire number _
  | abandonCompaction number =>
    cases found : handle.compactions[number]? with
    | none =>
      rw [stepOpen, found] at stepped
      cases stepped
    | some compaction =>
      rw [stepOpen, found] at stepped
      exact .compacted rfl found (.of_step found stepped)
  | unlink number _ | forget number _ | syncReclaim number =>
    cases found : handle.reclaims[number]? with
    | none =>
      rw [stepOpen, found] at stepped
      cases stepped
    | some pending =>
      rw [stepOpen, found] at stepped
      rcases ReclaimMove.of_step stepped with ⟨index, directory, changed, move, rfl⟩
      exact .reclaimed rfl found move
  | _ =>
    cases leads : handle.leader with
    | none =>
      simp only [stepOpen, leads] at stepped
      exact .of_unled leads stepped
    | some leader =>
      simp only [stepOpen, leads] at stepped
      exact .led leads (.of_step stepped)

/-- What a step makes of the store. -/
inductive StoreMove (hashBlock : Bytes → RawHash) (limits : GroupCommitLimits) (segments : Nat)
    (store : Store) : Event → Store → Prop where
  | taken {handle : Handle} {event : Event} {next : Store} (opened : store.handle = some handle)
      (move : OpenMove hashBlock limits segments store handle event next) :
      StoreMove hashBlock limits segments store event next
  | crashed {found stagedFound} (survives : Survives store.directory found stagedFound) :
      StoreMove hashBlock limits segments store (.crash found stagedFound)
        { store with directory := .afterCrash found stagedFound, handle := none }
  | recovered {removable stageRemovable} (closed : store.handle = none) :
      StoreMove hashBlock limits segments store (.recover removable stageRemovable)
        { store with
          index := (recover removable stageRemovable store.index store.directory).1.index
          directory := (recover removable stageRemovable store.index store.directory).1.directory
          handle := some
            { writer :=
                { active := none
                  nextSegmentId :=
                    (recover removable stageRemovable store.index store.directory).2 }
              leader := none, compactions := [], reclaims := [] } }

theorem StoreMove.of_step
    (stepped : Segments.step hashBlock limits segments store event = some next) :
    StoreMove hashBlock limits segments store event next := by
  cases event with
  | crash found stagedFound =>
    rw [Segments.step] at stepped
    split at stepped
    · rename_i survives
      cases stepped
      exact .crashed survives
    · cases stepped
  | recover removable stageRemovable =>
    rw [Segments.step] at stepped
    split at stepped
    · cases stepped
    · rename_i closed
      cases stepped
      exact .recovered closed
  | _ =>
    cases opened : store.handle with
    | none =>
      simp only [Segments.step, opened] at stepped
      cases stepped
    | some handle =>
      simp only [Segments.step, opened] at stepped
      exact .taken opened (.of_step stepped)

end Yadorilink.Segments
