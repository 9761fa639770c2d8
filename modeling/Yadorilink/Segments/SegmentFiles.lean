import Yadorilink.Segments.Appends
import Yadorilink.Segments.Reachable

/-! What the steps of a store leave of a segment file: all below the segment's durable end, unless
an undo removes the file of a segment it could not look up. -/

namespace Yadorilink.Segments

open FileBytes List GroupState

variable {hashBlock : Bytes → RawHash} {limits : GroupCommitLimits} {segments : Nat}
  {submitted : List Bytes} {group after : GroupState} {leader : Leader} {event : Event}
  {directory : Directory} {segmentId other stop : Nat}

/-- The file stays, with its first `stop` bytes and what of them was on disk. -/
structure KeepsFile (before after : Directory) (segmentId stop : Nat) : Prop where
  present : segmentId ∈ before.names → segmentId ∈ after.names
  published : segmentId ∈ after.unpublished → segmentId ∈ before.unpublished
  linked : segmentId ∈ after.unlinked → segmentId ∈ before.unlinked
  bytes : stop ≤ (before.file segmentId).bytes.length →
    (after.file segmentId).bytes.take stop = (before.file segmentId).bytes.take stop
  synced : stop ≤ (before.file segmentId).bytes.length → stop ≤ (before.file segmentId).synced →
    stop ≤ (after.file segmentId).synced

/-! ## Calls -/

theorem KeepsFile.of_same {later : Directory} (names : segmentId ∈ directory.names →
      segmentId ∈ later.names) (unpublished : segmentId ∈ later.unpublished →
      segmentId ∈ directory.unpublished)
    (unlinked : segmentId ∈ later.unlinked → segmentId ∈ directory.unlinked)
    (file : later.file segmentId = directory.file segmentId) :
    KeepsFile directory later segmentId stop where
  present := names
  published := unpublished
  linked := unlinked
  bytes := fun _ => file ▸ rfl
  synced := fun _ onDisk => file ▸ onDisk

theorem KeepsFile.refl (directory : Directory) (segmentId stop : Nat) :
    KeepsFile directory directory segmentId stop :=
  .of_same id id id rfl

theorem KeepsFile.trans {first second third : Directory}
    (one : KeepsFile first second segmentId stop) (two : KeepsFile second third segmentId stop) :
    KeepsFile first third segmentId stop where
  present := fun there => two.present (one.present there)
  published := fun there => one.published (two.published there)
  linked := fun there => one.linked (two.linked there)
  bytes := fun long =>
    (two.bytes (length_le_of_take (one.bytes long) long)).trans (one.bytes long)
  synced := fun long onDisk =>
    two.synced (length_le_of_take (one.bytes long) long) (one.synced long onDisk)

theorem keepsFile_setFile {file : SegmentFile}
    (bytes : other = segmentId → stop ≤ (directory.file segmentId).bytes.length →
      file.bytes.take stop = (directory.file segmentId).bytes.take stop)
    (synced : other = segmentId → stop ≤ (directory.file segmentId).bytes.length →
      stop ≤ (directory.file segmentId).synced → stop ≤ file.synced) :
    KeepsFile directory (directory.setFile other file) segmentId stop := by
  refine ⟨id, id, id, ?_, ?_⟩
  · intro long
    rw [Directory.setFile]
    dsimp only
    split
    · rename_i same
      exact bytes same.symm long
    · rfl
  · intro long onDisk
    rw [Directory.setFile]
    dsimp only
    split
    · rename_i same
      exact synced same.symm long onDisk
    · exact onDisk

theorem keepsFile_write {offset : Nat} {bytes : Bytes}
    (kept : other = segmentId → stop ≤ offset ∧ (stop ≤ (directory.file segmentId).bytes.length →
      bytes.take stop = (directory.file segmentId).bytes.take stop)) :
    KeepsFile directory (directory.write other offset bytes) segmentId stop := by
  apply keepsFile_setFile
  · exact fun same => (kept same).2
  · intro same _ onDisk
    rw [same]
    exact Nat.le_min.mpr ⟨onDisk, (kept same).1⟩

theorem keepsFile_syncFile : KeepsFile directory (directory.syncFile other) segmentId stop := by
  apply keepsFile_setFile
  · intro same _
    rw [same]
  · intro same long _
    rw [same]
    exact long

theorem keepsFile_setLen {len : Nat} (before : other = segmentId → stop ≤ len) :
    KeepsFile directory (directory.setLen other len) segmentId stop := by
  apply keepsFile_setFile
  · intro same long
    rw [same]
    exact take_upTo (before same) long
  · intro same _ onDisk
    rw [same]
    exact Nat.le_min.mpr ⟨onDisk, before same⟩

theorem keepsFile_truncate {len : Nat} (before : other = segmentId → stop ≤ len)
    (outcome : TruncateOutcome) :
    KeepsFile directory (directory.truncate other len outcome) segmentId stop := by
  cases outcome with
  | setLenFailed => exact .refl directory segmentId stop
  | syncFailed => exact keepsFile_setLen before
  | truncated => exact (keepsFile_setLen before).trans keepsFile_syncFile

theorem keepsFile_removePath (apart : other ≠ segmentId) :
    KeepsFile directory (directory.removePath other) segmentId stop :=
  .of_same (fun there => mem_filter.mpr ⟨there, decide_eq_true (Ne.symm apart)⟩) id
    (fun there => (mem_append.mp there).resolve_right
      fun last => apart (mem_singleton.mp last).symm) rfl

theorem keepsFile_createSegment {created : Directory} {outcome : CreateOutcome}
    (apart : other ≠ segmentId) (made : directory.createSegment other outcome = some created) :
    KeepsFile directory created segmentId stop := by
  cases outcome with
  | failed =>
    cases made
    exact .refl directory segmentId stop
  | leftStaged =>
    rw [Directory.createSegment] at made
    split at made
    · cases made
    · cases made
      exact .of_same id id id rfl
  | leftUnpublished header =>
    rw [Directory.createSegment] at made
    split at made
    · cases made
    · cases made
      refine .of_same (mem_append_left _) ?_ id (if_neg (Ne.symm apart))
      intro listed
      rcases mem_append.mp listed with old | new
      · exact old
      · exact absurd (mem_singleton.mp new).symm apart
  | created viaStage =>
    rw [Directory.createSegment] at made
    split at made
    · cases made
    · cases made
      exact .of_same (mem_append_left _) (fun listed => (mem_filter.mp listed).1)
        (fun listed => (mem_filter.mp listed).1) (if_neg (Ne.symm apart))

/-! ## Groups -/

def Leader.undoing (leader : Leader) : Option Nat :=
  match leader.phase with
  | .undo (batch :: _) _ => some batch.segmentId
  | _ => none

/-- The file of the segment is removed by an undo whose index read failed. -/
def Leader.Erases (leader : Leader) (segmentId : Nat) : Event → Prop
  | .undo outcome =>
    outcome.lookedUp = false ∧ outcome.removed = true ∧ leader.undoing = some segmentId
  | _ => False

theorem Opened.stop_le {index : BlockIndex} {number : Nat} {batches : List OpenBatch}
    {batch : OpenBatch} {state : SegmentState} (opened : Opened index number batches)
    (coherent : Coherent index) (member : batch ∈ batches)
    (row : index.Row batch.segmentId state stop) :
    batch.created = false ∧ state = .active ∧ stop ≤ batch.writer.writeEnd := by
  obtain ⟨base, opens, _, behind⟩ := opened.bases batch member
  rw [OpenBatch.From] at opens
  split at opens
  · exact absurd row (opens.2 state stop)
  · rename_i continued
    rcases coherent.row_unique row opens with ⟨active, ends⟩
    exact ⟨Bool.eq_false_iff.mpr continued, active, ends ▸ behind⟩

/-- What a move of a group does to the files. -/
inductive FileMove (segments : Nat) (group : GroupState) (leader : Leader) :
    Event → Directory → Prop where
  | kept {event : Event} : FileMove segments group leader event group.directory
  | created {outcome} {directory : Directory}
      (made : group.directory.createSegment group.writer.nextSegmentId outcome = some directory) :
      FileMove segments group leader (.layOut outcome) directory
  | wrote {done batch rest sealed results}
      (phase : leader.phase = .append done (batch :: rest) sealed) :
      FileMove segments group leader (.append results)
        (group.directory.write batch.segmentId batch.writer.writeEnd
          (appendChunks segments (group.directory.file batch.segmentId).bytes
            batch.writer.writeEnd (chunkPieces [] 0 batch.frames) results).2)
  | synced {number synced} :
      FileMove segments group leader (.sync synced) (group.directory.syncFile number)
  | cut {batch rest survivor outcome durableEnd}
      (phase : leader.phase = .undo (batch :: rest) survivor)
      (recorded : recordedEnd group.index batch.segmentId outcome = some durableEnd) :
      FileMove segments group leader (.undo outcome)
        (group.directory.truncate batch.segmentId durableEnd outcome.truncation)
  | removed {batch rest survivor outcome}
      (phase : leader.phase = .undo (batch :: rest) survivor)
      (unrecorded : recordedEnd group.index batch.segmentId outcome = none)
      (removed : outcome.removed = true) :
      FileMove segments group leader (.undo outcome) (group.directory.removePath batch.segmentId)

theorem FileMove.of_move (move : GroupMove limits segments group leader event after) :
    FileMove segments group leader event after.directory := by
  cases move with
  | layOut phase made =>
    unfold layOut at made
    dsimp only at made
    split at made
    · split at made
      · cases made
        exact .kept
      · split at made
        · cases made
        · rename_i created making
          cases made
          exact .created making
    · cases made
      exact .kept
  | laidOut | appended | synced => exact .kept
  | append phase made =>
    rw [append] at made
    split at made
    · cases made
      exact .wrote phase
    · cases made
  | sync =>
    rw [sync]
    split
    · exact .synced
    · exact .kept
  | record =>
    rw [record]
    split <;> exact .kept
  | undo phase =>
    rw [rollBackOne]
    dsimp only
    split
    · rename_i recorded
      split <;> exact .cut phase recorded
    · rename_i unrecorded
      split
      · rename_i removed
        exact .removed phase unrecorded removed
      · exact .kept

theorem KeepsFile.move {state : SegmentState} {durableEnd : Nat} (index : IndexSound hashBlock submitted group.index)
    (sound : GroupSound hashBlock submitted group) (leads : group.leader = some leader)
    (move : GroupMove limits segments group leader event after)
    (row : group.index.Row segmentId state durableEnd) (before : stop ≤ durableEnd)
    (spares : ¬leader.Erases segmentId event) :
    KeepsFile group.directory after.directory segmentId stop := by
  have opened := sound.opened
  rw [batches_of leads] at opened
  have recordedAt : ∀ outcome, recordedEnd group.index segmentId outcome =
      if outcome.lookedUp then some durableEnd else none := by
    intro outcome
    rw [recordedEnd, index.coherent.segment_of_row row]
  generalize after.directory = directory, FileMove.of_move move = files
  cases files with
  | kept => exact .refl group.directory segmentId stop
  | created made => exact keepsFile_createSegment (Nat.ne_of_gt (sound.rows _ _ _ row)) made
  | @wrote done batch rest _ _ phase =>
    rw [phase] at opened
    have member : batch ∈ done ++ batch :: rest :=
      mem_append_right _ (.head _)
    apply keepsFile_write
    intro same
    rcases opened.stop_le index.coherent member (same.symm ▸ row) with ⟨_, _, behind⟩
    refine ⟨Nat.le_trans before behind, fun long => ?_⟩
    subst same
    exact take_appendChunks (Nat.le_trans before behind) long
  | synced => exact keepsFile_syncFile
  | cut phase recorded =>
    apply keepsFile_truncate
    intro same
    subst same
    rw [recordedAt] at recorded
    split at recorded
    · cases recorded
      exact before
    · cases recorded
  | removed phase unrecorded removed =>
    apply keepsFile_removePath
    intro same
    subst same
    rw [recordedAt] at unrecorded
    split at unrecorded
    · cases unrecorded
    · rename_i notRead
      apply spares
      refine ⟨Bool.eq_false_iff.mpr notRead, removed, ?_⟩
      rw [Leader.undoing, phase]

theorem not_mem_of_erases (move : GroupMove limits segments group leader event after)
    (erases : leader.Erases segmentId event) : segmentId ∉ after.directory.names := by
  cases move with
  | @undo batch rest survivor outcome phase =>
    obtain ⟨notRead, removed, same⟩ := erases
    rw [Leader.undoing, phase] at same
    cases same
    intro listed
    rw [rollBackOne, recordedEnd, notRead] at listed
    dsimp only at listed
    rw [if_neg Bool.false_ne_true, if_pos removed] at listed
    exact of_decide_eq_true (mem_filter.mp listed).2 rfl
  | _ => cases erases

theorem names_truncate (len : Nat) (outcome : TruncateOutcome) :
    (directory.truncate other len outcome).names = directory.names := by
  cases outcome <;> rfl

theorem absent_createSegment {created : Directory} {outcome : CreateOutcome}
    (apart : segmentId ≠ other) (made : directory.createSegment other outcome = some created)
    (absent : segmentId ∉ directory.names) : segmentId ∉ created.names := by
  have appended : segmentId ∉ directory.names ++ [other] := by
    rw [mem_append, mem_singleton, not_or]
    exact ⟨absent, apart⟩
  cases outcome with
  | failed =>
    cases made
    exact absent
  | leftStaged =>
    rw [Directory.createSegment] at made
    split at made
    · cases made
    · cases made
      exact absent
  | leftUnpublished | created =>
    rw [Directory.createSegment] at made
    split at made
    · cases made
    · cases made
      exact appended

theorem absent_move (move : GroupMove limits segments group leader event after)
    (below : segmentId < group.writer.nextSegmentId)
    (absent : segmentId ∉ group.directory.names) : segmentId ∉ after.directory.names := by
  generalize after.directory = directory, FileMove.of_move move = files
  cases files with
  | kept | wrote | synced => exact absent
  | created made => exact absent_createSegment (Nat.ne_of_lt below) made absent
  | cut =>
    rw [names_truncate]
    exact absent
  | removed => exact fun listed => absent (mem_filter.mp listed).1

end Yadorilink.Segments
