import Yadorilink.Segments.FailedGroups

/-! What is on disk: every recorded segment below its durable end, every mapped block as a whole
record there, and the records of a group by the time it is recorded. -/

namespace Yadorilink.Segments

open FileBytes GroupState List

variable {file : Bytes} {length : Nat} {sealed : List Nat} {leads : Leader}

variable {hashBlock : Bytes → RawHash} {limits : GroupCommitLimits} {segments : Nat}
  {submitted more : List Bytes} {index : BlockIndex} {directory later : Directory}
  {group after : GroupState} {leader : Leader} {event : Event}
  {segmentId stop : Nat} {frame : RecordFrame} {hash : RawHash} {offset : Nat}

/-! ## Files and records -/

/-- The file of the segment has its entry on disk and reaches to `stop`. -/
structure Present (directory : Directory) (segmentId stop : Nat) : Prop where
  named : segmentId ∈ directory.names
  published : segmentId ∉ directory.unpublished
  linked : segmentId ∉ directory.unlinked
  long : stop ≤ (directory.file segmentId).bytes.length

/-- And it is on disk up to there. -/
structure OnDisk (directory : Directory) (segmentId stop : Nat) : Prop
    extends Present directory segmentId stop where
  synced : stop ≤ (directory.file segmentId).synced

theorem Present.kept (present : Present directory segmentId stop)
    (keeps : KeepsFile directory later segmentId stop) : Present later segmentId stop where
  named := keeps.present present.named
  published := fun listed => present.published (keeps.published listed)
  linked := fun listed => present.linked (keeps.linked listed)
  long := length_le_of_take (keeps.bytes present.long) present.long

theorem OnDisk.kept (onDisk : OnDisk directory segmentId stop)
    (keeps : KeepsFile directory later segmentId stop) : OnDisk later segmentId stop where
  toPresent := onDisk.toPresent.kept keeps
  synced := keeps.synced onDisk.long onDisk.synced

/-- A block that was put, under its hash, and short enough for its length to be written down. -/
structure WasPut (hashBlock : Bytes → RawHash) (submitted : List Bytes) (frame : RecordFrame) :
    Prop where
  listed : frame.payload ∈ submitted
  hashed : hashBlock frame.payload = frame.hash
  short : frame.payload.length < 2 ^ 32

theorem WasPut.mono (put : WasPut hashBlock submitted frame) (subset : submitted ⊆ more) :
    WasPut hashBlock more frame :=
  ⟨subset put.listed, put.hashed, put.short⟩

/-- The file holds the record of a block that was put, with this hash and length. -/
def Filed (hashBlock : Bytes → RawHash) (submitted : List Bytes) (file : Bytes) (hash : RawHash)
    (offset length : Nat) : Prop :=
  ∃ frame : RecordFrame, WasPut hashBlock submitted frame ∧ frame.hash = hash ∧
    frame.payload.length = length ∧ readAt file offset frame.len = frame.bytes

theorem Filed.mono
    (filed : Filed hashBlock submitted file hash offset length) (subset : submitted ⊆ more) :
    Filed hashBlock more file hash offset length := by
  obtain ⟨frame, put, rest⟩ := filed
  exact ⟨frame, put.mono subset, rest⟩

theorem Filed.within
    (filed : Filed hashBlock submitted file hash offset length) :
    offset + recordLen length ≤ file.length := by
  obtain ⟨frame, _, _, rfl, record⟩ := filed
  have lengths := congrArg List.length record
  rw [frame.length_bytes, readAt, length_take, length_drop] at lengths
  rw [← frame.len_eq]
  have positive : 0 < frame.len := by
    rw [RecordFrame.len, Nat.add_assoc]
    exact Nat.lt_of_lt_of_le (by decide) (Nat.le_add_right recordHeaderLen _)
  omega

theorem Filed.kept {other : Bytes}
    (filed : Filed hashBlock submitted file hash offset length)
    (same : other.take stop = file.take stop) (inside : offset + recordLen length ≤ stop) :
    Filed hashBlock submitted other hash offset length := by
  obtain ⟨frame, put, isHash, long, record⟩ := filed
  refine ⟨frame, put, isHash, long, ?_⟩
  rw [readAt_of_take same, record]
  rw [frame.len_eq, long]
  exact inside

theorem Filed.reads {hash : RawHash} {location : BlockLocation}
    (filed : Filed hashBlock submitted file hash location.recordOffset location.length) :
    ∃ block ∈ submitted, hashBlock block = hash ∧ block.length < 2 ^ 32 ∧
      readRecordPayload file location hash = .ok block := by
  obtain ⟨frame, put, rfl, long, record⟩ := filed
  exact ⟨frame.payload, put.listed, put.hashed, put.short,
    readRecordPayload_of_record record long.symm put.short⟩

structure FilesSound (hashBlock : Bytes → RawHash) (submitted : List Bytes) (index : BlockIndex)
    (directory : Directory) : Prop where
  files : ∀ segmentId state durableEnd, index.Row segmentId state durableEnd →
    state ≠ .retired → OnDisk directory segmentId durableEnd
  records : ∀ row ∈ index.blocks, Filed hashBlock submitted
    (directory.file row.segmentId).bytes row.hash row.recordOffset row.payloadLen

theorem FilesSound.mono (files : FilesSound hashBlock submitted index directory)
    (subset : submitted ⊆ more) : FilesSound hashBlock more index directory where
  files := files.files
  records := fun row member => (files.records row member).mono subset

theorem Coherent.row_of_mapped (coherent : Coherent index) {row : BlockRow}
    (mapped : row ∈ index.blocks) : ∃ state durableEnd,
      index.Row row.segmentId state durableEnd ∧ state ≠ .retired ∧
        row.recordOffset + recordLen row.payloadLen ≤ durableEnd := by
  obtain ⟨house, listed, houses⟩ := coherent.housed row mapped
  exact ⟨house.state, house.durableEnd, ⟨house, listed, houses.1, rfl, rfl⟩, houses.2.1,
    houses.2.2.2⟩

theorem FilesSound.keep (files : FilesSound hashBlock submitted index directory)
    (coherent : Coherent index)
    (keeps : ∀ segmentId state durableEnd, index.Row segmentId state durableEnd →
      state ≠ .retired → KeepsFile directory later segmentId durableEnd) :
    FilesSound hashBlock submitted index later where
  files := fun segmentId state durableEnd row live =>
    (files.files segmentId state durableEnd row live).kept (keeps _ _ _ row live)
  records := by
    intro row mapped
    obtain ⟨state, durableEnd, segment, live, inside⟩ := coherent.row_of_mapped mapped
    have long := (files.files _ _ _ segment live).long
    exact (files.records row mapped).kept ((keeps _ _ _ segment live).bytes long) inside

theorem FilesSound.transaction {changed : BlockIndex}
    (files : FilesSound hashBlock submitted index directory)
    (rows : ∀ segmentId state durableEnd, changed.Row segmentId state durableEnd →
      ∃ earlier, index.Row segmentId earlier durableEnd ∧ (earlier = .retired → state = .retired))
    (fewer : changed.blocks ⊆ index.blocks) :
    FilesSound hashBlock submitted changed directory where
  files := by
    intro segmentId state durableEnd row live
    obtain ⟨earlier, old, stays⟩ := rows _ _ _ row
    exact files.files _ _ _ old fun retired => live (stays retired)
  records := fun row member => files.records row (fewer member)

/-! ## Batches -/

/-- The rows of records laid out one behind the other. -/
def laidRows (addedAt : Int) : Nat → List RecordFrame → List NewBlockRow
  | _, [] => []
  | offset, frame :: frames =>
    { hash := frame.hash, recordOffset := offset,
      payloadLen := frame.payload.length % 2 ^ 32, recordLen := recordLen frame.payload.length,
      addedAt := addedAt } :: laidRows addedAt (offset + frame.len) frames

theorem laidRows_append (addedAt : Int) (offset : Nat) (front back : List RecordFrame) :
    laidRows addedAt offset (front ++ back) =
      laidRows addedAt offset front ++ laidRows addedAt (offset + stagedBytes front) back := by
  induction front generalizing offset with
  | nil => rfl
  | cons frame front induction =>
    rw [cons_append, laidRows, laidRows, induction, cons_append, Nat.add_assoc]
    rfl

theorem mem_laidRows {addedAt : Int} {frames : List RecordFrame} {row : NewBlockRow}
    (member : row ∈ laidRows addedAt offset frames) :
    ∃ front frame back, frames = front ++ frame :: back ∧ row.hash = frame.hash ∧
      row.recordOffset = offset + stagedBytes front ∧
      row.payloadLen = frame.payload.length % 2 ^ 32 := by
  induction frames generalizing offset with
  | nil => cases member
  | cons first frames induction =>
    rcases mem_cons.mp member with rfl | rest
    · exact ⟨[], first, frames, rfl, rfl, rfl, rfl⟩
    · obtain ⟨front, frame, back, rfl, hash, starts, long⟩ := induction rest
      refine ⟨first :: front, frame, back, rfl, hash, ?_, long⟩
      rw [starts, Nat.add_assoc]
      rfl

/-- A segment's share of a group before it is written. -/
structure Staged (hashBlock : Bytes → RawHash) (submitted : List Bytes) (directory : Directory)
    (addedAt : Int) (batch : OpenBatch) : Prop where
  present : Present directory batch.segmentId batch.writer.writeEnd
  rows : batch.rows = laidRows addedAt batch.writer.writeEnd batch.frames
  frames : ∀ frame ∈ batch.frames, WasPut hashBlock submitted frame

/-- The records of a batch are in the file it was written to, before the end it was written to. -/
def OpenBatch.Recorded (hashBlock : Bytes → RawHash) (submitted : List Bytes)
    (directory : Directory) (batch : OpenBatch) : Prop :=
  ∀ row ∈ batch.rows, Filed hashBlock submitted (directory.file batch.segmentId).bytes row.hash
      row.recordOffset row.payloadLen ∧
    row.recordOffset + recordLen row.payloadLen ≤ batch.writer.writeEnd

/-- A segment's share of a group once it is written. -/
structure Written (hashBlock : Bytes → RawHash) (submitted : List Bytes) (directory : Directory)
    (batch : OpenBatch) : Prop where
  present : Present directory batch.segmentId batch.writer.writeEnd
  recorded : batch.Recorded hashBlock submitted directory

/-- And once it is synced. -/
structure Synced (hashBlock : Bytes → RawHash) (submitted : List Bytes) (directory : Directory)
    (batch : OpenBatch) : Prop where
  onDisk : OnDisk directory batch.segmentId batch.writer.writeEnd
  recorded : batch.Recorded hashBlock submitted directory

theorem OpenBatch.Recorded.kept {batch : OpenBatch}
    (recorded : batch.Recorded hashBlock submitted directory)
    (same : (later.file batch.segmentId).bytes.take batch.writer.writeEnd =
      (directory.file batch.segmentId).bytes.take batch.writer.writeEnd) :
    batch.Recorded hashBlock submitted later := by
  intro row member
  rcases recorded row member with ⟨filed, inside⟩
  exact ⟨filed.kept same inside, inside⟩

variable {batch : OpenBatch} {addedAt : Int} {batches : List OpenBatch}

theorem Staged.kept (staged : Staged hashBlock submitted directory addedAt batch)
    (keeps : KeepsFile directory later batch.segmentId batch.writer.writeEnd) :
    Staged hashBlock submitted later addedAt batch :=
  ⟨staged.present.kept keeps, staged.rows, staged.frames⟩

theorem Written.kept (written : Written hashBlock submitted directory batch)
    (keeps : KeepsFile directory later batch.segmentId batch.writer.writeEnd) :
    Written hashBlock submitted later batch :=
  ⟨written.present.kept keeps, written.recorded.kept (keeps.bytes written.present.long)⟩

theorem Synced.kept (synced : Synced hashBlock submitted directory batch)
    (keeps : KeepsFile directory later batch.segmentId batch.writer.writeEnd) :
    Synced hashBlock submitted later batch :=
  ⟨synced.onDisk.kept keeps, synced.recorded.kept (keeps.bytes synced.onDisk.long)⟩

def Phase.Durable (hashBlock : Bytes → RawHash) (submitted : List Bytes) (directory : Directory)
    (addedAt : Int) : Phase → Prop
  | .layOut rest batches _ =>
    (∀ frame ∈ rest, WasPut hashBlock submitted frame) ∧
      ∀ batch ∈ batches, Staged hashBlock submitted directory addedAt batch
  | .append done rest _ =>
    (∀ batch ∈ done, Written hashBlock submitted directory batch) ∧
      ∀ batch ∈ rest, Staged hashBlock submitted directory addedAt batch
  | .sync done rest _ =>
    (∀ batch ∈ done, Synced hashBlock submitted directory batch) ∧
      ∀ batch ∈ rest, Written hashBlock submitted directory batch
  | .record batches _ => ∀ batch ∈ batches, Synced hashBlock submitted directory batch
  | .undo _ _ => True
  | .answer => True

theorem Phase.Durable.kept {phase : Phase}
    (durable : phase.Durable hashBlock submitted directory addedAt)
    (keeps : ∀ batch ∈ phase.batches,
      KeepsFile directory later batch.segmentId batch.writer.writeEnd) :
    phase.Durable hashBlock submitted later addedAt := by
  cases phase with
  | layOut rest batches sealed =>
    exact ⟨durable.1, fun batch member => (durable.2 batch member).kept (keeps batch member)⟩
  | append done rest sealed =>
    exact ⟨fun batch member => (durable.1 batch member).kept
        (keeps batch (mem_append_left _ member)),
      fun batch member => (durable.2 batch member).kept
        (keeps batch (mem_append_right _ member))⟩
  | sync done rest sealed =>
    exact ⟨fun batch member => (durable.1 batch member).kept
        (keeps batch (mem_append_left _ member)),
      fun batch member => (durable.2 batch member).kept
        (keeps batch (mem_append_right _ member))⟩
  | record batches sealed =>
    exact fun batch member => (durable batch member).kept (keeps batch member)
  | undo | answer => trivial

/-! ## Laying out -/

theorem Staged.stage (staged : Staged hashBlock submitted directory addedAt batch)
    (put : WasPut hashBlock submitted frame) :
    Staged hashBlock submitted directory addedAt (batch.stage addedAt frame) where
  present := staged.present
  rows := by
    change batch.rows ++ [batch.newRow addedAt frame] =
      laidRows addedAt batch.writer.writeEnd (batch.frames ++ [frame])
    rw [laidRows_append, staged.rows]
    rfl
  frames := by
    exact forall_mem_concat staged.frames put

theorem staged_stageLast
    (staged : ∀ batch ∈ batches, Staged hashBlock submitted directory addedAt batch)
    (put : WasPut hashBlock submitted frame) :
    ∀ batch ∈ stageLast addedAt frame batches,
      Staged hashBlock submitted directory addedAt batch := by
  intro batch member
  rcases mem_stageLast member with ⟨old, listed, rfl | rfl⟩
  · exact staged batch listed
  · exact (staged old listed).stage put

theorem present_createSegment {viaStage : Bool}
    (made : directory.createSegment segmentId (.created viaStage) = some later) :
    Present later segmentId segmentHeaderLen := by
  rw [Directory.createSegment] at made
  split at made
  · cases made
  · cases made
    refine ⟨mem_append_right _ (.head _), ?_, ?_, ?_⟩
    · exact fun listed => of_decide_eq_true (mem_filter.mp listed).2 rfl
    · exact fun listed => of_decide_eq_true (mem_filter.mp listed).2 rfl
    · rw [Directory.setFile]
      dsimp only
      rw [if_pos rfl, encodeSegmentHeader]
      simp only [length_append, length_leBytes]
      exact Nat.le_refl _

theorem Phase.Durable.layOut {frame : RecordFrame} {rest : List RecordFrame}
    {batches : List OpenBatch} {outcome : CreateOutcome}
    (sound : GroupSound hashBlock submitted group) (working : group.batches = batches)
    (files : FilesSound hashBlock submitted group.index group.directory)
    (durable : (Phase.layOut (frame :: rest) batches sealed).Durable hashBlock submitted
      group.directory leader.addedAt)
    (made : group.layOut limits leader frame rest batches sealed outcome = some after)
    (leading : after.leader = some leads) :
    leads.phase.Durable hashBlock submitted after.directory leads.addedAt := by
  obtain ⟨put, staged⟩ := durable
  have first := put frame (.head _)
  have others : ∀ later ∈ rest, WasPut hashBlock submitted later :=
    fun later member => put later (.tail frame member)
  unfold GroupState.layOut at made
  dsimp only at made
  split at made
  · split at made
    · -- The segment an earlier group left open is on disk up to its recorded end.
      rename_i active isActive
      cases made
      cases leading
      refine ⟨others, staged_stageLast ?_ first⟩
      refine forall_mem_concat staged ?_
      split at isActive
      · cases isActive
      · have row := (sound.active active isActive).1
        exact ⟨(files.files _ _ _ row nofun).toPresent, rfl, nofun⟩
    · split at made
      · cases made
      · rename_i created making
        cases made
        cases outcome with
        | created viaStage =>
          cases leading
          refine ⟨others, staged_stageLast ?_ first⟩
          intro batch member
          rcases mem_append.mp member with old | new
          · apply (staged batch old).kept
            apply keepsFile_createSegment _ making
            exact Nat.ne_of_gt (sound.opened.below batch (working ▸ old))
          · rw [mem_singleton.mp new]
            exact ⟨present_createSegment making, rfl, nofun⟩
        | failed | leftStaged | leftUnpublished =>
          dsimp only at leading
          rw [Leader.creationFailed] at leading
          split at leading
          · cases leading
            trivial
          · cases leading
  · cases made
    cases leading
    exact ⟨others, staged_stageLast staged first⟩

/-! ## Writing -/

/-- The write of the next batch is cut twice inside one piece. -/
def Leader.Cuts (leader : Leader) : Event → Prop
  | .append results =>
    match leader.phase with
    | .append _ (batch :: _) _ => CutsChunk (chunkPieces [] 0 batch.frames) results
    | _ => False
  | _ => False

theorem file_write (offset : Nat) (bytes : Bytes) :
    ((directory.write segmentId offset bytes).file segmentId).bytes = bytes := by
  rw [Directory.write, Directory.setFile]
  dsimp only
  rw [if_pos rfl]

theorem Staged.written {results : List (List Nat)}
    (staged : Staged hashBlock submitted directory addedAt batch)
    (answers : AnswersChunks segments (directory.file batch.segmentId).bytes
      batch.writer.writeEnd (chunkPieces [] 0 batch.frames) results)
    (once : ¬CutsChunk (chunkPieces [] 0 batch.frames) results)
    (returned : (appendChunks segments (directory.file batch.segmentId).bytes
      batch.writer.writeEnd (chunkPieces [] 0 batch.frames) results).1 = true) :
    Written hashBlock submitted (directory.write batch.segmentId batch.writer.writeEnd
        (appendChunks segments (directory.file batch.segmentId).bytes batch.writer.writeEnd
          (chunkPieces [] 0 batch.frames) results).2)
      { batch with
        frames := []
        writer := { batch.writer with
          writeEnd := batch.writer.writeEnd + stagedBytes batch.frames } } where
  present := {
    named := staged.present.named
    published := staged.present.published
    linked := staged.present.linked
    long := by
      change _ ≤ ((directory.write batch.segmentId _ _).file batch.segmentId).bytes.length
      rw [file_write]
      exact length_appended answers once returned staged.present.long }
  recorded := by
    intro row member
    change row ∈ batch.rows at member
    rw [staged.rows] at member
    obtain ⟨front, frame, back, split, hash, starts, long⟩ := mem_laidRows member
    have put := staged.frames frame (by
      rw [split]
      exact mem_append_right _ (.head _))
    rw [Nat.mod_eq_of_lt put.short] at long
    refine ⟨⟨frame, put, hash.symm, long.symm, ?_⟩, ?_⟩
    · change readAt ((directory.write batch.segmentId _ _).file batch.segmentId).bytes
        row.recordOffset frame.len = frame.bytes
      rw [file_write, starts]
      rw [split] at answers once returned ⊢
      exact readAt_appended answers once returned
    · change row.recordOffset + recordLen row.payloadLen ≤
        batch.writer.writeEnd + stagedBytes batch.frames
      rw [starts, long, ← frame.len_eq, split, stagedBytes_append, Nat.add_assoc]
      apply Nat.add_le_add_left
      apply Nat.add_le_add_left
      exact Nat.le_add_right _ _

theorem Phase.Durable.append {done rest : List OpenBatch}
    {results : List (List Nat)}
    (distinct : ((done ++ batch :: rest).map OpenBatch.segmentId).Nodup)
    (durable : (Phase.append done (batch :: rest) sealed).Durable hashBlock submitted
      group.directory leader.addedAt)
    (once : ¬CutsChunk (chunkPieces [] 0 batch.frames) results)
    (made : group.append segments leader done batch rest sealed results = some after)
    (leading : after.leader = some leads) :
    leads.phase.Durable hashBlock submitted after.directory leads.addedAt := by
  obtain ⟨written, staged⟩ := durable
  rw [map_append, map_cons, nodup_append] at distinct
  obtain ⟨_, right, apart⟩ := distinct
  have doneApart : ∀ other ∈ done, batch.segmentId ≠ other.segmentId :=
    fun other member same => apart _ (mem_map_of_mem member) _ (.head _)
      same.symm
  have restApart : ∀ other ∈ rest, batch.segmentId ≠ other.segmentId :=
    fun other member same => (nodup_cons.mp right).1 (same ▸ mem_map_of_mem member)
  have keeps : ∀ offset bytes other, batch.segmentId ≠ other →
      ∀ stop, KeepsFile group.directory
        (group.directory.write batch.writer.segmentId offset bytes) other stop :=
    fun _ _ _ differ _ => keepsFile_write fun same => absurd same differ
  rw [GroupState.append] at made
  split at made
  · rename_i answers
    cases made
    cases leading
    dsimp only
    split
    · rename_i returned
      refine ⟨?_, ?_⟩
      · intro other member
        rcases mem_append.mp member with old | new
        · exact (written other old).kept (keeps _ _ _ (doneApart other old) _)
        · rw [mem_singleton.mp new]
          exact (staged batch (.head _)).written answers once returned
      · intro other member
        exact (staged other (.tail batch member)).kept
          (keeps _ _ _ (restApart other member) _)
    · trivial
  · cases made

/-! ## Syncing -/

theorem Written.synced (written : Written hashBlock submitted directory batch) :
    Synced hashBlock submitted (directory.syncFile batch.segmentId) batch where
  onDisk := {
    toPresent := written.present.kept keepsFile_syncFile
    synced := by
      rw [Directory.syncFile, Directory.setFile]
      dsimp only
      rw [if_pos rfl]
      exact written.present.long }
  recorded := written.recorded.kept (by
    rw [Directory.syncFile, Directory.setFile]
    dsimp only
    rw [if_pos rfl])

theorem Phase.Durable.sync {done rest : List OpenBatch} {synced : Bool}

    (durable : (Phase.sync done (batch :: rest) sealed).Durable hashBlock submitted
      group.directory leader.addedAt)
    (leading : (group.sync leader done batch rest sealed synced).leader = some leads) :
    leads.phase.Durable hashBlock submitted
      (group.sync leader done batch rest sealed synced).directory leads.addedAt := by
  obtain ⟨before, written⟩ := durable
  rw [GroupState.sync] at leading ⊢
  split at leading
  · rename_i isSynced
    cases leading
    rw [if_pos isSynced]
    refine ⟨?_, ?_⟩
    · exact forall_mem_concat (fun other old => (before other old).kept keepsFile_syncFile)
        ((written batch (.head _)).synced)
    · exact fun other member =>
        (written other (.tail batch member)).kept keepsFile_syncFile
  · cases leading
    trivial

/-! ## Recording -/

def BlockIndex.Mapped (index : BlockIndex) (hash : RawHash) : Prop :=
  ∃ row ∈ index.blocks, row.hash = hash

theorem row_of_commitPlan {next : Nat} {writer : WriterState}
    {kind : GroupKind} {state : SegmentState} {durableEnd : Nat}
    (opened : Opened index next batches)
    (row : (commitPlan index (groupPlan writer batches sealed) kind).Row segmentId state
      durableEnd) :
    (∃ batch ∈ batches, batch.segmentId = segmentId ∧ durableEnd = batch.writer.writeEnd) ∨
      ∃ earlier, index.Row segmentId earlier durableEnd ∧
        (earlier = .retired → state = .retired) := by
  obtain ⟨apply, applies, undisturbed⟩ :=
    rows_commitPlan index (groupPlan writer batches sealed) kind
  obtain ⟨middle, appended, stays⟩ := undisturbed.rows _ _ _ row
  rcases opened.row_appended applies appended with here | ⟨_, earlier, old, same⟩
  · exact .inl here
  · exact .inr ⟨earlier, old, fun retired => stays (same.mp retired)⟩

theorem maps_commit (free : CollisionFree hashBlock submitted)
    (sound : IndexSound hashBlock submitted group.index)
    (opened : Opened group.index group.writer.nextSegmentId group.batches)
    (filled : Filled hashBlock submitted group.index group.batches)
    (written : ∀ batch ∈ group.batches, batch.frames = []) (kind : GroupKind) :
    Maps group.index (commitPlan group.index (groupPlan group.writer group.batches sealed) kind)
      (group.batches.map OpenBatch.toAppend) :=
  (sound.coherent.commitPlan (groupPlan group.writer group.batches sealed)
    (opened.plannable filled written) (filled.copies free sound) kind).2

theorem FilesSound.commit {changed : BlockIndex} {batches : List OpenBatch}
    (files : FilesSound hashBlock submitted index directory)
    (rows : ∀ segmentId state durableEnd, changed.Row segmentId state durableEnd →
      (∃ batch ∈ batches, batch.segmentId = segmentId ∧ durableEnd = batch.writer.writeEnd) ∨
        ∃ earlier, index.Row segmentId earlier durableEnd ∧ (earlier = .retired → state = .retired))
    (maps : Maps index changed (batches.map OpenBatch.toAppend))
    (synced : ∀ batch ∈ batches, Synced hashBlock submitted directory batch) :
    FilesSound hashBlock submitted changed directory where
  files := by
    intro segmentId state durableEnd row live
    rcases rows _ _ _ row with ⟨batch, listed, rfl, rfl⟩ | ⟨earlier, old, stays⟩
    · exact (synced batch listed).onDisk
    · exact files.files _ _ _ old fun retired => live (stays retired)
  records := by
    intro row member
    rcases maps.new row member with old | ⟨append, listed, block, inAppend, hash, inside, at', long⟩
    · exact files.records row old
    · obtain ⟨batch, inGroup, rfl⟩ := mem_map.mp listed
      have filed := ((synced batch inGroup).recorded block inAppend).1
      rw [hash, at', long, inside]
      exact filed

/-! ## Whole groups -/

theorem fails_of_move (move : GroupMove limits segments group leader event after)
    (unrecorded : event ≠ .record true) : Fails event := by
  cases move with
  | @record _ _ committed =>
    cases committed with
    | true => exact absurd rfl unrecorded
    | false => exact rfl
  | _ => trivial

theorem row_of_fails (coherent : Coherent group.index)
    (sound : GroupSound hashBlock submitted group) (leads : group.leader = some leader)
    (move : GroupMove limits segments group leader event after) (fails : Fails event)
    {state : SegmentState} {durableEnd : Nat}
    (row : after.index.Row segmentId state durableEnd) :
    ∃ earlier, group.index.Row segmentId earlier durableEnd ∧
      (earlier = .retired → state = .retired) := by
  rcases (Unrecorded.of_fails move fails).index with same | ⟨batch, _, _, phase, sealed⟩
  · exact ⟨state, same ▸ row, id⟩
  · have opened := sound.opened
    rw [batches_of leads, phase] at opened
    rw [sealed] at row
    -- The segment a group writes to is active.
    apply row_of_sealed _ true _ _ _ row
    exact fun _ _ old => (opened.stop_le coherent (.head _) old).2.1

theorem FilesSound.move (free : CollisionFree hashBlock submitted)
    (sound : IndexSound hashBlock submitted group.index)
    (groupSound : GroupSound hashBlock submitted group) (leads : group.leader = some leader)
    (files : FilesSound hashBlock submitted group.index group.directory)
    (durable : leader.phase.Durable hashBlock submitted group.directory leader.addedAt)
    (move : GroupMove limits segments group leader event after)
    (spares : ∀ segmentId state durableEnd, group.index.Row segmentId state durableEnd →
      ¬leader.Erases segmentId event) :
    FilesSound hashBlock submitted after.index after.directory := by
  by_cases unrecorded : event = .record true
  · subst unrecorded
    cases move with
    | @record batches sealed _ phase =>
      have working : group.batches = batches := by
        rw [batches_of leads, phase]
        rfl
      have here := groupSound.phase leader leads
      rw [phase] at here durable
      subst working
      rw [record, if_pos rfl]
      exact files.commit (fun _ _ _ row => row_of_commitPlan groupSound.opened row)
        (maps_commit free sound groupSound.opened here.1.filled here.2 leader.kind) durable
  · have fails := fails_of_move move unrecorded
    have kept := files.keep sound.coherent fun segmentId state durableEnd row _ =>
      KeepsFile.move sound groupSound leads move row (Nat.le_refl _) (spares _ _ _ row)
    refine kept.transaction ?_ ?_
    · exact fun _ _ _ row => row_of_fails sound.coherent groupSound leads move fails row
    · rw [blocks_of_fails move fails]
      exact List.Subset.refl _

theorem Phase.Durable.move (groupSound : GroupSound hashBlock submitted group)
    (leading : group.leader = some leader)
    (files : FilesSound hashBlock submitted group.index group.directory)
    (durable : leader.phase.Durable hashBlock submitted group.directory leader.addedAt)
    (move : GroupMove limits segments group leader event after) (once : ¬leader.Cuts event)
    (led : after.leader = some leads) :
    leads.phase.Durable hashBlock submitted after.directory leads.addedAt := by
  have working := batches_of leading
  cases move with
  | layOut phase made =>
    rw [phase] at durable working
    exact durable.layOut groupSound working files made led
  | laidOut phase =>
    cases led
    rw [phase] at durable
    exact ⟨nofun, durable.2⟩
  | appended phase =>
    cases led
    rw [phase] at durable
    exact ⟨nofun, durable.1⟩
  | synced phase =>
    cases led
    rw [phase] at durable
    exact durable.1
  | append phase made =>
    have distinct := groupSound.opened.distinct
    rw [working, phase] at distinct
    rw [phase] at durable
    rw [Leader.Cuts, phase] at once
    exact durable.append distinct once made led
  | sync phase =>
    rw [phase] at durable
    exact durable.sync led
  | record =>
    rw [GroupState.record] at led
    split at led
    · cases led
      trivial
    · cases led
      trivial
  | undo =>
    rw [GroupState.rollBackOne] at led
    dsimp only at led
    split at led
    · split at led
      · cases led
        trivial
      · cases led
        trivial
    · cases led
      trivial

theorem mapped_move (free : CollisionFree hashBlock submitted)
    (sound : IndexSound hashBlock submitted group.index)
    (groupSound : GroupSound hashBlock submitted group) (leads : group.leader = some leader)
    (move : GroupMove limits segments group leader event after) (mapped : group.index.Mapped hash) :
    after.index.Mapped hash := by
  obtain ⟨row, listed, same⟩ := mapped
  by_cases unrecorded : event = .record true
  · subst unrecorded
    cases move with
    | @record batches sealed _ phase =>
      have working : group.batches = batches := by
        rw [batches_of leads, phase]
        rfl
      have here := groupSound.phase leader leads
      rw [phase] at here
      subst working
      rw [record, if_pos rfl]
      have maps := @maps_commit sealed _ _ _ free sound groupSound.opened here.1.filled here.2
        leader.kind
      obtain ⟨later, there, also⟩ := maps.kept row listed
      exact ⟨later, there, also.trans same⟩
  · refine ⟨row, ?_, same⟩
    rw [blocks_of_fails move (fails_of_move move unrecorded)]
    exact listed

/-- The blocks a group answers for are in the index. -/
def Leader.Answers (leader : Leader) (index : BlockIndex) : Prop :=
  leader.kind = .ingest → ∀ hash ∈ leader.answered, index.Mapped hash

theorem Leader.Answers.move (free : CollisionFree hashBlock submitted)
    (sound : IndexSound hashBlock submitted group.index)
    (groupSound : GroupSound hashBlock submitted group) (leading : group.leader = some leader)
    (answers : leader.Answers group.index)
    (move : GroupMove limits segments group leader event after)
    (led : after.leader = some leads) : leads.Answers after.index := by
  have kept : ∀ hash, group.index.Mapped hash → after.index.Mapped hash :=
    fun hash => mapped_move free sound groupSound leading move
  by_cases unrecorded : event = .record true
  · subst unrecorded
    cases move with
    | @record batches sealed _ phase =>
      rw [record, if_pos rfl] at led kept
      rw [record, if_pos rfl]
      cases led
      intro kind hash member
      rcases mem_append.mp member with old | new
      · exact kept hash (answers kind hash old)
      · obtain ⟨row, listed, rfl⟩ := mem_map.mp new
        obtain ⟨batch, inGroup, inBatch⟩ := mem_flatMap.mp listed
        change leader.kind = .ingest at kind
        rw [kind]
        exact mapped_applyAppends (mem_map_of_mem inGroup) inBatch
  · rcases (Unrecorded.of_fails move (fails_of_move move unrecorded)).leads _ led
      with ⟨sameKind, sameAnswers⟩
    intro kind hash member
    exact kept hash (answers (sameKind ▸ kind) hash (sameAnswers ▸ member))

end Yadorilink.Segments
