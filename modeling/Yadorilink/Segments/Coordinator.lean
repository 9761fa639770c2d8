import Yadorilink.Segments.BlockIndex

/-! The writer of the store: segment files, and the steps a group of blocks goes through on its
way into them. Each step is one call that can fail; a group that fails is undone segment by
segment. -/

namespace Yadorilink.Segments

open FileBytes

/-! ## Segment files -/

/-- The first `synced` bytes of the file are on disk as they are. -/
structure SegmentFile where
  bytes : Bytes
  synced : Nat
  deriving DecidableEq

/-- The `segments` directory: the segments under their own name, those of them whose entry is not
on disk yet, the segments under a Stage name, and the removals that are not on disk yet. A file
keeps its bytes when its name is gone. -/
structure Directory where
  names : List Nat
  unpublished : List Nat
  staged : List Nat
  unlinked : List Nat
  file : Nat → SegmentFile

def Directory.empty : Directory :=
  { names := [], unpublished := [], staged := [], unlinked := [], file := fun _ => ⟨[], 0⟩ }

def Directory.setFile (directory : Directory) (segmentId : Nat) (file : SegmentFile) :
    Directory :=
  { directory with file := fun other => if other = segmentId then file else directory.file other }

/-- The file after writes that started at `offset`. -/
def Directory.write (directory : Directory) (segmentId offset : Nat) (bytes : Bytes) : Directory :=
  directory.setFile segmentId
    { bytes := bytes, synced := min (directory.file segmentId).synced offset }

def Directory.syncFile (directory : Directory) (segmentId : Nat) : Directory :=
  directory.setFile segmentId
    { directory.file segmentId with synced := (directory.file segmentId).bytes.length }

def Directory.setLen (directory : Directory) (segmentId len : Nat) : Directory :=
  directory.setFile segmentId
    { bytes := upTo 0 (directory.file segmentId).bytes len
      synced := min (directory.file segmentId).synced len }

def Directory.removePath (directory : Directory) (segmentId : Nat) : Directory :=
  { directory with
    names := directory.names.filter fun name => name ≠ segmentId
    unlinked := directory.unlinked ++ [segmentId] }

def Directory.sync (directory : Directory) : Directory :=
  { directory with unpublished := [], unlinked := [] }

/-- How the creation of a segment file ends. A file that is left behind is under its Stage name,
or under its own name with some of its header and an entry that is not on disk. -/
inductive CreateOutcome where
  | failed
  | leftStaged
  | leftUnpublished (header : Bytes)
  | created (viaStage : Bool)
  deriving DecidableEq

/-- What the creation leaves. A name in use cannot be created. -/
def Directory.createSegment (directory : Directory) (segmentId : Nat) :
    CreateOutcome → Option Directory
  | .failed => some directory
  | .leftStaged =>
    if segmentId ∈ directory.staged then none
    else some { directory with staged := directory.staged ++ [segmentId] }
  | .leftUnpublished header =>
    if segmentId ∈ directory.names then none
    else some ({ directory with
      names := directory.names ++ [segmentId]
      unpublished := directory.unpublished ++ [segmentId] }.setFile segmentId ⟨header, 0⟩)
  | .created viaStage =>
    if segmentId ∈ directory.names ∨ viaStage ∧ segmentId ∈ directory.staged then none
    else some ({ directory with
      names := directory.names ++ [segmentId]
      unpublished := directory.unpublished.filter fun name => name ≠ segmentId
      unlinked := directory.unlinked.filter fun name => name ≠ segmentId }.setFile segmentId
        ⟨encodeSegmentHeader segmentId, if viaStage then segmentHeaderLen else 0⟩)

/-! ## Appending -/

def writeChunkBytes : Nat := 4 * 1024 * 1024

/-- The pieces each vectored write of an append starts from. -/
def chunkPieces : List Bytes → Nat → List RecordFrame → List (List Bytes)
  | pending, _, [] => [pending]
  | pending, pendingBytes, frame :: frames =>
    if maxWriteSegments < (pending ++ frame.pieces).length + 3 ∨
        writeChunkBytes ≤ pendingBytes + frame.len then
      (pending ++ frame.pieces) :: chunkPieces [] 0 frames
    else chunkPieces (pending ++ frame.pieces) (pendingBytes + frame.len) frames

/-- Writes the chunks one behind the other until one fails. -/
def appendChunks (segments : Nat) :
    Bytes → Nat → List (List Bytes) → List (List Nat) → Bool × Bytes
  | file, _, [], _ => (true, file)
  | file, offset, chunk :: chunks, results =>
    let wrote := writeAllVectoredAt segments file chunk offset (results.headD [])
    match wrote.1 with
    | .ok => appendChunks segments wrote.2.file (offset + chunk.flatten.length) chunks
        results.tail
    | _ => (false, wrote.2.file)

/-- The results are those of write calls that succeed. -/
def AnswersChunks (segments : Nat) :
    Bytes → Nat → List (List Bytes) → List (List Nat) → Prop
  | _, _, [], _ => True
  | file, offset, chunk :: chunks, results =>
    Answers segments (nonemptyPieces chunk) (results.headD []) (startLoop file chunk offset) ∧
      AnswersChunks segments
        (writeAllVectoredAt segments file chunk offset (results.headD [])).2.file
        (offset + chunk.flatten.length) chunks results.tail

instance AnswersChunks.decidable (segments : Nat) :
    (file : Bytes) → (offset : Nat) → (chunks : List (List Bytes)) →
      (results : List (List Nat)) → Decidable (AnswersChunks segments file offset chunks results)
  | _, _, [], _ => .isTrue trivial
  | file, offset, chunk :: chunks, results =>
    have := AnswersChunks.decidable segments
      (writeAllVectoredAt segments file chunk offset (results.headD [])).2.file
      (offset + chunk.flatten.length) chunks results.tail
    inferInstanceAs (Decidable (_ ∧ _))

/-! ## Batches -/

structure SegmentWriter where
  segmentId : Nat
  writeEnd : Nat
  deriving DecidableEq, Repr

structure WriterState where
  active : Option SegmentWriter
  nextSegmentId : Nat
  deriving DecidableEq, Repr

structure GroupCommitLimits where
  segmentTargetBytes : Nat
  deriving DecidableEq, Repr

/-- One segment's share of a group. -/
structure OpenBatch where
  writer : SegmentWriter
  created : Bool
  frames : List RecordFrame
  rows : List NewBlockRow
  deriving DecidableEq

def stagedBytes (frames : List RecordFrame) : Nat := (frames.map RecordFrame.len).sum

def OpenBatch.nextOffset (batch : OpenBatch) : Nat :=
  batch.writer.writeEnd + stagedBytes batch.frames

/-- The row of a record staged behind what the batch already holds. -/
def OpenBatch.newRow (batch : OpenBatch) (addedAt : Int) (frame : RecordFrame) : NewBlockRow :=
  { hash := frame.hash, recordOffset := batch.nextOffset,
    payloadLen := frame.payload.length % 2 ^ 32, recordLen := recordLen frame.payload.length,
    addedAt := addedAt }

def OpenBatch.stage (batch : OpenBatch) (addedAt : Int) (frame : RecordFrame) : OpenBatch :=
  { batch with
    frames := batch.frames ++ [frame], rows := batch.rows ++ [batch.newRow addedAt frame] }

/-- A segment that holds nothing yet never overflows. -/
def wouldOverflow (limits : GroupCommitLimits) (stop needed : Nat) : Bool :=
  segmentHeaderLen < stop && limits.segmentTargetBytes < stop + needed

/-- What a group is for: blocks being put, or copies of blocks made by a compaction. -/
inductive GroupKind where
  | ingest
  | relocation (compaction : Nat) (sources : List Nat)
  deriving DecidableEq, Repr

/-- Where a group stands. -/
inductive Phase where
  | layOut (rest : List RecordFrame) (batches : List OpenBatch) (sealed : List Nat)
  | append (done rest : List OpenBatch) (sealed : List Nat)
  | sync (done rest : List OpenBatch) (sealed : List Nat)
  | record (batches : List OpenBatch) (sealed : List Nat)
  | undo (rest : List OpenBatch) (survivor : Option SegmentWriter)
  | answer
  deriving DecidableEq

/-- Whoever leads. `answered` are the blocks found in the index or recorded by this group, less
those removed since. -/
structure Leader where
  kind : GroupKind
  addedAt : Int
  answered : List RawHash
  phase : Phase
  deriving DecidableEq

/-! ## The steps of a group -/

/-- Whether the next record starts a new segment. Only a group of put blocks asks this of the
segment an earlier group left open. -/
def rollsOver (limits : GroupCommitLimits) (kind : GroupKind) (writer : WriterState)
    (batches : List OpenBatch) (needed : Nat) : Bool :=
  match batches.getLast? with
  | some batch => wouldOverflow limits batch.nextOffset needed
  | none =>
    match kind, writer.active with
    | .ingest, some active => wouldOverflow limits active.writeEnd needed
    | _, _ => false

def outgoing (writer : WriterState) (batches : List OpenBatch) : List Nat :=
  match batches.getLast? with
  | some batch => [batch.writer.segmentId]
  | none => (writer.active.map SegmentWriter.segmentId).toList

def stageLast (addedAt : Int) (frame : RecordFrame) : List OpenBatch → List OpenBatch
  | [] => []
  | [batch] => [batch.stage addedAt frame]
  | batch :: batches => batch :: stageLast addedAt frame batches

/-- What a group works on: the index, the files, the writer and its own progress. -/
structure GroupState where
  index : BlockIndex
  directory : Directory
  writer : WriterState
  leader : Option Leader

/-- A failing creation ends a relocation at once; a group of put blocks is undone. -/
def Leader.creationFailed (leader : Leader) (batches : List OpenBatch) : Option Leader :=
  match leader.kind with
  | .ingest => some { leader with phase := .undo batches none }
  | .relocation _ _ => none

/-- Lays out the next record: in the open segment, or in a new one, which is created. -/
def GroupState.layOut (limits : GroupCommitLimits) (group : GroupState) (leader : Leader)
    (frame : RecordFrame) (rest : List RecordFrame) (batches : List OpenBatch)
    (sealed : List Nat) (outcome : CreateOutcome) : Option GroupState :=
  let rollOver := rollsOver limits leader.kind group.writer batches frame.len
  let sealed := if rollOver then sealed ++ outgoing group.writer batches else sealed
  let staged := fun batches => { leader with
    phase := .layOut rest (stageLast leader.addedAt frame batches) sealed }
  if batches.isEmpty || rollOver then
    match (if rollOver then none else group.writer.active) with
    | some active => some { group with
        writer := { group.writer with active := none }
        leader := some (staged (batches ++
          [{ writer := active, created := false, frames := [], rows := [] }])) }
    | none =>
      let segmentId := group.writer.nextSegmentId
      match group.directory.createSegment segmentId outcome with
      | none => none
      | some directory => some { group with
          directory := directory
          writer := { active := none, nextSegmentId := segmentId + 1 }
          leader :=
            match outcome with
            | .created _ => some (staged (batches ++
                [{ writer := { segmentId := segmentId, writeEnd := segmentHeaderLen }
                   created := true, frames := [], rows := [] }]))
            | _ => leader.creationFailed batches }
  else some { group with leader := some (staged batches) }

def GroupState.append (segments : Nat) (group : GroupState) (leader : Leader)
    (done : List OpenBatch) (batch : OpenBatch) (rest : List OpenBatch) (sealed : List Nat)
    (results : List (List Nat)) : Option GroupState :=
  let file := (group.directory.file batch.writer.segmentId).bytes
  let chunks := chunkPieces [] 0 batch.frames
  if AnswersChunks segments file batch.writer.writeEnd chunks results then
    let wrote := appendChunks segments file batch.writer.writeEnd chunks results
    let written : OpenBatch := { batch with
      frames := []
      writer := { batch.writer with
        writeEnd :=
          if wrote.1 then batch.writer.writeEnd + stagedBytes batch.frames
          else batch.writer.writeEnd } }
    some { group with
      directory := group.directory.write batch.writer.segmentId batch.writer.writeEnd wrote.2
      leader := some { leader with
        phase :=
          if wrote.1 then .append (done ++ [written]) rest sealed
          else .undo (done ++ written :: rest) none } }
  else none

def GroupState.sync (group : GroupState) (leader : Leader) (done : List OpenBatch)
    (batch : OpenBatch) (rest : List OpenBatch) (sealed : List Nat) (synced : Bool) :
    GroupState :=
  if synced then
    { group with
      directory := group.directory.syncFile batch.writer.segmentId
      leader := some { leader with phase := .sync (done ++ [batch]) rest sealed } }
  else
    { group with leader := some { leader with phase := .undo (done ++ batch :: rest) none } }

def OpenBatch.toAppend (batch : OpenBatch) : SegmentAppend :=
  { segmentId := batch.writer.segmentId, created := batch.created,
    durableEnd := batch.writer.writeEnd, blocks := batch.rows }

def groupPlan (writer : WriterState) (batches : List OpenBatch) (sealed : List Nat) :
    GroupCommitPlan :=
  { appends := batches.map OpenBatch.toAppend, sealed := sealed,
    nextSegmentId := writer.nextSegmentId }

def commitPlan (index : BlockIndex) (plan : GroupCommitPlan) : GroupKind → BlockIndex
  | .ingest => index.commitGroup plan
  | .relocation _ sources => index.commitRelocation { group := plan, sources := sources }

/-- Commits the group; the last segment stays open. -/
def GroupState.record (group : GroupState) (leader : Leader) (batches : List OpenBatch)
    (sealed : List Nat) (committed : Bool) : GroupState :=
  if committed then
    { group with
      index := commitPlan group.index (groupPlan group.writer batches sealed) leader.kind
      writer := { group.writer with active := batches.getLast?.map OpenBatch.writer }
      leader := some { leader with
        answered := leader.answered ++
          (batches.flatMap OpenBatch.rows).map NewBlockRow.hash
        phase := .answer } }
  else { group with leader := some { leader with phase := .undo batches none } }

/-! ## Undoing -/

inductive TruncateOutcome where
  | setLenFailed
  | syncFailed
  | truncated
  deriving DecidableEq, Repr

/-- What the calls made to undo one segment return: the index read, the truncation, the update
that seals the segment and the removal of its file. -/
structure UndoOutcome where
  lookedUp : Bool
  truncation : TruncateOutcome
  sealedRow : Bool
  removed : Bool
  deriving DecidableEq, Repr

/-- The durable end an undo goes back to. A read that fails is taken for a segment without a
row. -/
def recordedEnd (index : BlockIndex) (segmentId : Nat) (outcome : UndoOutcome) : Option Nat :=
  if outcome.lookedUp then (index.segment segmentId).map SegmentRow.durableEnd else none

def Directory.truncate (directory : Directory) (segmentId len : Nat) :
    TruncateOutcome → Directory
  | .setLenFailed => directory
  | .syncFailed => directory.setLen segmentId len
  | .truncated => (directory.setLen segmentId len).syncFile segmentId

def GroupState.rollBackOne (group : GroupState) (leader : Leader) (batch : OpenBatch)
    (rest : List OpenBatch) (survivor : Option SegmentWriter) (outcome : UndoOutcome) :
    GroupState :=
  let segmentId := batch.writer.segmentId
  match recordedEnd group.index segmentId outcome with
  | some durableEnd =>
    let directory := group.directory.truncate segmentId durableEnd outcome.truncation
    if outcome.truncation = .truncated then
      { group with
        directory := directory
        leader := some { leader with
          phase := .undo rest
            (survivor.or (some { segmentId := segmentId, writeEnd := durableEnd })) } }
    else
      { group with
        directory := directory
        index :=
          if outcome.sealedRow then group.index.setSegmentState segmentId .sealed
          else group.index
        leader := some { leader with phase := .undo rest survivor } }
  | none =>
    { group with
      directory :=
        if outcome.removed then group.directory.removePath segmentId else group.directory
      leader := some { leader with phase := .undo rest survivor } }

end Yadorilink.Segments
