import Yadorilink.Foundation.Machine
import Yadorilink.Segments.Coordinator

/-! The block store as one handle runs it: groups of puts, removals, compactions and
reclamations, taken apart into the calls they are made of, in any order; a crash between any two
of them, and the recovery that opens the store again. -/

namespace Yadorilink.Segments

open FileBytes

/-! ## Recovery -/

/-- The tables and files while the store is being opened. -/
structure Recovering where
  index : BlockIndex
  directory : Directory

def Recovering.remove (recovering : Recovering) (segmentId : Nat) : Recovering :=
  { recovering with directory := recovering.directory.removePath segmentId }

/-- Reconciles one segment row with its file. `removable` tells which files can be removed. -/
def recoverRow (removable : Nat → Bool) (recovering : Recovering) (row : SegmentRow) :
    Recovering :=
  let segmentId := row.segmentId
  let present := segmentId ∈ recovering.directory.names
  let fileLen := (recovering.directory.file segmentId).bytes.length
  if row.state = .retired then
    if present ∧ removable segmentId = false then recovering
    else
      { directory :=
          if present then recovering.directory.removePath segmentId else recovering.directory
        index := recovering.index.forgetSegment segmentId }
  else if ¬present then
    { recovering with
      index := (recovering.index.dropSegmentMappings segmentId).forgetSegment segmentId }
  else if row.durableEnd < fileLen then
    { recovering with
      directory := recovering.directory.truncate segmentId row.durableEnd .truncated }
  else if fileLen < row.durableEnd then
    { recovering with index := recovering.index.repairSegmentToLength segmentId fileLen }
  else recovering

/-- Removes the files no row names, those under a Stage name included. -/
def removeOrphans (removable stageRemovable : Nat → Bool) (known : List Nat)
    (directory : Directory) : Directory :=
  { directory with
    names := directory.names.filter fun name => name ∈ known || !removable name
    staged := directory.staged.filter fun name => name ∈ known || !stageRemovable name }

/-- No segment stays open: what was active is sealed, and what holds nothing is retired. -/
def closeRow (index : BlockIndex) (row : SegmentRow) : BlockIndex :=
  if row.state = .active then
    if row.live.blocks = 0 ∧ row.durableEnd ≤ segmentHeaderLen then
      index.retireEmptySegment row.segmentId
    else index.setSegmentState row.segmentId .sealed
  else index

def retireRow (index : BlockIndex) (row : SegmentRow) : BlockIndex :=
  if row.state ≠ .retired ∧ row.live.blocks = 0 then index.retireEmptySegment row.segmentId
  else index

/-- Opens the store: the tables, the files and the next segment number. -/
def recover (removable stageRemovable : Nat → Bool) (index : BlockIndex) (directory : Directory) :
    Recovering × Nat :=
  let rows := index.segments
  let known := rows.map SegmentRow.segmentId
  let gone := directory.staged.filter fun name => name ∉ known && stageRemovable name
  let highest := greatest 0 (directory.names ++ known ++ gone)
  let reconciled := rows.foldl (recoverRow removable) ⟨index, directory⟩
  let swept := (removeOrphans removable stageRemovable known reconciled.directory).sync
  let closed := rows.foldl closeRow reconciled.index
  (⟨rows.foldl retireRow closed, swept⟩, max reconciled.index.recordedNextSegmentId (highest + 1))

/-! ## Compaction and reclamation -/

def relocationBatchBlocks : Nat := 2048

def relocationBatchBytes : Nat := 32 * 1024 * 1024

/-- How far the read of one block is: not begun, its location looked up, or found unreadable
there. `tries` are the attempts left. -/
inductive ReadProgress where
  | unresolved (tries : Nat)
  | located (location : BlockLocation) (tries : Nat)
  | suspect (location : BlockLocation) (tries : Nat)
  deriving DecidableEq

/-- Where the compaction of a segment stands: at the head of its loop, in a page of the segment's
blocks, with copies to relocate, waiting for the relocation, with the segment to retire, or at its
end. -/
inductive CompactionStage where
  | turn
  | page (rest : List BlockRow) (progress : ReadProgress) (copies : List RecordFrame)
  | relocate (copies : List RecordFrame)
  | relocating
  | retire
  | ended
  deriving DecidableEq

structure Compaction where
  source : Nat
  cursor : Option Nat
  stage : CompactionStage
  deriving DecidableEq

/-- Where a reclamation stands. `unlinked` tells that the file of the next segment is gone and its
row is not. -/
structure Reclaim where
  rest : List Nat
  unlinked : Bool
  removed : Nat
  deriving DecidableEq, Repr

/-- What the process holds in memory while the store is open. -/
structure Handle where
  writer : WriterState
  leader : Option Leader
  compactions : List Compaction
  reclaims : List Reclaim
  deriving DecidableEq

/-- The store. `submitted` are the blocks that were ever put, and `owed` those whose put returned
`Ok`, less those deleted or swept since their put found or recorded them. -/
structure Store where
  index : BlockIndex
  directory : Directory
  handle : Option Handle
  submitted : List Bytes
  owed : List RawHash

def Store.fresh : Store :=
  { index := .empty, directory := .empty, handle := none, submitted := [], owed := [] }

inductive Event where
  | recover (removable stageRemovable : Nat → Bool)
  | crash (found : List (Nat × Bytes)) (stagedFound : List Nat)
  | put (blocks : List Bytes) (addedAt : Int)
  | layOut (outcome : CreateOutcome)
  | advance
  | append (results : List (List Nat))
  | sync (synced : Bool)
  | record (committed : Bool)
  | undo (outcome : UndoOutcome)
  | finish
  | sealActive (committed : Bool)
  | remove (hashes : List RawHash)
  | compact (segmentId : Nat)
  | page (compaction : Nat)
  | resolve (compaction : Nat)
  | readBlock (compaction : Nat) (cached : Bool)
  | recheck (compaction : Nat)
  | relocate (compaction : Nat) (addedAt : Int)
  | retire (compaction : Nat) (committed : Bool)
  | abandonCompaction (compaction : Nat)
  | reclaim
  | unlink (reclaim : Nat) (removed : Bool)
  | forget (reclaim : Nat) (committed : Bool)
  | syncReclaim (reclaim : Nat)

/-! ## Crashes -/

/-- The files a crash can leave: every segment whose entry is on disk is there, with the bytes that
were synced; of the rest, anything. A removal that was not synced may not have happened. -/
def Survives (directory : Directory) (found : List (Nat × Bytes)) (stagedFound : List Nat) :
    Prop :=
  (found.map Prod.fst).Nodup ∧
  (∀ name ∈ directory.names, name ∈ directory.unpublished ∨ name ∈ found.map Prod.fst) ∧
  (∀ entry ∈ found, entry.1 ∈ directory.unlinked ∨ entry.1 ∈ directory.names ∧
    (directory.file entry.1).synced ≤ entry.2.length ∧
    entry.2.take (directory.file entry.1).synced =
      (directory.file entry.1).bytes.take (directory.file entry.1).synced) ∧
  ∀ name ∈ stagedFound, name ∈ directory.staged

instance Survives.decidable (directory : Directory) (found : List (Nat × Bytes))
    (stagedFound : List Nat) : Decidable (Survives directory found stagedFound) :=
  inferInstanceAs (Decidable (_ ∧ _ ∧ _ ∧ _))

def Directory.afterCrash (found : List (Nat × Bytes)) (stagedFound : List Nat) : Directory :=
  { names := found.map Prod.fst, unpublished := [], staged := stagedFound, unlinked := []
    file := fun segmentId =>
      match found.find? fun entry => entry.1 = segmentId with
      | some entry => ⟨entry.2, entry.2.length⟩
      | none => ⟨[], 0⟩ }

/-! ## Steps -/

/-- The attempts a read makes to follow a block that moves. -/
def readTries : Nat := 3

def Handle.setCompaction (handle : Handle) (number : Nat) (compaction : Compaction) : Handle :=
  { handle with compactions := handle.compactions.set number compaction }

def Handle.setStage (handle : Handle) (number : Nat) (stage : CompactionStage) : Handle :=
  match handle.compactions[number]? with
  | some compaction => handle.setCompaction number { compaction with stage := stage }
  | none => handle

/-- A relocation is over, for the compaction that waits for it. -/
def Handle.relocated (handle : Handle) (kind : GroupKind) (stage : CompactionStage) : Handle :=
  match kind with
  | .ingest => handle
  | .relocation number _ => handle.setStage number stage

/-- The state a group works on, out of the store and back. -/
def Store.group (store : Store) (handle : Handle) : GroupState :=
  { index := store.index, directory := store.directory, writer := handle.writer,
    leader := handle.leader }

def Store.withGroup (store : Store) (handle : Handle) (group : GroupState) : Store :=
  { store with
    index := group.index
    directory := group.directory
    handle := some { handle with writer := group.writer, leader := group.leader } }

section
variable (hashBlock : Bytes → RawHash) (limits : GroupCommitLimits) (segments : Nat)

/-- The distinct blocks of a group, in the order they first come. -/
def uniqueFrames : List Bytes → List RecordFrame → List RecordFrame
  | [], unique => unique
  | block :: blocks, unique =>
    if unique.any fun frame => frame.hash = hashBlock block then uniqueFrames blocks unique
    else uniqueFrames blocks (unique ++ [⟨hashBlock block, block⟩])

/-- A group of blocks, less those the index already has. -/
def beginPut (index : BlockIndex) (blocks : List Bytes) (addedAt : Int) : Leader :=
  let unique := uniqueFrames hashBlock blocks []
  let toWrite := unique.filter fun frame => (index.lookup frame.hash).isNone
  let found := unique.filter fun frame => (index.lookup frame.hash).isSome
  { kind := .ingest, addedAt := addedAt, answered := found.map RecordFrame.hash
    phase := if toWrite.isEmpty then .answer else .layOut toWrite [] [] }

def stepLeader (store : Store) (handle : Handle) (leader : Leader) : Event → Option Store
  | .layOut outcome =>
    match leader.phase with
    | .layOut (frame :: rest) batches sealed =>
      ((store.group handle).layOut limits leader frame rest batches sealed outcome).map
        fun group =>
          store.withGroup
            (if group.leader.isNone then handle.relocated leader.kind .ended else handle) group
    | _ => none
  | .advance =>
    let goOn := fun phase => some (store.withGroup handle
      { store.group handle with leader := some { leader with phase := phase } })
    match leader.phase with
    | .layOut [] batches sealed => goOn (.append [] batches sealed)
    | .append done [] sealed => goOn (.sync [] done sealed)
    | .sync done [] sealed => goOn (.record done sealed)
    | _ => none
  | .append results =>
    match leader.phase with
    | .append done (batch :: rest) sealed =>
      ((store.group handle).append segments leader done batch rest sealed results).map
        (store.withGroup handle)
    | _ => none
  | .sync synced =>
    match leader.phase with
    | .sync done (batch :: rest) sealed =>
      some (store.withGroup handle ((store.group handle).sync leader done batch rest sealed synced))
    | _ => none
  | .record committed =>
    match leader.phase with
    | .record batches sealed =>
      some (store.withGroup handle ((store.group handle).record leader batches sealed committed))
    | _ => none
  | .undo outcome =>
    match leader.phase with
    | .undo (batch :: rest) survivor =>
      some (store.withGroup handle
        ((store.group handle).rollBackOne leader batch rest survivor outcome))
    | _ => none
  | .finish =>
    match leader.phase with
    | .undo [] survivor =>
      some { store with handle := some { handle.relocated leader.kind .ended with
        leader := none, writer := { handle.writer with active := survivor } } }
    | .answer =>
      some { store with
        handle := some { handle.relocated leader.kind .turn with leader := none }
        owed :=
          match leader.kind with
          | .ingest => store.owed ++ leader.answered
          | .relocation _ _ => store.owed }
    | _ => none
  | _ => none

def stepUnled (store : Store) (handle : Handle) : Event → Option Store
  | .put blocks addedAt =>
    some { store with
      handle := some { handle with leader := some (beginPut hashBlock store.index blocks addedAt) }
      submitted := store.submitted ++ blocks }
  | .sealActive committed =>
    handle.writer.active.map fun active =>
      { store with
        index :=
          if committed then store.index.setSegmentState active.segmentId .sealed
          else store.index
        handle := some { handle with writer := { handle.writer with active := none } } }
  | .relocate number addedAt =>
    match handle.compactions[number]? with
    | some { source, stage := .relocate (copy :: copies), .. }
    | some { source, stage := .page [] _ (copy :: copies), .. } =>
      some { store with handle := some { handle.setStage number .relocating with
        leader := some
          { kind := .relocation number [source], addedAt := addedAt, answered := []
            phase := .layOut (copy :: copies) [] [] } } }
    | _ => none
  | _ => none

def stepCompaction (store : Store) (handle : Handle) (number : Nat) (compaction : Compaction) :
    Event → Option Store
  | .page _ =>
    match compaction.stage with
    | .turn =>
      let live := store.index.liveBlocksInSegment compaction.source compaction.cursor
        relocationBatchBlocks
      match live.getLast? with
      | none => some { store with handle := some (handle.setStage number .retire) }
      | some last =>
        some { store with handle := some (handle.setCompaction number
          { compaction with
            cursor := some last.recordOffset
            stage := .page live (.unresolved readTries) [] }) }
    | .page [] _ [] => some { store with handle := some (handle.setStage number .turn) }
    | _ => none
  | .resolve _ =>
    match compaction.stage with
    | .page (row :: rest) (.unresolved tries) copies =>
      match tries, store.index.lookup row.hash with
      | tries + 1, some location =>
        some { store with handle := some (handle.setStage number
          (.page (row :: rest) (.located location tries) copies)) }
      | _, _ =>
        some { store with handle := some (handle.setStage number
          (.page rest (.unresolved readTries) copies)) }
    | _ => none
  | .readBlock _ cached =>
    match compaction.stage with
    | .page (row :: rest) (.located location tries) copies =>
      let suspect := some { store with handle := some (handle.setStage number
        (.page (row :: rest) (.suspect location tries) copies)) }
      if location.segmentId ∈ store.directory.names ∨ cached then
        match readRecordPayload (store.directory.file location.segmentId).bytes location
            row.hash with
        | .ok payload =>
          if hashBlock payload = row.hash then
            let copies := copies ++ [⟨row.hash, payload⟩]
            if relocationBatchBytes ≤ (copies.map fun copy => copy.payload.length).sum then
              some { store with handle := some (handle.setCompaction number
                { compaction with
                  cursor := some row.recordOffset, stage := .relocate copies }) }
            else
              some { store with handle := some (handle.setStage number
                (.page rest (.unresolved readTries) copies)) }
          else
            some { store with
              index := store.index.removeBlocks [row.hash, row.hash]
              handle := some (handle.setStage number
                (.page rest (.unresolved readTries) copies)) }
        | .error _ => suspect
      else suspect
    | _ => none
  | .recheck _ =>
    match compaction.stage with
    | .page (row :: rest) (.suspect location tries) copies =>
      if store.index.lookup row.hash = some location then
        some { store with
          index := store.index.removeBlocks [row.hash, row.hash]
          handle := some (handle.setStage number
            (.page rest (.unresolved readTries) copies)) }
      else
        some { store with handle := some (handle.setStage number
          (.page (row :: rest) (.unresolved tries) copies)) }
    | _ => none
  | .retire _ committed =>
    match compaction.stage with
    | .retire =>
      some { store with
        index :=
          if committed then store.index.retireEmptySegment compaction.source
          else store.index
        handle := some (handle.setStage number .ended) }
    | _ => none
  | .abandonCompaction _ =>
    match compaction.stage with
    | .relocating => none
    | _ => some { store with handle := some (handle.setStage number .ended) }
  | _ => none

def Handle.setReclaim (handle : Handle) (number : Nat) (reclaim : Reclaim) : Handle :=
  { handle with reclaims := handle.reclaims.set number reclaim }

def stepReclaim (store : Store) (handle : Handle) (number : Nat) (reclaim : Reclaim) :
    Event → Option Store
  | .unlink _ removed =>
    match reclaim.rest, reclaim.unlinked with
    | segmentId :: rest, false =>
      if segmentId ∉ store.directory.names then
        some { store with handle := some (handle.setReclaim number
          { reclaim with unlinked := true }) }
      else if removed then
        some { store with
          directory := store.directory.removePath segmentId
          handle := some (handle.setReclaim number { reclaim with unlinked := true }) }
      else
        some { store with handle := some (handle.setReclaim number
          { reclaim with rest := rest }) }
    | _, _ => none
  | .forget _ committed =>
    match reclaim.rest, reclaim.unlinked with
    | segmentId :: rest, true =>
      if committed then
        some { store with
          index := store.index.forgetSegment segmentId
          handle := some (handle.setReclaim number
            { rest := rest, unlinked := false, removed := reclaim.removed + 1 }) }
      else
        some { store with handle := some (handle.setReclaim number
          { rest := [], unlinked := false, removed := 0 }) }
    | _, _ => none
  | .syncReclaim _ =>
    match reclaim.rest, reclaim.removed with
    | [], _ + 1 =>
      some { store with
        directory := store.directory.sync
        handle := some (handle.setReclaim number { reclaim with removed := 0 }) }
    | _, _ => none
  | _ => none

def stepOpen (store : Store) (handle : Handle) : Event → Option Store
  | .remove hashes =>
    some { store with
      index := store.index.removeBlocks hashes
      owed := store.owed.filter fun hash => hash ∉ hashes
      handle := some { handle with leader := handle.leader.map fun leader =>
        { leader with answered := leader.answered.filter fun hash => hash ∉ hashes } } }
  | .compact segmentId =>
    match store.index.segment segmentId with
    | some row =>
      if row.state = .active then none
      else some { store with handle := some { handle with
        compactions := handle.compactions ++
          [{ source := segmentId, cursor := none, stage := .turn }] } }
    | none => none
  | .reclaim =>
    some { store with handle := some { handle with
      reclaims := handle.reclaims ++
        [{ rest := (store.index.segments.filter fun row => row.state = .retired).map
             SegmentRow.segmentId
           unlinked := false, removed := 0 }] } }
  | event@(.page number) | event@(.resolve number) | event@(.readBlock number _)
  | event@(.recheck number) | event@(.retire number _) | event@(.abandonCompaction number) =>
    match handle.compactions[number]? with
    | some compaction => stepCompaction hashBlock store handle number compaction event
    | none => none
  | event@(.unlink number _) | event@(.forget number _) | event@(.syncReclaim number) =>
    match handle.reclaims[number]? with
    | some reclaim => stepReclaim store handle number reclaim event
    | none => none
  | event =>
    match handle.leader with
    | some leader => stepLeader limits segments store handle leader event
    | none => stepUnled hashBlock store handle event

def step (store : Store) : Event → Option Store
  | .crash found stagedFound =>
    if Survives store.directory found stagedFound then
      some { store with
        directory := .afterCrash found stagedFound
        handle := none }
    else none
  | .recover removable stageRemovable =>
    match store.handle with
    | some _ => none
    | none =>
      let recovered := recover removable stageRemovable store.index store.directory
      some { store with
        index := recovered.1.index
        directory := recovered.1.directory
        handle := some
          { writer := { active := none, nextSegmentId := recovered.2 }, leader := none
            compactions := [], reclaims := [] } }
  | event =>
    match store.handle with
    | some handle => stepOpen hashBlock limits segments store handle event
    | none => none

end

end Yadorilink.Segments
