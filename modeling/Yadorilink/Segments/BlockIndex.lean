import Yadorilink.Segments.Format

/-! The block index: which blocks the store holds, in which segment and where, and what is live
in each segment. Each function that changes it is one transaction. -/

namespace Yadorilink.Segments

inductive SegmentState where
  | active
  | sealed
  | retired
  deriving DecidableEq, Repr

/-- What is live in a segment: blocks, payload bytes and record bytes. -/
@[ext] structure Tally where
  blocks : Int
  payloadBytes : Int
  recordBytes : Int
  deriving DecidableEq, Repr

def Tally.zero : Tally := ⟨0, 0, 0⟩

def Tally.add (first second : Tally) : Tally :=
  ⟨first.blocks + second.blocks, first.payloadBytes + second.payloadBytes,
    first.recordBytes + second.recordBytes⟩

def Tally.sub (first second : Tally) : Tally :=
  ⟨first.blocks - second.blocks, first.payloadBytes - second.payloadBytes,
    first.recordBytes - second.recordBytes⟩

def Tally.one (payloadLen recordLen : Nat) : Tally := ⟨1, payloadLen, recordLen⟩

structure SegmentRow where
  segmentId : Nat
  state : SegmentState
  durableEnd : Nat
  live : Tally
  deriving DecidableEq, Repr

structure BlockRow where
  hash : RawHash
  segmentId : Nat
  recordOffset : Nat
  payloadLen : Nat
  recordLen : Nat
  addedAt : Int
  deriving DecidableEq

def BlockRow.location (row : BlockRow) : BlockLocation :=
  { segmentId := row.segmentId, recordOffset := row.recordOffset, length := row.payloadLen }

def BlockRow.tally (row : BlockRow) : Tally := Tally.one row.payloadLen row.recordLen

/-- A block a group is about to record. -/
structure NewBlockRow where
  hash : RawHash
  recordOffset : Nat
  payloadLen : Nat
  recordLen : Nat
  addedAt : Int
  deriving DecidableEq

def NewBlockRow.inSegment (segmentId : Nat) (block : NewBlockRow) : BlockRow :=
  { hash := block.hash, segmentId := segmentId, recordOffset := block.recordOffset,
    payloadLen := block.payloadLen, recordLen := block.recordLen, addedAt := block.addedAt }

/-- What one group appended to a single segment. -/
structure SegmentAppend where
  segmentId : Nat
  created : Bool
  durableEnd : Nat
  blocks : List NewBlockRow
  deriving DecidableEq

structure GroupCommitPlan where
  appends : List SegmentAppend
  sealed : List Nat
  nextSegmentId : Nat
  deriving DecidableEq

structure RelocationPlan where
  group : GroupCommitPlan
  sources : List Nat
  deriving DecidableEq

/-- The tables. `nextSegmentId` is the recorded watermark, once there is one. -/
structure BlockIndex where
  segments : List SegmentRow
  blocks : List BlockRow
  nextSegmentId : Option Nat
  deriving DecidableEq

def BlockIndex.empty : BlockIndex := { segments := [], blocks := [], nextSegmentId := none }

/-! ## Queries -/

def BlockIndex.lookupRow (index : BlockIndex) (hash : RawHash) : Option BlockRow :=
  index.blocks.find? fun row => row.hash = hash

def BlockIndex.lookup (index : BlockIndex) (hash : RawHash) : Option BlockLocation :=
  (index.lookupRow hash).map BlockRow.location

def BlockIndex.segment (index : BlockIndex) (segmentId : Nat) : Option SegmentRow :=
  index.segments.find? fun row => row.segmentId = segmentId

def greatest (least : Nat) (numbers : List Nat) : Nat := numbers.foldl max least

def BlockIndex.recordedNextSegmentId (index : BlockIndex) : Nat :=
  greatest (index.nextSegmentId.getD 1) (index.segments.map fun row => row.segmentId + 1)

/-- Blocks outside `live` recorded at or before the cutoff. -/
def BlockIndex.sweepCandidates (index : BlockIndex) (live : List RawHash) (cutoffNanos : Int) :
    List RawHash :=
  ((index.blocks.filter fun row => row.addedAt ≤ cutoffNanos).map BlockRow.hash).filter
    fun hash => hash ∉ live

/-- Up to `limit` of a segment's blocks in record order, behind `afterOffset`. -/
def BlockIndex.liveBlocksInSegment (index : BlockIndex) (segmentId : Nat)
    (afterOffset : Option Nat) (limit : Nat) : List BlockRow :=
  ((index.blocks.filter fun row =>
      row.segmentId = segmentId && afterOffset.all fun offset => offset < row.recordOffset)
    |>.mergeSort fun first second => first.recordOffset ≤ second.recordOffset).take limit

/-! ## Segment rows -/

def BlockIndex.updateSegment (index : BlockIndex) (segmentId : Nat)
    (change : SegmentRow → SegmentRow) : BlockIndex :=
  { index with segments := index.segments.map fun row =>
      if row.segmentId = segmentId then change row else row }

def BlockIndex.setSegmentState (index : BlockIndex) (segmentId : Nat) (state : SegmentState) :
    BlockIndex :=
  index.updateSegment segmentId fun row => { row with state := state }

/-- A segment rolled over is sealed if it is still the active one. -/
def BlockIndex.sealSegment (index : BlockIndex) (segmentId : Nat) : BlockIndex :=
  index.updateSegment segmentId fun row =>
    if row.state = .active then { row with state := .sealed } else row

def SegmentRow.retireEmpty (row : SegmentRow) : SegmentRow :=
  if row.live.blocks = 0 ∧ row.state ≠ .active then { row with state := .retired } else row

/-- Retires a segment that holds nothing live and is not the active one. -/
def BlockIndex.retireEmptySegment (index : BlockIndex) (segmentId : Nat) : BlockIndex :=
  index.updateSegment segmentId SegmentRow.retireEmpty

def BlockIndex.debit (index : BlockIndex) (segmentId : Nat) (tally : Tally) : BlockIndex :=
  index.updateSegment segmentId fun row => { row with live := row.live.sub tally }

/-- A segment's new durable end, with what was added to it. -/
def BlockIndex.credit (index : BlockIndex) (segmentId durableEnd : Nat) (tally : Tally) :
    BlockIndex :=
  index.updateSegment segmentId fun row =>
    { row with durableEnd := durableEnd, live := row.live.add tally }

/-- The row of a segment this group created, unless there is one. -/
def BlockIndex.insertSegment (index : BlockIndex) (segmentId : Nat) : BlockIndex :=
  if index.segments.any fun row => row.segmentId = segmentId then index
  else { index with segments := index.segments ++
    [{ segmentId := segmentId, state := .active, durableEnd := segmentHeaderLen,
       live := Tally.zero }] }

/-! ## Group commit -/

/-- Inserts the rows of blocks that are not mapped yet, with what was inserted. -/
def insertNewBlocks (segmentId : Nat) : List BlockRow → List NewBlockRow → List BlockRow × Tally
  | rows, [] => (rows, Tally.zero)
  | rows, block :: blocks =>
    if rows.any fun row => row.hash = block.hash then insertNewBlocks segmentId rows blocks
    else
      let inserted := insertNewBlocks segmentId (rows ++ [block.inSegment segmentId]) blocks
      (inserted.1, (Tally.one block.payloadLen block.recordLen).add inserted.2)

def BlockIndex.openSegment (index : BlockIndex) (append : SegmentAppend) : BlockIndex :=
  if append.created then index.insertSegment append.segmentId else index

def BlockIndex.applyAppend (index : BlockIndex) (append : SegmentAppend) : BlockIndex :=
  let opened := index.openSegment append
  let inserted := insertNewBlocks append.segmentId opened.blocks append.blocks
  { opened with blocks := inserted.1 }.credit append.segmentId append.durableEnd inserted.2

def BlockIndex.sealAll (index : BlockIndex) (sealed : List Nat) : BlockIndex :=
  sealed.foldl BlockIndex.sealSegment index

def BlockIndex.commitGroup (index : BlockIndex) (plan : GroupCommitPlan) : BlockIndex :=
  { plan.appends.foldl BlockIndex.applyAppend (index.sealAll plan.sealed) with
    nextSegmentId := some plan.nextSegmentId }

/-! ## Relocation -/

/-- The row of a block that was copied, pointed at the copy. -/
def BlockRow.follow (segmentId : Nat) (block : NewBlockRow) (row : BlockRow) : BlockRow :=
  if row.hash = block.hash then
    { row with segmentId := segmentId, recordOffset := block.recordOffset }
  else row

/-- Points a mapped block at its copy and debits the segment it was in; a block deleted in the
meantime stays deleted. -/
def BlockIndex.repointBlock (segmentId : Nat) (index : BlockIndex) (block : NewBlockRow) :
    BlockIndex × Tally :=
  match index.lookupRow block.hash with
  | none => (index, Tally.zero)
  | some source =>
    let moved := Tally.one block.payloadLen block.recordLen
    ({ index with blocks := index.blocks.map (BlockRow.follow segmentId block) }.debit
      source.segmentId moved, moved)

def BlockIndex.repointRelocatedBlocks (segmentId : Nat) :
    BlockIndex → List NewBlockRow → BlockIndex × Tally
  | index, [] => (index, Tally.zero)
  | index, block :: blocks =>
    let first := index.repointBlock segmentId block
    let rest := BlockIndex.repointRelocatedBlocks segmentId first.1 blocks
    (rest.1, first.2.add rest.2)

def BlockIndex.applyRelocation (index : BlockIndex) (append : SegmentAppend) : BlockIndex :=
  let moved := BlockIndex.repointRelocatedBlocks append.segmentId (index.openSegment append)
    append.blocks
  moved.1.credit append.segmentId append.durableEnd moved.2

def BlockIndex.commitRelocation (index : BlockIndex) (plan : RelocationPlan) : BlockIndex :=
  let moved := plan.group.appends.foldl BlockIndex.applyRelocation
    (index.sealAll plan.group.sealed)
  { plan.sources.foldl BlockIndex.retireEmptySegment moved with
    nextSegmentId := some plan.group.nextSegmentId }

/-! ## Removal -/

def BlockIndex.removeBlock (index : BlockIndex) (hash : RawHash) : BlockIndex :=
  match index.lookupRow hash with
  | none => index
  | some found =>
    { index with blocks := index.blocks.filter fun row => row.hash ≠ hash }.debit
      found.segmentId found.tally

def BlockIndex.removeBlocks (index : BlockIndex) (hashes : List RawHash) : BlockIndex :=
  hashes.foldl BlockIndex.removeBlock index

/-- Drops every mapping into a segment whose file is gone. -/
def BlockIndex.dropSegmentMappings (index : BlockIndex) (segmentId : Nat) : BlockIndex :=
  { index with blocks := index.blocks.filter fun row => row.segmentId ≠ segmentId }.updateSegment
    segmentId fun row => { row with live := Tally.zero }

def tallyIn (segmentId : Nat) : List BlockRow → Tally
  | [] => Tally.zero
  | row :: rows =>
    if row.segmentId = segmentId then row.tally.add (tallyIn segmentId rows)
    else tallyIn segmentId rows

/-- Drops the mappings whose records no longer fit in the file, and counts again what is left. -/
def BlockIndex.repairSegmentToLength (index : BlockIndex) (segmentId fileLen : Nat) :
    BlockIndex :=
  let left := index.blocks.filter fun row =>
    ¬(row.segmentId = segmentId ∧ fileLen < row.recordOffset + row.recordLen)
  let ends := (left.filter fun row => row.segmentId = segmentId).map fun row =>
    row.recordOffset + row.recordLen
  { index with blocks := left }.updateSegment segmentId fun row =>
    { row with
      live := tallyIn segmentId left
      durableEnd := if ends.isEmpty then segmentHeaderLen else greatest 0 ends }

/-- Forgets a retired segment once its file is gone. -/
def BlockIndex.forgetSegment (index : BlockIndex) (segmentId : Nat) : BlockIndex :=
  { index with
    blocks := index.blocks.filter fun row => row.segmentId ≠ segmentId
    segments := index.segments.filter fun row => row.segmentId ≠ segmentId }

end Yadorilink.Segments
