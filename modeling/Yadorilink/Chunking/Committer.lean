import Yadorilink.Foundation.Machine

/-! The streaming chunkers: a producer that reads a file in blocks and hands them over in
batches, and a background worker that commits the batches to the block store. Each step is one
critical section or one call; the two take their steps in any order. -/

namespace Yadorilink.Chunking

/-- A block with the hash that was computed from its bytes. -/
structure LocallyHashedBlock where
  hash : List UInt8
  bytes : List UInt8
  deriving DecidableEq, Repr

structure BlockInfo where
  hash : List UInt8
  offset : Nat
  size : Nat
  deriving DecidableEq, Repr

/-- How many blocks are accumulated before they are handed over as one batch. -/
def bulkIngestBatchSize : Nat := 32

def batchBytes (batch : List LocallyHashedBlock) : Nat :=
  (batch.map fun block => block.bytes.length).sum

/-- Which of the two chunkers runs: content-defined boundaries, or blocks of one size. -/
inductive Chunker where
  | contentDefined
  | fixed (blockSize : Nat)
  deriving DecidableEq, Repr

/-- Where the producer goes on once a batch is submitted. -/
inductive Next where
  | top
  | ended
  | finishing
  deriving DecidableEq, Repr

/-- The producer's place in the scope body. -/
inductive Producer (E : Type) where
  /-- At the head of the loop. -/
  | top
  /-- The content-defined chunker has its next result in hand. -/
  | fetched (outcome : Except E (List UInt8))
  /-- The fixed-size chunker has looked at the stop flag and reads. -/
  | reading
  | submitting (batch : List LocallyHashedBlock) (next : Next)
  /-- Waiting on `not_full`. -/
  | blocked (batch : List LocallyHashedBlock) (next : Next)
  /-- Behind the loop, with the last blocks still pending. -/
  | ended
  | finishing
  /-- Inside `finish`, waiting for the worker to end. -/
  | joining
  /-- Out of the scope body; the scope itself still waits for the worker. -/
  | left (result : Except E Unit)
  | returned (result : Except E (List BlockInfo))

/-- The background worker's place in its loop. -/
inductive Worker where
  | checking
  /-- Waiting on `not_empty`. -/
  | parked
  | committing (batch : List LocallyHashedBlock)
  /-- The failed commit's error is kept, the stop flag not yet raised. -/
  | flagging (bytes : Nat)
  | releasing (bytes : Nat)
  | stopped
  deriving DecidableEq, Repr

/-- `reads` is what the file still has to give, in order; behind it comes its end. `store` is
what the block store has been handed, each batch with how its commit ended. -/
structure State (E : Type) where
  producer : Producer E
  worker : Worker
  reads : List (Except E (List UInt8))
  offset : Nat
  blocks : List BlockInfo
  pending : List LocallyHashedBlock
  queue : List (List LocallyHashedBlock)
  pendingBytes : Nat
  producerDone : Bool
  error : Option E
  stop : Bool
  store : List (List LocallyHashedBlock × Option E)

/-- `work` carries how the store's commit ends, which only a commit looks at. The last two are
wakeups no notification caused. -/
inductive Event (E : Type) where
  | produce
  | work (outcome : Option E)
  | wakeProducer
  | wakeWorker

variable {E : Type}

def Next.producer : Next → Producer E
  | .top => .top
  | .ended => .ended
  | .finishing => .finishing

def Worker.notified : Worker → Worker
  | .parked => .checking
  | worker => worker

def Producer.notified : Producer E → Producer E
  | .blocked batch next => .submitting batch next
  | producer => producer

/-- A read block is hashed, reported and kept for the next batch. -/
def State.accept (sha256 : List UInt8 → List UInt8) (state : State E) (bytes : List UInt8) :
    State E :=
  let prepared : LocallyHashedBlock := { hash := sha256 bytes, bytes := bytes }
  { state with
    blocks := state.blocks ++
      [{ hash := prepared.hash, offset := state.offset, size := bytes.length }]
    pending := state.pending ++ [prepared]
    offset := state.offset + bytes.length }

/-- A full batch is submitted before the producer goes on. -/
def State.submitFull (state : State E) (next : Next) : State E :=
  if bulkIngestBatchSize ≤ state.pending.length then
    { state with pending := [], producer := .submitting state.pending next }
  else { state with producer := next.producer }

def State.produce (chunker : Chunker) (sha256 : List UInt8 → List UInt8) (budget : Nat)
    (state : State E) : Option (State E) :=
  match state.producer with
  | .top =>
    match chunker with
    | .contentDefined =>
      match state.reads with
      | [] => some { state with producer := .ended }
      | outcome :: reads => some { state with producer := .fetched outcome, reads := reads }
    | .fixed _ => some { state with producer := if state.stop then .ended else .reading }
  | .fetched outcome =>
    if state.stop then some { state with producer := .ended }
    else
      match outcome with
      | .error error => some { state with producer := .left (.error error) }
      | .ok bytes => some ((state.accept sha256 bytes).submitFull .top)
  | .reading =>
    match state.reads with
    | [] => some { state with producer := .ended }
    | .error error :: reads =>
      some { state with producer := .left (.error error), reads := reads }
    | .ok bytes :: reads =>
      let state := { state with reads := reads }
      if bytes.isEmpty then some { state with producer := .ended }
      else
        match chunker with
        | .contentDefined => some ((state.accept sha256 bytes).submitFull .top)
        | .fixed blockSize =>
          some ((state.accept sha256 bytes).submitFull
            (if bytes.length < blockSize then .ended else .top))
  | .submitting batch next =>
    if budget < state.pendingBytes + batchBytes batch ∧ state.queue ≠ [] then
      some { state with producer := .blocked batch next }
    else
      some { state with
        pendingBytes := state.pendingBytes + batchBytes batch
        queue := state.queue ++ [batch]
        worker := state.worker.notified
        producer := next.producer }
  | .blocked _ _ => none
  | .ended =>
    if state.pending.isEmpty then some { state with producer := .finishing }
    else some { state with pending := [], producer := .submitting state.pending .finishing }
  | .finishing =>
    some { state with
      producerDone := true
      worker := state.worker.notified
      producer := .joining }
  | .joining =>
    if state.worker = .stopped then
      some { state with
        error := none
        producer := .left (match state.error with
          | some error => .error error
          | none => .ok ()) }
    else none
  | .left result =>
    if state.worker = .stopped then
      some { state with producer := .returned (result.map fun _ => state.blocks) }
    else none
  | .returned _ => none

def State.work (state : State E) (outcome : Option E) : Option (State E) :=
  match state.worker with
  | .checking =>
    match state.queue with
    | batch :: queue => some { state with queue := queue, worker := .committing batch }
    | [] =>
      if state.producerDone then some { state with worker := .stopped }
      else some { state with worker := .parked }
  | .parked => none
  | .committing batch =>
    let state := { state with store := state.store ++ [(batch, outcome)] }
    match outcome with
    | none => some { state with worker := .releasing (batchBytes batch) }
    | some error =>
      some { state with
        error := state.error.or (some error)
        worker := .flagging (batchBytes batch) }
  | .flagging bytes => some { state with stop := true, worker := .releasing bytes }
  | .releasing bytes =>
    some { state with
      pendingBytes := state.pendingBytes - bytes
      producer := state.producer.notified
      worker := .checking }
  | .stopped => none

def step (chunker : Chunker) (sha256 : List UInt8 → List UInt8) (budget : Nat)
    (state : State E) : Event E → Option (State E)
  | .produce => state.produce chunker sha256 budget
  | .work outcome => state.work outcome
  | .wakeProducer =>
    match state.producer with
    | .blocked batch next => some { state with producer := .submitting batch next }
    | _ => none
  | .wakeWorker =>
    if state.worker = .parked then some { state with worker := .checking } else none

/-- The state in which the worker has been spawned and nothing is read yet. -/
def start (reads : List (Except E (List UInt8))) : State E :=
  { producer := .top, worker := .checking, reads := reads, offset := 0, blocks := [],
    pending := [], queue := [], pendingBytes := 0, producerDone := false, error := none,
    stop := false, store := [] }

def Event.idle : Event E → Bool
  | .wakeProducer => true
  | .wakeWorker => true
  | _ => false

end Yadorilink.Chunking
