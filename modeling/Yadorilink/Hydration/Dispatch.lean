import Yadorilink.Hydration.BlockFetch

/-! Fetching the blocks of a file from several peers at once. Lanes take blocks from one shared queue,
fetch them, and hand them to tickets that make them durable; they take their steps in any order. -/

namespace Yadorilink.Hydration

open Chunking (BlockInfo)

abbrev PeerId := String

/-! ## The work queue -/

abbrev Instant := Nat

def timeoutBackoffBase : Nat := 1000000000

def timeoutBackoffCap : Nat := 8000000000

/-- The delay after this many timeouts in a row, before it is jittered by a quarter of it. -/
def backedOff (consecutiveTimeouts : Nat) : Nat :=
  min (timeoutBackoffBase * 2 ^ min (consecutiveTimeouts - 1) 20) timeoutBackoffCap

def isBackoffDelay (consecutiveTimeouts delay : Nat) : Bool :=
  decide (3 * backedOff consecutiveTimeouts ≤ 4 * delay) &&
    decide (4 * delay ≤ 5 * backedOff consecutiveTimeouts)

structure Backoff where
  hash : Bytes
  peerId : PeerId
  notBefore : Instant
  consecutiveTimeouts : Nat

/-- The blocks still to fetch, and per block the peers that have tried it. -/
structure BlockWorkQueue where
  queue : List BlockInfo
  triedBy : List (Bytes × PeerId)
  exhausted : List BlockInfo
  outstanding : Nat
  timeoutBackoff : List Backoff

namespace BlockWorkQueue

def new (blocks : List BlockInfo) : BlockWorkQueue :=
  ⟨blocks, [], [], 0, []⟩

variable (work : BlockWorkQueue)

def alreadyTried (peerId : PeerId) (block : BlockInfo) : Bool :=
  work.triedBy.contains (block.hash, peerId)

def backoffOf (hash : Bytes) (peerId : PeerId) : Option Backoff :=
  work.timeoutBackoff.find? fun backoff => backoff.hash == hash && backoff.peerId == peerId

def coolingDown (peerId : PeerId) (now : Instant) (block : BlockInfo) : Bool :=
  (work.backoffOf block.hash peerId).any fun backoff => decide (now < backoff.notBefore)

end BlockWorkQueue

/-- Looks at the blocks of the queue in turn: the first the peer may try is taken, the others go to
the back. -/
def popLoop (peerId : PeerId) (now : Instant) :
    Nat → BlockWorkQueue → Option BlockInfo × BlockWorkQueue
  | 0, work => (none, work)
  | turns + 1, work =>
    match work.queue with
    | [] => (none, work)
    | block :: rest =>
      if work.alreadyTried peerId block || work.coolingDown peerId now block then
        popLoop peerId now turns { work with queue := rest ++ [block] }
      else
        (some block, { work with queue := rest, outstanding := work.outstanding + 1 })

namespace BlockWorkQueue

variable (work : BlockWorkQueue)

def popFor (peerId : PeerId) (now : Instant) : Option BlockInfo × BlockWorkQueue :=
  popLoop peerId now work.queue.length work

def hasOutstanding : Bool :=
  decide (0 < work.outstanding)

def hasPendingBackoff (now : Instant) : Bool :=
  work.timeoutBackoff.any fun backoff => decide (now < backoff.notBefore)

def resolveFetched : BlockWorkQueue :=
  { work with outstanding := work.outstanding - 1 }

def markNotFound (block : BlockInfo) (peerId : PeerId) (allCandidates : List PeerId) :
    BlockWorkQueue :=
  let tried := (block.hash, peerId) :: work.triedBy
  if allCandidates.all fun candidate => tried.contains (block.hash, candidate) then
    { work with
      outstanding := work.outstanding - 1
      triedBy := tried
      exhausted := work.exhausted ++ [block] }
  else
    { work with
      outstanding := work.outstanding - 1
      triedBy := tried
      queue := work.queue ++ [block] }

def timeoutsOf (block : BlockInfo) (peerId : PeerId) : Nat :=
  ((work.backoffOf block.hash peerId).map Backoff.consecutiveTimeouts).getD 0 + 1

def markTimedOut (block : BlockInfo) (peerId : PeerId) (now : Instant) (delay : Nat) :
    BlockWorkQueue :=
  { work with
    outstanding := work.outstanding - 1
    timeoutBackoff :=
      ⟨block.hash, peerId, now + delay, work.timeoutsOf block peerId⟩ ::
        work.timeoutBackoff.filter fun backoff =>
          !(backoff.hash == block.hash && backoff.peerId == peerId)
    queue := work.queue ++ [block] }

def remaining : List BlockInfo :=
  work.queue ++ work.exhausted

/-- A block whose guard is dropped goes back to the queue. -/
def requeueAfterWorkerPanic (block : BlockInfo) : BlockWorkQueue :=
  { work with outstanding := work.outstanding - 1, queue := work.queue ++ [block] }

end BlockWorkQueue

/-! ## The dispatch -/

/-- A peer with a session. The window of a session is never below one. -/
structure Candidate where
  peerId : PeerId
  fetchWindow : Nat
  fetchWindow_pos : 0 < fetchWindow

abbrev Lane := PeerId × Nat

/-- A fetched block that is being made durable. -/
structure Ticket where
  lane : Lane
  block : BlockInfo
  data : Bytes
  deriving DecidableEq

inductive BlockDispatchFatal where
  | storage
  | provenance
  | workerTask
  deriving DecidableEq

inductive PersistOutcome where
  | durable
  | storageFailed
  | storageTaskFailed
  | provenanceFailed
  | provenanceTaskFailed
  deriving DecidableEq

/-- What a peer's attempt at a block was, where it ended the fetch. -/
structure Answer where
  hash : Bytes
  peerId : PeerId
  attempt : Attempt

/-- The lanes at the head of their loop and those with a block, and the tickets handed off. `store`
and `provenance` are what this device holds; `answers` is for the record. -/
structure Dispatch where
  work : BlockWorkQueue
  polling : List Lane
  fetching : List (Lane × BlockInfo)
  tickets : List Ticket
  store : List Bytes
  provenance : List Bytes
  fatal : Option BlockDispatchFatal
  clock : Instant
  answers : List Answer

inductive DispatchEvent where
  /-- A lane looks for work. The clock is read once to pop, and again for the cooldowns. -/
  | poll (lane : Lane) (now later : Instant)
  /-- A fetch ends: these attempts were made, within the timeout of the block. -/
  | fetched (lane : Lane) (block : BlockInfo) (attempts : List Attempt) (now : Instant)
      (delay : Nat)
  | persisted (ticket : Ticket) (outcome : PersistOutcome)

def durabilityPipelineDepth : Nat := 8

def durabilityPipelineBytes : Nat := 8 * 1024 * 1024

def lanesOf (candidates : List Candidate) : List Lane :=
  candidates.flatMap fun candidate =>
    (List.range candidate.fetchWindow).map fun number => (candidate.peerId, number)

namespace Dispatch

def start (blocks : List BlockInfo) (candidates : List Candidate) (store provenance : List Bytes)
    (clock : Instant) : Dispatch :=
  ⟨.new blocks, if blocks.isEmpty || candidates.isEmpty then [] else lanesOf candidates, [], [],
    store, provenance, none, clock, []⟩

variable (dispatch : Dispatch)

/-- The lane has settled its tickets to inside both bounds. -/
def insideBounds (lane : Lane) : Bool :=
  let tickets := dispatch.tickets.filter fun ticket => ticket.lane == lane
  decide (tickets.length < durabilityPipelineDepth) &&
    decide ((tickets.map fun ticket => ticket.data.length).sum < durabilityPipelineBytes)

def leave (lane : Lane) (clock : Instant) : Dispatch :=
  { dispatch with polling := dispatch.polling.erase lane, clock }

def poll (lane : Lane) (now later : Instant) : Dispatch :=
  if dispatch.fatal.isSome then
    dispatch.leave lane later
  else
    match (dispatch.work.popFor lane.1 now).1 with
    | some block =>
      { dispatch with
        work := (dispatch.work.popFor lane.1 now).2
        polling := dispatch.polling.erase lane
        fetching := (lane, block) :: dispatch.fetching
        clock := later }
    | none =>
      if (dispatch.work.popFor lane.1 now).2.hasOutstanding ||
          (dispatch.work.popFor lane.1 now).2.hasPendingBackoff later then
        { dispatch with work := (dispatch.work.popFor lane.1 now).2, clock := later }
      else
        -- The queue is empty for this peer, with nothing outstanding or cooling down.
        { dispatch.leave lane later with work := (dispatch.work.popFor lane.1 now).2 }

def back (lane : Lane) (block : BlockInfo) (now : Instant) (answers : List Answer) : Dispatch :=
  { dispatch with
    polling := lane :: dispatch.polling
    fetching := dispatch.fetching.erase (lane, block)
    clock := now
    answers := answers ++ dispatch.answers }

def recordOf (codec : Codec) (block : BlockInfo) (peerId : PeerId) (attempts : List Attempt) :
    List Answer :=
  (codec.endedBy block.hash 1 attempts).toList.map fun attempt => ⟨block.hash, peerId, attempt⟩

def fetched (codec : Codec) (allCandidates : List PeerId) (lane : Lane) (block : BlockInfo)
    (attempts : List Attempt) (now : Instant) (delay : Nat) : Option Dispatch :=
  let back := dispatch.back lane block now (recordOf codec block lane.1 attempts)
  match codec.fetchBlockSized block.hash attempts with
  | some (some data) =>
    if codec.blockDataMatches block data then
      some { back with tickets := ⟨lane, block, data⟩ :: dispatch.tickets }
    else
      some { back with work := dispatch.work.markNotFound block lane.1 allCandidates }
  | some none => some { back with work := dispatch.work.markNotFound block lane.1 allCandidates }
  | none =>
    if isBackoffDelay (dispatch.work.timeoutsOf block lane.1) delay then
      some { back with work := dispatch.work.markTimedOut block lane.1 now delay }
    else
      none

/-- The first local failure is kept, and the block goes back to the queue. -/
def failed (ticket : Ticket) (error : BlockDispatchFatal) : Dispatch :=
  { dispatch with
    work := dispatch.work.requeueAfterWorkerPanic ticket.block
    tickets := dispatch.tickets.erase ticket
    fatal := some (dispatch.fatal.getD error) }

def persisted (ticket : Ticket) : PersistOutcome → Dispatch
  | .durable => { dispatch with
      work := dispatch.work.resolveFetched
      tickets := dispatch.tickets.erase ticket
      store := ticket.data :: dispatch.store
      provenance := ticket.block.hash :: dispatch.provenance }
  | .storageFailed => dispatch.failed ticket .storage
  | .storageTaskFailed => dispatch.failed ticket .workerTask
  | .provenanceFailed =>
    { dispatch.failed ticket .provenance with store := ticket.data :: dispatch.store }
  | .provenanceTaskFailed =>
    { dispatch.failed ticket .workerTask with store := ticket.data :: dispatch.store }

def step (codec : Codec) (allCandidates : List PeerId) (dispatch : Dispatch) :
    DispatchEvent → Option Dispatch
  | .poll lane now later =>
    if lane ∈ dispatch.polling ∧ dispatch.insideBounds lane = true ∧ dispatch.clock ≤ now ∧
        now ≤ later then
      some (dispatch.poll lane now later)
    else
      none
  | .fetched lane block attempts now delay =>
    if (lane, block) ∈ dispatch.fetching ∧ dispatch.clock ≤ now then
      dispatch.fetched codec allCandidates lane block attempts now delay
    else
      none
  | .persisted ticket outcome =>
    if ticket ∈ dispatch.tickets then some (dispatch.persisted ticket outcome) else none

/-- What the call returns once every lane has left and every ticket is settled. -/
def returned : Option (Except BlockDispatchFatal (List BlockInfo)) :=
  if dispatch.polling.isEmpty && dispatch.fetching.isEmpty && dispatch.tickets.isEmpty then
    some (match dispatch.fatal with
      | some error => .error error
      | none => .ok dispatch.work.remaining)
  else
    none

/-! ## The property and the condition -/

/-- Every candidate's answer to the block was definitive. -/
def AnsweredByAll (codec : Codec) (candidates : List Candidate) (block : BlockInfo) : Prop :=
  ∀ candidate ∈ candidates, ∃ answer ∈ dispatch.answers, answer.hash = block.hash ∧
    answer.peerId = candidate.peerId ∧ codec.definitive block answer.attempt = true

def StoredWithProvenance (codec : Codec) (block : BlockInfo) : Prop :=
  (∃ data ∈ dispatch.store, codec.blockDataMatches block data = true) ∧
    block.hash ∈ dispatch.provenance

/-- A lane that leaves passes over a block it has not tried, whose cooldown ends between the two
readings of the clock. -/
def missesCooldown (lane : Lane) (now later : Instant) : Bool :=
  dispatch.fatal.isNone && (dispatch.work.popFor lane.1 now).1.isNone &&
    !dispatch.work.hasOutstanding && !dispatch.work.hasPendingBackoff later &&
    dispatch.work.queue.any fun block => !dispatch.work.alreadyTried lane.1 block

/-- A fetch is not ended by silence, a broken stream or a busy answer, and no lane leaves at a
cooldown's end. -/
def conclusive (codec : Codec) : DispatchEvent → Bool
  | .poll lane now later => !dispatch.missesCooldown lane now later
  | .fetched _ block attempts _ _ =>
    (codec.endedBy block.hash 1 attempts).all fun attempt => !attempt.inconclusive block.hash
  | .persisted _ _ => true

end Dispatch

end Yadorilink.Hydration
