import Yadorilink.Foundation.LatestWins
import Yadorilink.Foundation.Machine

/-! The debouncer: raw filesystem events are gathered in a window, the window is handed on as a
batch, and batches wait in a queue until the executor takes them. -/

namespace Yadorilink.Debounce

open LatestWins

inductive FsChangeKind where
  | createdOrModified
  | observedRemoval
  deriving DecidableEq, Repr

/-- A raw event with the two clocks as they are read when it is taken from its channel. -/
structure FsChangeEvent (P : Type) where
  path : P
  kind : FsChangeKind
  now : Nat
  observedAtUnixNanos : Int
  deriving DecidableEq, Repr

/-- What is kept of an event: path, kind and time. `index` numbers the events in the order they
were received; no step looks at it. -/
structure Observation (P : Type) where
  path : P
  kind : FsChangeKind
  observedAtUnixNanos : Int
  index : Nat
  deriving DecidableEq, Repr

structure DebounceConfig where
  quietPeriod : Nat
  maxFlushInterval : Nat
  burstThreshold : Nat
  deriving DecidableEq, Repr

/-- The capacity of the executor's channel, and the depth of the queue beyond which queued
batches are merged. -/
def executorChannelCapacity : Nat := 8

inductive DebounceFlush (P : Type) where
  | paths (batch : List (Observation P))
  | rescanRequired
  deriving DecidableEq, Repr

/-- The accumulator's own state. The pending entries are a map, in no particular order. -/
inductive Window (P : Type) where
  | idle
  | accumulating (pending : List (Observation P)) (windowStartedAt lastEventAt : Nat)
  | bursting (windowStartedAt lastEventAt : Nat)
  deriving DecidableEq, Repr

inductive FlushMode where
  | exactPath
  | caseFoldSibling
  deriving DecidableEq, Repr

/-- What the lookup of a sibling takes of a path. -/
structure PathParts (P : Type) where
  parent : P → Option P
  fileName : P → Option String
  toLowercase : String → String

variable {P : Type} [DecidableEq P]

/-- Another name in the same directory that differs by case only. -/
def PathParts.isSibling (parts : PathParts P) (path candidate : P) : Bool :=
  candidate ≠ path && parts.parent candidate = parts.parent path &&
    (parts.fileName candidate).map parts.toLowercase = (parts.fileName path).map parts.toLowercase

/-! ## The queue -/

def DebounceFlush.entries : DebounceFlush P → List (Observation P)
  | .paths batch => batch
  | .rescanRequired => []

def DebounceFlush.isRescan : DebounceFlush P → Bool
  | .paths _ => false
  | .rescanRequired => true

/-- A finished window joins the queue; a queue at its bound is merged into one entry, which is a
rescan as soon as one is among them. -/
def pushReady (queue : List (DebounceFlush P)) (flush : DebounceFlush P) :
    List (DebounceFlush P) :=
  if executorChannelCapacity ≤ queue.length then
    if (queue ++ [flush]).any DebounceFlush.isRescan then [.rescanRequired]
    else [.paths (merge Observation.path ((queue ++ [flush]).flatMap DebounceFlush.entries))]
  else queue ++ [flush]

/-! ## The accumulator -/

def FsChangeEvent.observe (event : FsChangeEvent P) (index : Nat) : Observation P :=
  { path := event.path, kind := event.kind,
    observedAtUnixNanos := event.observedAtUnixNanos, index := index }

/-- A window with one more observation. At the threshold it is flushed early, as a batch. -/
def extendWindow (config : DebounceConfig) (pending : List (Observation P))
    (observation : Observation P) (windowStartedAt now : Nat) :
    Window P × Option (DebounceFlush P) :=
  let pending := upsert Observation.path pending observation
  if config.burstThreshold ≤ pending.length then (.idle, some (.paths pending))
  else (.accumulating pending windowStartedAt now, none)

def accumulateEvent (config : DebounceConfig) (index : Nat) (window : Window P)
    (event : FsChangeEvent P) : Window P × Option (DebounceFlush P) :=
  match window with
  | .idle => extendWindow config [] (event.observe index) event.now event.now
  | .accumulating pending windowStartedAt _ =>
    extendWindow config pending (event.observe index) windowStartedAt event.now
  | .bursting windowStartedAt _ => (.bursting windowStartedAt event.now, none)

/-- The debouncer with what it has been given and what it has given away. `sent` notes how many
events had been received when a flush was sent; `handed` is what requesters actually got. -/
structure Debouncer (P : Type) where
  window : Window P
  queue : List (DebounceFlush P)
  received : List P
  sent : List (DebounceFlush P × Nat)
  handed : List (Observation P)
  deriving DecidableEq

/-- One step of the loop. A request is serviced after the events that are ready in the channel;
`replyReceived` tells whether its requester still waits. `pick` stands for the order in which a
map is searched. -/
inductive Event (P : Type) where
  | overflow (now : Nat)
  | send
  | flushPath (path : P) (mode : FlushMode) (pick : Nat) (ready : List (FsChangeEvent P))
      (replyReceived : Bool)
  | flushAll (ready : List (FsChangeEvent P)) (replyReceived : Bool)
  | receive (event : FsChangeEvent P)
  | timer (now : Nat)

def Debouncer.queueFlush (debouncer : Debouncer P) : Option (DebounceFlush P) → Debouncer P
  | none => debouncer
  | some flush => { debouncer with queue := pushReady debouncer.queue flush }

def Debouncer.receive (config : DebounceConfig) (debouncer : Debouncer P)
    (event : FsChangeEvent P) : Debouncer P :=
  let folded := accumulateEvent config debouncer.received.length debouncer.window event
  Debouncer.queueFlush
    { debouncer with window := folded.1, received := debouncer.received ++ [event.path] } folded.2

def Debouncer.drainReadyEvents (config : DebounceConfig) (debouncer : Debouncer P)
    (ready : List (FsChangeEvent P)) : Debouncer P :=
  ready.foldl (Debouncer.receive config) debouncer

def takenEntry (parts : PathParts P) (path : P) (mode : FlushMode) (pick : Nat)
    (pending : List (Observation P)) : Option (Observation P) :=
  match mode with
  | .exactPath => pending.find? fun entry => entry.path = path
  | .caseFoldSibling =>
    let siblings := pending.filter fun entry => parts.isSibling path entry.path
    siblings[pick % siblings.length]?

def withoutTaken (pending : List (Observation P)) : Option (Observation P) → List (Observation P)
  | none => pending
  | some taken => pending.filter fun entry => entry.path ≠ taken.path

def windowOf (pending : List (Observation P)) (windowStartedAt lastEventAt : Nat) : Window P :=
  if pending.isEmpty then .idle else .accumulating pending windowStartedAt lastEventAt

/-- Answers a request for one path, out of the events already folded in. -/
def Debouncer.answerPath (parts : PathParts P) (debouncer : Debouncer P) (path : P)
    (mode : FlushMode) (pick : Nat) (replyReceived : Bool) : Debouncer P :=
  match debouncer.window with
  | .accumulating pending windowStartedAt lastEventAt =>
    let found := takenEntry parts path mode pick pending
    { debouncer with
      window := windowOf (withoutTaken pending found) windowStartedAt lastEventAt
      handed := debouncer.handed ++ if replyReceived then found.toList else [] }
  | _ => debouncer

def Debouncer.answerAll (debouncer : Debouncer P) (replyReceived : Bool) : Debouncer P :=
  match debouncer.window with
  | .accumulating pending _ _ =>
    { debouncer with
      window := .idle
      handed := debouncer.handed ++ if replyReceived then pending else [] }
  | _ => debouncer

/-- When the window's timer is due; an idle window has none. -/
def deadline (config : DebounceConfig) : Window P → Option Nat
  | .idle => none
  | .accumulating _ windowStartedAt lastEventAt =>
    some (min (lastEventAt + config.quietPeriod) (windowStartedAt + config.maxFlushInterval))
  | .bursting windowStartedAt lastEventAt =>
    some (min (lastEventAt + config.quietPeriod) (windowStartedAt + config.maxFlushInterval))

def step (config : DebounceConfig) (parts : PathParts P) (debouncer : Debouncer P) :
    Event P → Option (Debouncer P)
  | .overflow now => some { debouncer with window := .bursting now now }
  | .send =>
    match debouncer.queue with
    | [] => none
    | front :: queue =>
      some { debouncer with
        queue := queue, sent := debouncer.sent ++ [(front, debouncer.received.length)] }
  | .flushPath path mode pick ready replyReceived =>
    some ((debouncer.drainReadyEvents config ready).answerPath parts path mode pick replyReceived)
  | .flushAll ready replyReceived =>
    some ((debouncer.drainReadyEvents config ready).answerAll replyReceived)
  | .receive event => some (debouncer.receive config event)
  | .timer now =>
    match deadline config debouncer.window with
    | none => none
    | some due =>
      if due ≤ now then
        match debouncer.window with
        | .idle => some debouncer
        | .accumulating pending _ _ =>
          some { debouncer with
            window := .idle, queue := pushReady debouncer.queue (.paths pending) }
        | .bursting _ _ =>
          some { debouncer with
            window := .idle, queue := pushReady debouncer.queue .rescanRequired }
      else none

def start : Debouncer P :=
  { window := .idle, queue := [], received := [], sent := [], handed := [] }

end Yadorilink.Debounce
