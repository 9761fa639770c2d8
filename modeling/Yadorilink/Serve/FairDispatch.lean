import Yadorilink.Foundation.KeyedQueues
import Yadorilink.Foundation.Machine
import Yadorilink.Foundation.Stages

/-! The dispatch queue of block serving. A few requests are served at once; the others wait in a
queue for each peer and group, and a slot that comes free goes to the key with the least bytes
granted so far. A slot is handed over through a channel whose receiver may be dropped at any
time. -/

namespace Yadorilink.FairDispatch

open KeyedQueues

/-! ## The state -/

/-- A peer and a group. -/
structure ServeKey where
  peerId : String
  groupId : String
deriving DecidableEq

/-- One queued request. The sender of its channel leads to the call that waits. -/
structure DispatchWaiter where
  id : Nat
  cost : Nat
  call : Nat
deriving DecidableEq

structure FairDispatchState where
  waiters : List (ServeKey × List DispatchWaiter)
  /-- The bytes granted to each key; a key without an entry counts as `0`. -/
  bytesGranted : List (ServeKey × Nat)
  active : Nat
  waiting : Nat
  nextWaiterId : Nat
deriving DecidableEq

def FairDispatchState.new : FairDispatchState := ⟨[], [], 0, 0, 0⟩

/-- Where an `acquire` call and its guard stand. -/
inductive CallStage where
  /-- The call waits for the channel. -/
  | queued
  /-- The guard is in the channel. -/
  | granted
  /-- The call has the guard, and has yet to drop its `WaiterCancelGuard`. -/
  | received
  /-- The caller has the guard. -/
  | held
  /-- The receiver was dropped with the guard in the channel, which is being dropped. -/
  | dropping
  /-- The receiver was dropped; the `WaiterCancelGuard` has yet to be. -/
  | closing
  | ended
deriving DecidableEq

/-- An `acquire` call, with its waiter's id if it was queued. -/
structure Call where
  key : ServeKey
  id : Option Nat
  stage : CallStage
deriving DecidableEq

def Call.hasGuard (call : Call) : Bool :=
  call.stage = .granted || call.stage = .received || call.stage = .held || call.stage = .dropping

/-! ## Bytes granted -/

def grantedTo (bytesGranted : List (ServeKey × Nat)) (key : ServeKey) : Nat :=
  ((bytesGranted.find? fun entry => entry.1 = key).map Prod.snd).getD 0

/-- Adds to the entry of a key, which is made if there is none. -/
def charge (bytesGranted : List (ServeKey × Nat)) (key : ServeKey) (bytes : Nat) :
    List (ServeKey × Nat) :=
  if bytesGranted.any fun entry => entry.1 = key then
    bytesGranted.map fun entry => if entry.1 = key then (entry.1, entry.2 + bytes) else entry
  else
    bytesGranted ++ [(key, bytes)]

def rebase (bytesGranted : List (ServeKey × Nat)) : List (ServeKey × Nat) :=
  match (bytesGranted.map Prod.snd).min? with
  | none => bytesGranted
  | some least =>
    if 0 < least then bytesGranted.map fun entry => (entry.1, entry.2 - least)
    else bytesGranted

/-- The first of the keys with the least bytes granted. -/
def leastGranted (bytesGranted : List (ServeKey × Nat)) : List ServeKey → Option ServeKey
  | [] => none
  | key :: rest =>
    match leastGranted bytesGranted rest with
    | none => some key
    | some other =>
      if grantedTo bytesGranted other < grantedTo bytesGranted key then some other
      else some key

/-! ## Waking the next waiter -/

inductive Woken where
  /-- Nobody waits. -/
  | idle (state : FairDispatchState)
  | granted (state : FairDispatchState) (key : ServeKey) (waiter : DispatchWaiter)
  /-- The count of waiters ran below zero, or the loop does not end. -/
  | faulted
deriving DecidableEq

/-- The receiver of the call's channel is there, and the channel empty. -/
def receiving (calls : List Call) (call : Nat) : Bool :=
  calls[call]?.any fun found => found.stage = .queued

/-- The loop that looks for a waiter to hand the slot to; `order` is the order in which the map of
queues lists its keys. -/
def wakeNext (calls : List Call) (order : List ServeKey) : Nat → FairDispatchState → Woken
  | 0, _ => .faulted
  | turns + 1, state =>
    match leastGranted state.bytesGranted
        (order.filter fun key => state.waiters.any fun entry => entry.1 = key) with
    | none => .idle state
    | some key =>
      match queueAt state.waiters key with
      | [] => wakeNext calls order turns state
      | waiter :: rest =>
        if state.waiting = 0 then .faulted
        else if receiving calls waiter.call then
          .granted { state with
            waiters := setQueue state.waiters key rest
            waiting := state.waiting - 1
            active := state.active + 1
            bytesGranted := rebase (charge state.bytesGranted key (max waiter.cost 1)) }
            key waiter
        -- The guard comes back from the channel and is forgotten.
        else wakeNext calls order turns { state with
          waiters := setQueue state.waiters key rest
          waiting := state.waiting - 1 }

/-- Takes the waiter of the given id out of its queue, if it is still there. -/
def cancelWaiter (state : FairDispatchState) (key : ServeKey) (id : Nat) :
    Option FairDispatchState :=
  if (queueAt state.waiters key).any fun waiter => waiter.id = id then
    if state.waiting = 0 then none
    else some { state with
      waiters := setQueue state.waiters key
        ((queueAt state.waiters key).eraseP fun waiter => waiter.id = id)
      waiting := state.waiting - 1 }
  else some state

/-! ## Steps -/

/-- The queue, the calls made so far, what was granted from the queue, and whether a call or a drop
panicked or did not end. -/
structure World where
  fair : FairDispatchState
  calls : List Call
  grants : List (ServeKey × DispatchWaiter)
  faulted : Bool
deriving DecidableEq

def World.start : World := ⟨.new, [], [], false⟩

inductive Event where
  | acquire (key : ServeKey) (cost : Nat)
  /-- The call looks at its channel. -/
  | poll (call : Nat)
  /-- The call drops its `WaiterCancelGuard` and gives the guard to its caller. -/
  | finish (call : Nat)
  /-- The call is dropped, and with it the receiver of its channel. -/
  | cancel (call : Nat)
  /-- The `WaiterCancelGuard` of a dropped call is dropped. -/
  | unregister (call : Nat)
  /-- A guard is dropped. -/
  | release (call : Nat) (order : List ServeKey)
deriving DecidableEq

structure Limits where
  maxActive : Nat
  maxWaiting : Nat

structure ServeBusy where
  retryAfterMs : Nat
  queueDepth : Nat
deriving DecidableEq

def defaultRetryAfterMs : Nat := 150

def acquire (limits : Limits) (world : World) (key : ServeKey) (cost : Nat) :
    Except ServeBusy World :=
  if world.fair.active < limits.maxActive then
    .ok { world with
      fair := { world.fair with
        active := world.fair.active + 1
        bytesGranted := charge world.fair.bytesGranted key (max cost 1) }
      calls := world.calls ++ [⟨key, none, .held⟩] }
  else if limits.maxWaiting ≤ world.fair.waiting then
    .error ⟨defaultRetryAfterMs, world.fair.waiting % 2 ^ 32⟩
  else
    .ok { world with
      fair := { world.fair with
        waiters := setQueue world.fair.waiters key
          (queueAt world.fair.waiters key ++ [⟨world.fair.nextWaiterId, cost, world.calls.length⟩])
        waiting := world.fair.waiting + 1
        nextWaiterId := world.fair.nextWaiterId + 1 }
      calls := world.calls ++ [⟨key, some world.fair.nextWaiterId, .queued⟩] }

def World.setStage (world : World) (number : Nat) (call : Call) (stage : CallStage) : World :=
  { world with calls := world.calls.set number { call with stage := stage } }

def releaseAndWakeNext (world : World) (order : List ServeKey) : World :=
  if world.fair.active = 0 then { world with faulted := true }
  else
    match wakeNext world.calls order (total world.fair.waiters + 1)
        { world.fair with active := world.fair.active - 1 } with
    | .idle fair => { world with fair }
    | .faulted => { world with faulted := true }
    | .granted fair key waiter =>
      match world.calls[waiter.call]? with
      | none => { world with faulted := true }
      | some call =>
        { world with fair, grants := world.grants ++ [(key, waiter)] }.setStage waiter.call call
          .granted

/-- The sender of the call's channel is in the queue. -/
def World.hasSender (world : World) (number : Nat) (call : Call) : Bool :=
  (queueAt world.fair.waiters call.key).any fun waiter => waiter.call = number

def World.unregister (world : World) (call : Call) : World :=
  match call.id with
  | none => world
  | some id =>
    match cancelWaiter world.fair call.key id with
    | none => { world with faulted := true }
    | some fair => { world with fair }

def stepCall (world : World) (number : Nat) (call : Call) : Event → Option World
  | .poll _ =>
    match call.stage with
    | .queued =>
      some (if world.hasSender number call then world else { world with faulted := true })
    | .granted => some (world.setStage number call .received)
    | _ => none
  | .finish _ =>
    match call.stage with
    | .received => some ((world.unregister call).setStage number call .held)
    | _ => none
  | .cancel _ =>
    match call.stage with
    | .queued => some (world.setStage number call .closing)
    | .granted => some (world.setStage number call .dropping)
    | _ => none
  | .unregister _ =>
    match call.stage with
    | .closing => some ((world.unregister call).setStage number call .ended)
    | _ => none
  | .release _ order =>
    if order.Perm (world.fair.waiters.map Prod.fst) then
      match call.stage with
      | .held => some (releaseAndWakeNext (world.setStage number call .ended) order)
      | .dropping => some (releaseAndWakeNext (world.setStage number call .closing) order)
      | _ => none
    else none
  | .acquire _ _ => none

def Event.call : Event → Nat
  | .acquire _ _ => 0
  | .poll call => call
  | .finish call => call
  | .cancel call => call
  | .unregister call => call
  | .release call _ => call

def step (limits : Limits) (world : World) (event : Event) : Option World :=
  match event with
  | .acquire key cost =>
    match acquire limits world key cost with
    | .ok next => some next
    | .error _ => some world
  | _ => world.calls[event.call]?.bind fun call => stepCall world event.call call event

end Yadorilink.FairDispatch
