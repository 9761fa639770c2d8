import Yadorilink.Foundation.Lists
import Yadorilink.Foundation.Machine
import Yadorilink.Foundation.Stages

/-! The stop and drain gate of a root lease. An operation is admitted by an increment between two
looks at the stop flag, and may take the increment back; a drain waits for the count to be zero,
listening before it looks. Each step is one access to a shared variable, in any order. -/

namespace Yadorilink.RootAuthority

open Machine Stages List Option

/-! ## The lease -/

/-- How far a call of `begin_operation` has come, and what became of its operation. -/
inductive CallStage where
  | called
  /-- The first look saw no stop. -/
  | passed
  | counted
  /-- The second look saw no stop; the root's identity is checked next. -/
  | rechecked
  /-- Its increment is about to be taken back. -/
  | undoing
  | admitted
  /-- The release brought the count to zero and has not woken the waiters yet. -/
  | notifying
  | refused
  /-- The increment is taken back: by the call itself, or by the operation's drop. -/
  | released
deriving DecidableEq

/-- Whether the stage has an increment of the count to its name. -/
def CallStage.holds : CallStage → Bool
  | .counted | .rechecked | .undoing | .admitted => true
  | _ => false

/-- Whether the stage is an operation, or becomes one without another look at the flag. -/
def CallStage.enters : CallStage → Bool
  | .rechecked | .admitted => true
  | _ => false

/-- How far a call of `wait_drained` has come in its loop. -/
inductive WaiterStage where
  | looping
  /-- The `Notified` future is enabled: a wake-up reaches it from here on. -/
  | listening (notified : Bool)
  /-- The count was not zero; the future is awaited next. -/
  | busy (notified : Bool)
  | parked
  | returned
  | cancelled
deriving DecidableEq

/-- Whether the call goes on only when it is woken. -/
def WaiterStage.waits : WaiterStage → Bool
  | .busy false | .parked => true
  | _ => false

def WaiterStage.woken : WaiterStage → WaiterStage
  | .listening _ => .listening true
  | .busy _ => .busy true
  | .parked => .looping
  | stage => stage

/-- A call of `wait_drained`, and whether the lease was stopping when it was made. -/
structure Waiter where
  afterStop : Bool
  stage : WaiterStage
deriving DecidableEq

structure Lease where
  stopping : Bool
  active : Int
  calls : List CallStage
  waiters : List Waiter
deriving DecidableEq

/-- One access of one party. The parties are numbered in the order of their calls. -/
inductive Event where
  | beginOperation
  | load (call : Nat)
  | increment (call : Nat)
  | recheck (call : Nat)
  /-- Whether the root lock still owns its root. -/
  | verify (call : Nat) (owns : Bool)
  /-- The decrement of a call that takes its increment back. -/
  | undo (call : Nat)
  /-- The decrement of an operation's drop. -/
  | drop (call : Nat)
  | notifyWaiters (call : Nat)
  | beginStopping
  | waitDrained
  | listen (waiter : Nat)
  | check (waiter : Nat)
  | await (waiter : Nat)
  /-- The future is dropped before it is ready. -/
  | cancel (waiter : Nat)

namespace Lease

def new : Lease := ⟨false, 0, [], []⟩

def setCall (lease : Lease) (call : Nat) (stage : CallStage) : Lease :=
  { lease with calls := lease.calls.set call stage }

def setWaiter (lease : Lease) (waiter : Nat) (stage : Waiter) : Lease :=
  { lease with waiters := lease.waiters.set waiter stage }

/-- The decrement of `release`: the waiters are to be woken if the count was one. -/
def release (lease : Lease) (call : Nat) : Lease :=
  { lease with active := lease.active - 1 }.setCall call
    (if lease.active = 1 then .notifying else .released)

def wake (lease : Lease) : Lease :=
  { lease with waiters := lease.waiters.map fun waiter =>
      { waiter with stage := waiter.stage.woken } }

/-- One step of the call numbered `call`, which is in the stage `stage`. -/
def stepCall (lease : Lease) (call : Nat) : Event → CallStage → Option Lease
  | .load _, .called => some (lease.setCall call (if lease.stopping then .refused else .passed))
  | .increment _, .passed =>
    some ({ lease with active := lease.active + 1 }.setCall call .counted)
  | .recheck _, .counted =>
    some (lease.setCall call (if lease.stopping then .undoing else .rechecked))
  | .verify _ owns, .rechecked => some (lease.setCall call (if owns then .admitted else .undoing))
  | .undo _, .undoing => some (lease.release call)
  | .drop _, .admitted => some (lease.release call)
  | .notifyWaiters _, .notifying => some (lease.wake.setCall call .released)
  | _, _ => none

def stepWaiter (lease : Lease) (number : Nat) (waiter : Waiter) : Event → Option Lease
  | .listen _ =>
    if waiter.stage = .looping then
      some (lease.setWaiter number { waiter with stage := .listening false })
    else none
  | .check _ =>
    match waiter.stage with
    | .listening notified =>
      some (lease.setWaiter number { waiter with
        stage := if lease.active = 0 then .returned else .busy notified })
    | _ => none
  | .await _ =>
    match waiter.stage with
    | .busy notified =>
      some (lease.setWaiter number { waiter with
        stage := if notified then .looping else .parked })
    | _ => none
  | .cancel _ =>
    if waiter.stage = .parked then
      some (lease.setWaiter number { waiter with stage := .cancelled })
    else none
  | _ => none

def step (lease : Lease) (event : Event) : Option Lease :=
  match event with
  | .beginOperation => some { lease with calls := lease.calls ++ [.called] }
  | .beginStopping => some { lease with stopping := true }
  | .waitDrained => some { lease with waiters := lease.waiters ++ [⟨lease.stopping, .looping⟩] }
  | .load call | .increment call | .recheck call | .verify call _ | .undo call | .drop call
  | .notifyWaiters call => (lease.calls[call]?).bind (lease.stepCall call event)
  | .listen number | .check number | .await number | .cancel number =>
    (lease.waiters[number]?).bind fun waiter => lease.stepWaiter number waiter event

/-! ## What the lease keeps -/

/-- The invariant of every interleaving. -/
structure Sound (lease : Lease) : Prop where
  /-- The count is the increments not taken back. -/
  active : lease.active = lease.calls.countP CallStage.holds
  /-- Whoever waits to be woken will be. -/
  waits : ∀ waiter ∈ lease.waiters, waiter.stage.waits = true →
    0 < lease.active ∨ .notifying ∈ lease.calls
  stopping : ∀ waiter ∈ lease.waiters, waiter.afterStop = true → lease.stopping = true
  /-- Behind a drain nothing enters. -/
  drained : ∀ waiter ∈ lease.waiters, waiter.afterStop = true → waiter.stage = .returned →
    ∀ stage ∈ lease.calls, stage.enters = false

theorem sound_new : new.Sound where
  active := rfl
  waits := by
    intro waiter member
    cases member
  stopping := by
    intro waiter member
    cases member
  drained := by
    intro waiter member
    cases member

variable {lease next : Lease} {call : Nat} {old stage : CallStage} {event : Event}

/-- A call moves on. What it does to the count is what it gains or gives up, and it enters only
while nothing stops it. -/
theorem Sound.move (sound : lease.Sound) (found : lease.calls[call]? = some old) {count : Int}
    (counts : count + (if old.holds then 1 else 0) = lease.active + if stage.holds then 1 else 0)
    (quiet : old ≠ .notifying)
    (announces : 0 < lease.active → 0 < count ∨ stage = .notifying)
    (enters : stage.enters = true → old.enters = true ∨ lease.stopping = false) :
    ({ lease with active := count }.setCall call stage).Sound where
  active := by
    have moved := @countP_set _ _ _ _ stage found CallStage.holds
    have before := sound.active
    change count = ((lease.calls.set call stage).countP CallStage.holds : Nat)
    have whole : (((lease.calls.set call stage).countP CallStage.holds : Nat) : Int) +
        (if old.holds then 1 else 0) =
        (lease.calls.countP CallStage.holds : Nat) + if stage.holds then 1 else 0 := by
      exact_mod_cast moved
    linarith
  waits := by
    intro waiter member waiting
    rcases sound.waits waiter member waiting with positive | notifies
    · rcases announces positive with still | rfl
      · exact .inl still
      · exact .inr (mem_set_self found)
    · exact .inr (mem_set_of_ne found notifies quiet.symm)
  stopping := sound.stopping
  drained := by
    intro waiter member late ended
    have shut := sound.drained waiter member late ended
    apply forall_set shut
    cases entering : stage.enters with
    | false => rfl
    | true =>
      rcases enters entering with entered | open_
      · rw [shut old (mem_of_getElem? found)] at entered
        cases entered
      · rw [sound.stopping waiter member late] at open_
        cases open_

theorem Sound.release (sound : lease.Sound) (found : lease.calls[call]? = some old)
    (holds : old.holds = true) : (lease.release call).Sound := by
  have positive : 0 < lease.calls.countP CallStage.holds :=
    countP_pos_iff.mpr ⟨old, mem_of_getElem? found, holds⟩
  have counted := sound.active
  have quiet : old ≠ .notifying := by
    rintro rfl
    cases holds
  by_cases last : lease.active = 1
  · have moved := @Sound.move lease call old .notifying sound found (lease.active - 1)
      (by rw [if_pos holds, if_neg (by decide)]; omega) quiet (fun _ => .inr rfl)
      (by simp [CallStage.enters])
    rwa [Lease.release, if_pos last]
  · have moved := @Sound.move lease call old .released sound found (lease.active - 1)
      (by rw [if_pos holds, if_neg (by decide)]; omega) quiet (fun _ => .inl (by omega))
      (by simp [CallStage.enters])
    rwa [Lease.release, if_neg last]

theorem WaiterStage.waits_woken (stage : WaiterStage) : stage.woken.waits = false := by
  cases stage <;> rfl

theorem WaiterStage.woken_returned {stage : WaiterStage} (ended : stage.woken = .returned) :
    stage = .returned := by
  cases stage with
  | returned => rfl
  | looping => cases ended
  | listening notified => cases ended
  | busy notified => cases ended
  | parked => cases ended
  | cancelled => cases ended

theorem Sound.notify (sound : lease.Sound) (found : lease.calls[call]? = some .notifying) :
    (lease.wake.setCall call .released).Sound where
  active := by
    have moved := @countP_set _ _ _ _ .released found CallStage.holds
    have before := sound.active
    change lease.active = ((lease.calls.set call .released).countP CallStage.holds : Nat)
    simp only [CallStage.holds, Bool.false_eq_true, if_false] at moved
    omega
  waits := by
    intro waiter member waiting
    rcases mem_map.mp member with ⟨sleeper, _, rfl⟩
    rw [WaiterStage.waits_woken] at waiting
    cases waiting
  stopping := by
    intro waiter member late
    rcases mem_map.mp member with ⟨sleeper, there, rfl⟩
    exact sound.stopping sleeper there late
  drained := by
    intro waiter member late ended
    rcases mem_map.mp member with ⟨sleeper, there, rfl⟩
    exact forall_set
      (sound.drained sleeper there late (WaiterStage.woken_returned ended)) rfl

theorem Sound.stepCall (sound : lease.Sound) (found : lease.calls[call]? = some old)
    (taken : lease.stepCall call event old = some next) : next.Sound := by
  -- Of the pairs of an event and a stage only those of the source's order step at all.
  cases event <;> cases old <;> cases taken
  case load.called.refl =>
    cases halted : lease.stopping with
    | true => exact sound.move found (by rfl) (by decide) .inl (by simp [CallStage.enters])
    | false => exact sound.move found (by rfl) (by decide) .inl (by simp [CallStage.enters])
  case increment.passed.refl =>
    exact sound.move found (by simp [CallStage.holds]) (by decide) (fun _ => .inl (by omega))
      (by simp [CallStage.enters])
  case recheck.counted.refl =>
    cases halted : lease.stopping with
    | true => exact sound.move found (by rfl) (by decide) .inl (by simp [CallStage.enters])
    | false => exact sound.move found (by rfl) (by decide) .inl (fun _ => .inr halted)
  case verify.rechecked.refl owns =>
    cases owns with
    | true => exact sound.move found (by rfl) (by decide) .inl (fun _ => .inl rfl)
    | false => exact sound.move found (by rfl) (by decide) .inl (by simp [CallStage.enters])
  case undo.undoing.refl => exact sound.release found rfl
  case drop.admitted.refl => exact sound.release found rfl
  case notifyWaiters.notifying.refl => exact sound.notify found

variable {number : Nat} {waiter : Waiter}

theorem Sound.moveWaiter {moved : WaiterStage} (sound : lease.Sound)
    (found : lease.waiters[number]? = some waiter)
    (waits : moved.waits = true → waiter.stage.waits = true ∨ lease.active ≠ 0)
    (returns : moved = .returned → lease.active = 0) :
    (lease.setWaiter number { waiter with stage := moved }).Sound := by
  have there := mem_of_getElem? found
  have counted := sound.active
  constructor
  · exact sound.active
  · apply forall_set sound.waits
    intro waiting
    rcases waits waiting with before | busy
    · exact sound.waits waiter there before
    · left
      omega
  · exact forall_set sound.stopping fun late => sound.stopping waiter there late
  · apply forall_set sound.drained
    intro late ended stage member
    -- With a count of zero no call has an increment, so none can be entering.
    have empty : lease.calls.countP CallStage.holds = 0 := by
      have zero := returns ended
      omega
    have idle := countP_eq_zero.mp empty stage member
    cases stage <;> first | rfl | exact absurd rfl idle

theorem Sound.stepWaiter (sound : lease.Sound) (found : lease.waiters[number]? = some waiter)
    (taken : lease.stepWaiter number waiter event = some next) : next.Sound := by
  cases event with
  | listen _ =>
    simp only [Lease.stepWaiter] at taken
    split at taken
    · cases taken
      exact sound.moveWaiter found (by simp [WaiterStage.waits]) (by simp)
    · cases taken
  | check _ =>
    simp only [Lease.stepWaiter] at taken
    split at taken
    · cases taken
      by_cases zero : lease.active = 0
      · rw [if_pos zero]
        exact sound.moveWaiter found (by simp [WaiterStage.waits]) (fun _ => zero)
      · rw [if_neg zero]
        exact sound.moveWaiter found (fun _ => .inr zero) (by simp)
    · cases taken
  | await _ =>
    simp only [Lease.stepWaiter] at taken
    split at taken
    · rename_i notified busy
      cases taken
      cases notified with
      | true => exact sound.moveWaiter found (by simp [WaiterStage.waits]) (by simp)
      | false =>
        exact sound.moveWaiter found (fun _ => .inl (by rw [busy]; rfl)) (by simp)
    · cases taken
  | cancel _ =>
    simp only [Lease.stepWaiter] at taken
    split at taken
    · cases taken
      exact sound.moveWaiter found (by simp [WaiterStage.waits]) (by simp)
    · cases taken
  | _ => cases taken

theorem Sound.beginOperation (sound : lease.Sound) :
    ({ lease with calls := lease.calls ++ [.called] } : Lease).Sound where
  active := by
    rw [countP_append]
    exact sound.active
  waits := by
    intro waiter member waiting
    rcases sound.waits waiter member waiting with positive | notifies
    · exact .inl positive
    · exact .inr (mem_append_left _ notifies)
  stopping := sound.stopping
  drained := by
    intro waiter member late ended stage there
    rcases mem_append.mp there with old | new
    · exact sound.drained waiter member late ended stage old
    · cases mem_singleton.mp new
      rfl

theorem Sound.waitDrained (sound : lease.Sound) :
    ({ lease with waiters := lease.waiters ++ [⟨lease.stopping, .looping⟩] } : Lease).Sound := by
  have joined : ∀ {P : Waiter → Prop}, (∀ waiter ∈ lease.waiters, P waiter) →
      P ⟨lease.stopping, .looping⟩ →
      ∀ waiter ∈ lease.waiters ++ [⟨lease.stopping, .looping⟩], P waiter := by
    intro P all last waiter member
    rcases mem_append.mp member with old | new
    · exact all waiter old
    · cases mem_singleton.mp new
      exact last
  constructor
  · exact sound.active
  · exact joined sound.waits (by simp [WaiterStage.waits])
  · exact joined sound.stopping id
  · exact joined sound.drained (by simp)

theorem Sound.step (sound : lease.Sound) (taken : lease.step event = some next) : next.Sound := by
  cases event with
  | beginOperation =>
    cases taken
    exact sound.beginOperation
  | beginStopping =>
    cases taken
    exact { sound with stopping := fun _ _ _ => rfl }
  | waitDrained =>
    cases taken
    exact sound.waitDrained
  | load call | increment call | recheck call | verify call owns | undo call | drop call
  | notifyWaiters call =>
    rcases bind_eq_some_iff.mp taken with ⟨old, found, moved⟩
    exact sound.stepCall found moved
  | listen number | check number | await number | cancel number =>
    rcases bind_eq_some_iff.mp taken with ⟨waiter, found, moved⟩
    exact sound.stepWaiter found moved

theorem sound_run {events : List Event} (ran : run step new events = some lease) : lease.Sound :=
  invariant_run_always (fun _ _ _ sound taken => sound.step taken) sound_new ran

/-! ## Behind a drain -/

/-- Nothing is admitted, and nothing is past the look that would stop it. -/
def Shut (lease : Lease) : Prop :=
  lease.stopping = true ∧ ∀ stage ∈ lease.calls, stage.enters = false

theorem Sound.shut (sound : lease.Sound) {waiter : Waiter} (member : waiter ∈ lease.waiters)
    (late : waiter.afterStop = true) (ended : waiter.stage = .returned) : lease.Shut :=
  ⟨sound.stopping waiter member late, sound.drained waiter member late ended⟩

theorem Shut.stepCall (shut : lease.Shut) (found : lease.calls[call]? = some old)
    (taken : lease.stepCall call event old = some next) : next.Shut := by
  have outside := shut.2 old (mem_of_getElem? found)
  have halted := shut.1
  have kept : ∀ {stage : CallStage}, stage.enters = false →
      ∀ other ∈ lease.calls.set call stage, other.enters = false :=
    fun quiet => forall_set shut.2 quiet
  cases event <;> cases old <;> cases taken
  case load.called.refl => exact ⟨halted, kept (by rw [if_pos halted]; rfl)⟩
  case increment.passed.refl => exact ⟨halted, kept rfl⟩
  case recheck.counted.refl => exact ⟨halted, kept (by rw [if_pos halted]; rfl)⟩
  case verify.rechecked.refl => cases outside
  case undo.undoing.refl => exact ⟨halted, kept (by split <;> rfl)⟩
  case drop.admitted.refl => cases outside
  case notifyWaiters.notifying.refl => exact ⟨halted, kept rfl⟩

theorem stepWaiter_calls (taken : lease.stepWaiter number waiter event = some next) :
    next.stopping = lease.stopping ∧ next.calls = lease.calls := by
  cases event with
  | listen _ | check _ | await _ | cancel _ =>
    simp only [Lease.stepWaiter] at taken
    split at taken
    · cases taken
      exact ⟨rfl, rfl⟩
    · cases taken
  | _ => cases taken

theorem Shut.step (shut : lease.Shut) (taken : lease.step event = some next) : next.Shut := by
  cases event with
  | beginOperation =>
    cases taken
    refine ⟨shut.1, ?_⟩
    refine forall_mem_concat shut.2 ?_
    rfl
  | beginStopping =>
    cases taken
    exact ⟨rfl, shut.2⟩
  | waitDrained =>
    cases taken
    exact shut
  | load call | increment call | recheck call | verify call owns | undo call | drop call
  | notifyWaiters call =>
    rcases bind_eq_some_iff.mp taken with ⟨old, found, moved⟩
    exact shut.stepCall found moved
  | listen number | check number | await number | cancel number =>
    rcases bind_eq_some_iff.mp taken with ⟨waiter, _, moved⟩
    rcases stepWaiter_calls moved with ⟨stopping, calls⟩
    rw [Shut, stopping, calls]
    exact shut

/-! ## The drain -/

theorem countP_holds (calls : List CallStage) : calls.countP CallStage.holds =
    calls.countP (fun stage => decide (stage = .admitted)) + calls.countP (fun stage =>
        decide (stage = .counted ∨ stage = .rechecked ∨ stage = .undoing)) := by
  induction calls with
  | nil => rfl
  | cons stage calls induction =>
    rw [countP_cons, countP_cons, countP_cons, induction]
    cases stage <;> simp [CallStage.holds] <;> omega

/-- Once a drain that began behind the stop has returned there is no operation, and there never
will be one. The count is that of the operations and of the calls between their increment and
its undoing or their return, and nobody is left parked behind a count of zero. -/
theorem no_operation_outlives_drain {events : List Event} {lease : Lease}
    (ran : run step new events = some lease) :
    (∀ waiter ∈ lease.waiters, waiter.afterStop = true → waiter.stage = .returned →
      ∀ more later, run step lease more = some later → .admitted ∉ later.calls) ∧
      lease.active = lease.calls.countP (fun stage => decide (stage = .admitted)) +
        lease.calls.countP (fun stage =>
          decide (stage = .counted ∨ stage = .rechecked ∨ stage = .undoing)) ∧
      (lease.active = 0 → .notifying ∉ lease.calls →
        ∀ waiter ∈ lease.waiters, waiter.stage ≠ .parked) := by
  have sound := sound_run ran
  refine ⟨?_, ?_, ?_⟩
  · intro waiter member late ended more later further admitted
    have shut : later.Shut := invariant_run_always (fun _ _ _ shut taken => shut.step taken)
      (sound.shut member late ended) further
    have outside := shut.2 _ admitted
    cases outside
  · rw [sound.active, countP_holds]
    push_cast
    rfl
  · intro zero quiet waiter member parked
    rcases sound.waits waiter member (by rw [parked]; rfl) with positive | notifies
    · omega
    · exact quiet notifies

/-- One operation is admitted; the stop refuses a second call at its second look, and the drain
parks until the operation is dropped. -/
def stopBehindOne : List Event :=
  [.beginOperation, .load 0, .increment 0, .recheck 0, .verify 0 true, .beginOperation, .load 1,
    .increment 1, .beginStopping, .recheck 1, .undo 1, .waitDrained, .listen 0, .check 0, .await 0,
    .drop 0, .notifyWaiters 0, .listen 0, .check 0]

theorem drain_returns_behind_one : ∃ lease, run step new stopBehindOne = some lease ∧
      ⟨true, .returned⟩ ∈ lease.waiters ∧ .admitted ∉ lease.calls := by
  cases ran : run step new stopBehindOne with
  | none =>
    have ends : (run step new stopBehindOne).isSome = true := by decide
    rw [ran] at ends
    cases ends
  | some lease =>
    have waited : (run step new stopBehindOne).map (·.waiters) = some [⟨true, .returned⟩] := by
      decide
    rw [ran, Option.map_some, Option.some_inj] at waited
    have member : ⟨true, .returned⟩ ∈ lease.waiters := by
      rw [waited]
      exact List.mem_singleton_self _
    exact ⟨lease, rfl, member, (no_operation_outlives_drain ran).1 _ member rfl rfl [] lease rfl⟩

end Lease

end Yadorilink.RootAuthority
