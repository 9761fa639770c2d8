import Mathlib

/-! Runs of a machine that takes one event at a time, with the two rules most proofs about
runs are made of: an invariant that each step keeps, and a measure that bounds the steps. -/

namespace Yadorilink.Machine

universe u v

variable {σ : Type u} {ε : Type v} (step : σ → ε → Option σ)

/-- The state after the events, unless one of them cannot happen where it comes. -/
def run : σ → List ε → Option σ
  | state, [] => some state
  | state, event :: events => (step state event).bind fun next => run next events

/-- Each event of a run meets a condition on the state it comes in. -/
def Along (allowed : σ → ε → Prop) : σ → List ε → Prop
  | _, [] => True
  | state, event :: events =>
    allowed state event ∧ ∀ next, step state event = some next → Along allowed next events

variable {step}

theorem run_cons {state last : σ} {event : ε} {events : List ε}
    (ran : run step state (event :: events) = some last) :
    ∃ next, step state event = some next ∧ run step next events = some last :=
  Option.bind_eq_some_iff.mp ran

instance Along.decidable (allowed : σ → ε → Prop)
    [∀ state event, Decidable (allowed state event)] :
    (state : σ) → (events : List ε) → Decidable (Along step allowed state events)
  | _, [] => .isTrue trivial
  | state, event :: events =>
    match taken : step state event with
    | none => decidable_of_iff (allowed state event)
        ⟨fun here => ⟨here, fun next made => absurd (taken.symm.trans made) nofun⟩, And.left⟩
    | some next =>
      have := Along.decidable allowed next events
      decidable_of_iff (allowed state event ∧ Along step allowed next events)
        ⟨fun both => ⟨both.1, fun other made => by
          cases taken.symm.trans made
          exact both.2⟩, fun along => ⟨along.1, along.2 next taken⟩⟩

theorem run_append (state : σ) (first second : List ε) : run step state (first ++ second) =
      (run step state first).bind fun next => run step next second := by
  induction first generalizing state with
  | nil => rfl
  | cons event events induction =>
    rw [List.cons_append, run, run, Option.bind_assoc]
    congr 1
    funext next
    exact induction next

theorem invariant_run {allowed : σ → ε → Prop} {invariant : σ → Prop}
    (kept : ∀ state event next, invariant state → allowed state event →
      step state event = some next → invariant next)
    {state last : σ} {events : List ε} (holds : invariant state)
    (along : Along step allowed state events) (ran : run step state events = some last) :
    invariant last := by
  induction events generalizing state with
  | nil =>
    cases ran
    exact holds
  | cons event events induction =>
    obtain ⟨next, stepped, later⟩ := run_cons ran
    exact induction (kept state event next holds along.1 stepped) (along.2 next stepped) later

theorem invariant_run_always {invariant : σ → Prop}
    (kept : ∀ state event next, invariant state → step state event = some next → invariant next)
    {state last : σ} {events : List ε} (holds : invariant state)
    (ran : run step state events = some last) : invariant last := by
  induction events generalizing state with
  | nil =>
    cases ran
    exact holds
  | cons event events induction =>
    obtain ⟨next, stepped, later⟩ := run_cons ran
    exact induction (kept state event next holds stepped) later

/-- Where an idle event raises a measure by at most one and every other one lowers it, a run is
no longer than the measure and two steps for each idle event. -/
theorem length_run_le {measure : σ → Nat} {idle : ε → Bool}
    (lowers : ∀ state event next, step state event = some next →
      if idle event then measure next ≤ measure state + 1 else measure next < measure state)
    {state last : σ} {events : List ε} (ran : run step state events = some last) :
    events.length + measure last ≤ measure state + 2 * events.countP idle := by
  induction events generalizing state with
  | nil =>
    cases ran
    rw [List.length_nil, Nat.zero_add]
    exact Nat.le_add_right _ _
  | cons event events induction =>
    obtain ⟨next, stepped, later⟩ := run_cons ran
    have rest := induction later
    have here := lowers state event next stepped
    rw [List.length_cons, List.countP_cons]
    split at here
    · rename_i isIdle
      rw [if_pos isIdle]
      omega
    · rename_i notIdle
      rw [if_neg notIdle]
      omega

end Yadorilink.Machine
