import Yadorilink.Foundation.Machine

/-! What holds between an earlier and a later state of a run. -/

namespace Yadorilink.Machine

universe u v

variable {σ : Type u} {ε : Type v} (step : σ → ε → Option σ)

/-- Any two states of the run are related, the earlier to the later. -/
def Throughout (related : σ → σ → Prop) (start : σ) (events : List ε) : Prop :=
  ∀ before middle after, events = before ++ middle ++ after →
    ∀ earlier later, run step start before = some earlier →
      run step earlier middle = some later → related earlier later

variable {step}

/-- Where any two states are related, an invariant may use that each step keeps the relation. -/
theorem invariant_of_throughout {related : σ → σ → Prop} {invariant : σ → Prop}
    (kept : ∀ state event next, invariant state → related state next →
      step state event = some next → invariant next)
    {start last : σ} {events : List ε} (holds : invariant start)
    (throughout : Throughout step related start events) (ran : run step start events = some last) :
    invariant last := by
  induction events generalizing start with
  | nil =>
    cases ran
    exact holds
  | cons event events induction =>
    obtain ⟨next, stepped, rest⟩ := run_cons ran
    have here : related start next := throughout [] [event] events rfl start next rfl (by
      rw [run, stepped]
      rfl)
    apply induction (kept start event next holds here stepped) _ rest
    intro before middle after split earlier later reached further
    apply throughout (event :: before) middle after (by rw [split]; rfl) earlier later _ further
    rw [run, stepped]
    exact reached

end Yadorilink.Machine
