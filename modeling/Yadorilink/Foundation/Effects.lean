import Yadorilink.Foundation.Transaction

/-! Work that may fail at any effect and keeps what it has done by then: what holds of the state
however the work ends. -/

namespace Yadorilink.Effects

universe u

variable {ε σ α β : Type u} {work : EStateM ε σ α}

/-- The state the work leaves, whether it succeeds or fails. -/
def after (work : EStateM ε σ α) (state : σ) : σ :=
  match work state with
  | .ok _ next => next
  | .error _ next => next

theorem after_of_ok {state next : σ} {value : α} (ran : work state = .ok value next) :
    after work state = next := by
  rw [after, ran]

theorem after_of_error {state next : σ} {failure : ε} (ran : work state = .error failure next) :
    after work state = next := by
  rw [after, ran]

def Keeps (kept : σ → Prop) (work : EStateM ε σ α) : Prop :=
  ∀ state, kept state → kept (after work state)

variable {kept : σ → Prop}

theorem keeps_pure (value : α) : Keeps kept (pure value : EStateM ε σ α) :=
  fun _ holds => holds

theorem keeps_throw (failure : ε) : Keeps kept (throw failure : EStateM ε σ α) :=
  fun _ holds => holds

theorem keeps_get : Keeps kept (get : EStateM ε σ σ) :=
  fun _ holds => holds

theorem Keeps.bind {next : α → EStateM ε σ β} (first : Keeps kept work)
    (second : ∀ value, Keeps kept (next value)) : Keeps kept (work >>= next) := by
  intro state holds
  have middle := first state holds
  cases ran : work state with
  | ok value reached =>
    rw [after_of_ok ran] at middle
    have same : after (work >>= next) state = after (next value) reached := by
      rw [after, Transaction.bind_apply, ran]
      rfl
    rw [same]
    exact second value reached middle
  | error failure reached =>
    rw [after_of_error ran] at middle
    rwa [after_of_error (by rw [Transaction.bind_apply, ran])]

theorem Keeps.tryCatch {handler : ε → EStateM ε σ α} (first : Keeps kept work)
    (second : ∀ failure, Keeps kept (handler failure)) : Keeps kept (tryCatch work handler) := by
  intro state holds
  have middle := first state holds
  have unfolded : (MonadExcept.tryCatch work handler : EStateM ε σ α) state =
      EStateM.tryCatch work handler state := rfl
  cases ran : work state with
  | ok value reached =>
    rw [after_of_ok ran] at middle
    rwa [after_of_ok (by rw [unfolded, EStateM.tryCatch, ran])]
  | error failure reached =>
    rw [after_of_error ran] at middle
    have same : after (MonadExcept.tryCatch work handler) state =
        after (handler failure) reached := by
      rw [after, unfolded, EStateM.tryCatch, ran]
      rfl
    rw [same]
    exact second failure reached middle

theorem Keeps.ok (keeps : Keeps kept work) {state next : σ} {value : α}
    (ran : work state = .ok value next) (holds : kept state) : kept next := by
  have ends := keeps state holds
  rwa [after_of_ok ran] at ends

end Yadorilink.Effects
