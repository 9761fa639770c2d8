import Mathlib

/-! Database work as a computation that threads a state and may fail, keeping
what was written up to the failure. A transaction commits the state of a
computation that succeeded and rolls back the one that failed. -/

namespace Yadorilink.Transaction

universe u

variable {ε σ α β : Type u} {work : EStateM ε σ α} {state : σ}

def commit (work : EStateM ε σ α) (state : σ) : σ :=
  match work state with
  | .ok _ next => next
  | .error _ _ => state

/-- What the caller of a transaction around `work` is told. -/
def outcome (work : EStateM ε σ α) (state : σ) : Except ε α :=
  match work state with
  | .ok value _ => .ok value
  | .error failure _ => .error failure

theorem outcome_eq_ok_iff {value : α} :
    outcome work state = .ok value ↔ work state = .ok value (commit work state) := by
  unfold outcome commit
  cases work state with
  | ok found next => simp
  | error failure next => simp

theorem bind_apply (work : EStateM ε σ α) (next : α → EStateM ε σ β) (state : σ) :
    (work >>= next) state = match work state with
      | .ok value after => next value after
      | .error failure after => .error failure after := rfl

@[simp] theorem get_apply (state : σ) : (get : EStateM ε σ σ) state = .ok state state := rfl

@[simp] theorem pure_apply (value : α) (state : σ) :
    (pure value : EStateM ε σ α) state = .ok value state := rfl

@[simp] theorem throw_apply (failure : ε) (state : σ) :
    (throw failure : EStateM ε σ α) state = .error failure state := rfl

@[simp] theorem modify_apply {change : σ → σ} (state : σ) :
    (modify change : EStateM ε σ PUnit) state = .ok ⟨⟩ (change state) := rfl

theorem bind_eq_ok_iff {next : α → EStateM ε σ β} {final : σ} {result : β} :
    (work >>= next) state = .ok result final ↔
      ∃ value middle, work state = .ok value middle ∧ next value middle = .ok result final := by
  rw [bind_apply]
  cases work state with
  | ok value middle =>
    constructor
    · intro succeeded
      exact ⟨value, middle, rfl, succeeded⟩
    · rintro ⟨_, _, same, succeeded⟩
      cases same
      exact succeeded
  | error failure middle =>
    constructor
    · intro failed
      cases failed
    · rintro ⟨_, _, succeeded, _⟩
      cases succeeded

/-! ## Work that lets the state grow -/

section Growing

variable (kept : σ → Prop) (grows : σ → σ → Prop)

/-- `work` succeeds from `state`, keeps the invariant and lets the state only grow. -/
def Achieves (state : σ) (work : EStateM ε σ α) (result : α → σ → Prop) : Prop :=
  ∃ value after, work state = .ok value after ∧ grows state after ∧ kept after ∧ result value after

variable {kept grows}

theorem Achieves.pure {value : α} {result : α → σ → Prop} (refl : grows state state)
    (holds : kept state) (shown : result value state) :
    Achieves kept grows state (pure value : EStateM ε σ α) result :=
  ⟨value, state, rfl, refl, holds, shown⟩

theorem Achieves.bind {next : α → EStateM ε σ β} {middle : α → σ → Prop} {result : β → σ → Prop}
    (trans : ∀ first second third, grows first second → grows second third → grows first third)
    (first : Achieves kept grows state work middle)
    (second : ∀ value after, grows state after → kept after → middle value after →
      Achieves kept grows after (next value) result) :
    Achieves kept grows state (work >>= next) result := by
  rcases first with ⟨value, after, ran, grown, holds, shown⟩
  rcases second value after grown holds shown with ⟨final, last, ranNext, grownNext, facts⟩
  exact ⟨final, last, bind_eq_ok_iff.mpr ⟨value, after, ran, ranNext⟩,
    trans state after last grown grownNext, facts⟩

theorem Achieves.mono {weak strong : α → σ → Prop}
    (achieved : Achieves kept grows state work strong)
    (implies : ∀ value after, grows state after → kept after → strong value after →
      weak value after) : Achieves kept grows state work weak := by
  rcases achieved with ⟨value, after, ran, grown, holds, shown⟩
  exact ⟨value, after, ran, grown, holds, implies value after grown holds shown⟩

end Growing

end Yadorilink.Transaction
