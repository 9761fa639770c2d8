import Mathlib

/-! Taking a computation that may fail apart: what it means that a sequence of
fallible steps, or a loop of fallible checks, went through. -/

namespace Yadorilink.Fallible

open List

universe u

variable {ε α β : Type u}

theorem bind_eq_ok_iff {first : Except ε α} {next : α → Except ε β} {result : β} :
    first >>= next = .ok result ↔ ∃ value, first = .ok value ∧ next value = .ok result := by
  cases first with
  | error failure =>
    constructor
    · intro failed
      cases failed
    · rintro ⟨value, succeeded, _⟩
      cases succeeded
  | ok value =>
    constructor
    · intro succeeded
      exact ⟨value, rfl, succeeded⟩
    · rintro ⟨other, same, succeeded⟩
      cases same
      exact succeeded

theorem forM_eq_ok_iff {check : α → Except ε PUnit.{u + 1}} {items : List α} :
    items.forM check = .ok ⟨⟩ ↔ ∀ item, item ∈ items → check item = .ok ⟨⟩ := by
  induction items with
  | nil => exact ⟨fun _ item member => absurd member not_mem_nil, fun _ => rfl⟩
  | cons first rest induction =>
    have unfolded : (first :: rest).forM check = check first >>= fun _ => rest.forM check :=
      rfl
    rw [unfolded, bind_eq_ok_iff]
    constructor
    · rintro ⟨_, firstPassed, restPassed⟩ item member
      rcases mem_cons.mp member with equal | inRest
      · exact equal ▸ firstPassed
      · exact induction.mp restPassed item inRest
    · intro passed
      exact ⟨⟨⟩, passed first (.head _),
        induction.mpr fun item member => passed item (.tail first member)⟩

/-- Leaving out checks that pass changes neither the verdict nor which failure
is reported. -/
theorem forM_filter {check kept : α → Except ε PUnit.{u + 1}} {items : List α} {selected : α → Bool}
    (same : ∀ item, item ∈ items → selected item = true → kept item = check item)
    (skipped : ∀ item, item ∈ items → selected item = false → check item = .ok ⟨⟩) :
    (items.filter selected).forM kept = items.forM check := by
  induction items with
  | nil => rfl
  | cons first rest induction =>
    have later := induction (fun item member => same item (.tail first member))
      (fun item member => skipped item (.tail first member))
    have unfolded : (first :: rest).forM check = check first >>= fun _ => rest.forM check :=
      rfl
    rw [unfolded]
    cases isSelected : selected first with
    | true =>
      rw [filter_cons_of_pos isSelected, ← later,
        ← same first (.head _) isSelected]
      rfl
    | false =>
      have dropped : ¬selected first = true := by simp [isSelected]
      rw [filter_cons_of_neg dropped, later, skipped first (.head _) isSelected]
      rfl

theorem forM_congr {first second : α → Except ε PUnit.{u + 1}} {items : List α}
    (same : ∀ item, item ∈ items → first item = second item) :
    items.forM first = items.forM second := by
  have all : (items.filter fun _ => true).forM first = items.forM second :=
    forM_filter (fun item member _ => same item member) fun _ _ skipped => by cases skipped
  rw [filter_eq_self.mpr fun _ _ => rfl] at all
  exact all

end Yadorilink.Fallible
