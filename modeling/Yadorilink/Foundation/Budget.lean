import Mathlib

/-! Cutting a list short by count and by total size. An item is taken as long
as both budgets are not used up, so the last one may exceed the second. -/

namespace Yadorilink.Budget

open List

universe u

variable {α : Type u} (size : α → Nat)

def takeWithin : Nat → Nat → List α → List α
  | _, _, [] => []
  | count, total, item :: rest =>
    if count = 0 ∨ total = 0 then [] else item :: takeWithin (count - 1) (total - size item) rest

variable {size}

theorem takeWithin_spent {count total : Nat} (spent : count = 0 ∨ total = 0) (items : List α) :
    takeWithin size count total items = [] := by
  cases items with
  | nil => rfl
  | cons item rest => rw [takeWithin, if_pos spent]

theorem takeWithin_append (count total : Nat) (front rest : List α) :
    takeWithin size count total (front ++ rest) = takeWithin size count total front ++
        takeWithin size (count - (takeWithin size count total front).length)
          (total - ((takeWithin size count total front).map size).sum) rest := by
  induction front generalizing count total with
  | nil => rfl
  | cons item front induction =>
    by_cases spent : count = 0 ∨ total = 0
    · rw [takeWithin_spent spent, takeWithin_spent spent]
      exact (takeWithin_spent spent rest).symm
    · rw [cons_append, takeWithin, takeWithin, if_neg spent, if_neg spent, induction,
        cons_append, length_cons, map_cons, sum_cons, Nat.sub_sub,
        Nat.sub_sub, Nat.add_comm 1]

theorem takeWithin_subset (count total : Nat) (items : List α) :
    takeWithin size count total items ⊆ items := by
  induction items generalizing count total with
  | nil => exact List.Subset.refl []
  | cons item rest induction =>
    rw [takeWithin]
    split
    · exact nil_subset _
    · exact cons_subset_cons item (induction _ _)

theorem mem_takeWithin_iff {count total : Nat} {front rest : List α} {item : α}
    (once : item ∉ front) :
    item ∈ takeWithin size count total (front ++ item :: rest) ↔
      front.length < count ∧ (front.map size).sum < total := by
  induction front generalizing count total with
  | nil =>
    rw [nil_append, takeWithin]
    split
    · rename_i spent
      simp only [not_mem_nil, length_nil, map_nil, sum_nil, false_iff]
      omega
    · rename_i left
      simp only [mem_cons, true_or, length_nil, map_nil, sum_nil, true_iff]
      omega
  | cons first front induction =>
    have others : item ∉ front := fun member => once (.tail first member)
    have different : item ≠ first := fun same => once (same ▸ .head _)
    rw [cons_append, takeWithin, length_cons, map_cons, sum_cons]
    split
    · rename_i spent
      simp only [not_mem_nil, false_iff]
      omega
    · rename_i left
      rw [mem_cons, or_iff_right different, induction others]
      omega

end Yadorilink.Budget
