import Mathlib

/-! Parties that step one at a time: a list of the stages they are in, of which one is replaced
at a step. -/

namespace Yadorilink.Stages

open List

universe u

variable {α : Type u} {stages : List α} {index : Nat} {old new : α}

theorem countP_set (found : stages[index]? = some old) (counts : α → Bool) :
    (stages.set index new).countP counts + (if counts old then 1 else 0) =
      stages.countP counts + if counts new then 1 else 0 := by
  rcases List.getElem?_eq_some_iff.mp found with ⟨inside, here⟩
  rw [List.countP_set inside, here]
  split
  · rename_i counted
    have positive : 0 < stages.countP counts :=
      countP_pos_iff.mpr ⟨old, mem_of_getElem? found, counted⟩
    omega
  · omega

theorem mem_set_of_ne {other : α} (found : stages[index]? = some old) (member : other ∈ stages)
    (different : other ≠ old) : other ∈ stages.set index new := by
  rcases mem_iff_getElem?.mp member with ⟨place, stands⟩
  apply mem_iff_getElem?.mpr
  refine ⟨place, ?_⟩
  rw [getElem?_set_ne, stands]
  rintro rfl
  rw [found] at stands
  cases stands
  exact different rfl

theorem mem_set_self (found : stages[index]? = some old) : new ∈ stages.set index new := by
  rcases List.getElem?_eq_some_iff.mp found with ⟨inside, _⟩
  exact mem_set inside new

theorem forall_set {P : α → Prop} (all : ∀ stage ∈ stages, P stage) (moved : P new) :
    ∀ stage ∈ stages.set index new, P stage := by
  intro stage member
  rcases mem_or_eq_of_mem_set member with stayed | rfl
  · exact all stage stayed
  · exact moved

end Yadorilink.Stages
