import Mathlib

/-! What a log of entries remembers: an entry of one kind with none of another kind
after it. The log grows at its end. -/

namespace Yadorilink.History

universe u

variable {ε : Type u} {held broken : ε → Prop} {log more : List ε}

/-- Some entry meets `held`, and no entry after it meets `broken`. -/
def Since (held broken : ε → Prop) (log : List ε) : Prop :=
  ∃ before entry after, log = before ++ entry :: after ∧ held entry ∧ ∀ later ∈ after, ¬broken later

theorem Since.append (since : Since held broken log) (quiet : ∀ later ∈ more, ¬broken later) :
    Since held broken (log ++ more) := by
  rcases since with ⟨before, entry, after, rfl, holds, none⟩
  refine ⟨before, entry, after ++ more, ?_, holds, ?_⟩
  · rw [List.append_assoc, List.cons_append]
  · exact List.forall_mem_append.mpr ⟨none, quiet⟩

theorem since_append_singleton {entry : ε} (holds : held entry) :
    Since held broken (log ++ [entry]) :=
  ⟨log, entry, [], rfl, holds, by rintro _ ⟨⟩⟩

theorem Since.exists_mem (since : Since held broken log) : ∃ entry ∈ log, held entry := by
  rcases since with ⟨before, entry, after, rfl, holds, _⟩
  exact ⟨entry, List.mem_append_right _ (.head _), holds⟩

end Yadorilink.History
