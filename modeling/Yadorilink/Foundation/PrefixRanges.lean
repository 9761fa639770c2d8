import Mathlib

/-! Sequences in the order of a dictionary. Those that continue a sequence by a given letter lie
between it with that letter and it with the next one, so that an index in this order finds them by
two bounds. -/

namespace Yadorilink.PrefixRanges

open List

universe u

variable {α : Type u} [LinearOrder α]

/-- Between a sequence with a letter and the sequence with the next letter are its continuations by
the first letter and at least one more. -/
theorem between_iff {letter next : α} (adjacent : letter ⋖ next) (front word : List α) :
    front ++ [letter] < word ∧ word < front ++ [next] ↔
      ∃ first rest, word = front ++ letter :: first :: rest := by
  induction front generalizing word with
  | nil =>
    cases word with
    | nil => simp
    | cons head tail =>
      simp only [nil_append, cons_lt_cons_iff, List.cons.injEq]
      constructor
      · intro bounds
        rcases bounds with ⟨above, below⟩
        have upper : head < next := by
          rcases below with smaller | same
          · exact smaller
          · exact absurd same.2 (not_lt_nil tail)
        rcases above with larger | same
        · exact absurd upper (adjacent.2 larger)
        · cases tail with
          | nil => exact absurd same.2 (not_lt_nil [])
          | cons first rest => exact ⟨first, rest, same.1.symm, rfl⟩
      · intro continued
        rcases continued with ⟨first, rest, same, tails⟩
        rw [same, tails]
        exact ⟨.inr ⟨rfl, nil_lt_cons first rest⟩, .inl adjacent.1⟩
  | cons lead front induction =>
    cases word with
    | nil => simp
    | cons head tail =>
      simp only [cons_append, cons_lt_cons_iff, List.cons.injEq]
      constructor
      · intro bounds
        rcases bounds with ⟨above, below⟩
        have same : head = lead := by
          rcases above with larger | here
          · rcases below with smaller | here
            · exact absurd larger (lt_asymm smaller)
            · exact here.1
          · exact here.1.symm
        subst same
        have inner : front ++ [letter] < tail ∧ tail < front ++ [next] := by
          constructor
          · rcases above with larger | here
            · exact absurd larger (lt_irrefl head)
            · exact here.2
          · rcases below with smaller | here
            · exact absurd smaller (lt_irrefl head)
            · exact here.2
        rcases (induction tail).mp inner with ⟨first, rest, whole⟩
        exact ⟨first, rest, rfl, whole⟩
      · intro continued
        rcases continued with ⟨first, rest, same, whole⟩
        have inner := (induction tail).mpr ⟨first, rest, whole⟩
        exact ⟨.inr ⟨same.symm, inner.1⟩, .inr ⟨same, inner.2⟩⟩

theorem prefix_of_between {front word continued : List α} (above : ¬word < front)
    (below : ¬continued < word) (continues : front <+: continued) : front <+: word := by
  induction front generalizing word continued with
  | nil => exact nil_prefix
  | cons lead front induction =>
    obtain ⟨rest, whole⟩ := continues
    subst whole
    cases word with
    | nil => exact absurd (nil_lt_cons lead front) above
    | cons head tail =>
      rw [cons_append] at below
      simp only [cons_lt_cons_iff, not_or, not_and] at above below
      have same : lead = head := le_antisymm (not_lt.mp above.1) (not_lt.mp below.1)
      rw [same, cons_prefix_cons]
      exact ⟨rfl, induction (above.2 same.symm) (below.2 same) (prefix_append front rest)⟩

end Yadorilink.PrefixRanges
