import Mathlib

/-! A fold whose steps each change what is seen under one key. When the keys
are distinct, the fold changes every named key once and no other. The state is
looked at through `view`, so the same lemmas serve maps, nested maps and rows
of a table. -/

namespace Yadorilink.KeyedFold

open List

universe u v w x

variable {σ : Type u} {κ : Type v} {γ : Type w} {ι : Type x} [DecidableEq κ] (view : σ → κ → γ) (keyOf : ι → κ)
  (change : ι → γ → γ) {step : σ → ι → σ}

theorem view_foldl_of_not_mem (stepView : ∀ state item key, view (step state item) key =
      if keyOf item = key then change item (view state key) else view state key)
    (items : List ι) (state : σ) {key : κ} (absent : key ∉ items.map keyOf) :
    view (items.foldl step state) key = view state key := by
  induction items generalizing state with
  | nil => rfl
  | cons item rest induction =>
    rw [map_cons, mem_cons, not_or] at absent
    rw [foldl_cons, induction _ absent.2, stepView, if_neg (Ne.symm absent.1)]

theorem view_foldl_of_mem (stepView : ∀ state item key, view (step state item) key =
      if keyOf item = key then change item (view state key) else view state key)
    {items : List ι} (state : σ) {item : ι} (distinct : (items.map keyOf).Nodup)
    (member : item ∈ items) :
    view (items.foldl step state) (keyOf item) = change item (view state (keyOf item)) := by
  induction items generalizing state with
  | nil => cases member
  | cons first rest induction =>
    rw [map_cons, nodup_cons] at distinct
    rw [foldl_cons]
    rcases mem_cons.mp member with equal | later
    · subst equal
      rw [view_foldl_of_not_mem view keyOf change stepView rest _ distinct.1, stepView, if_pos rfl]
    · have different : keyOf first ≠ keyOf item := fun same =>
        distinct.1 (same ▸ mem_map_of_mem later)
      rw [induction _ distinct.2 later, stepView, if_neg different]

theorem eq_of_key {α : Type u} {κ : Type v} {key : α → κ} {items : List α} {first second : α}
    (distinct : items.Pairwise fun first second => key first ≠ key second)
    (here : first ∈ items) (there : second ∈ items) (same : key first = key second) :
    first = second := by
  induction items with
  | nil => cases here
  | cons item items induction =>
    rw [pairwise_cons] at distinct
    rcases mem_cons.mp here with rfl | hereLater
    · rcases mem_cons.mp there with rfl | thereLater
      · rfl
      · exact absurd same (distinct.1 second thereLater)
    · rcases mem_cons.mp there with rfl | thereLater
      · exact absurd same.symm (distinct.1 first hereLater)
      · exact induction distinct.2 hereLater thereLater

end Yadorilink.KeyedFold
