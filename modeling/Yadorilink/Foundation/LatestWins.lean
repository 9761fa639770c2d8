import Mathlib

/-! Lists of observations keyed by what they are about, where a later observation of a key
replaces an earlier one. -/

namespace Yadorilink.LatestWins

open List

universe u v

variable {α : Type u} {κ : Type v} (key : α → κ) (rank : α → Nat)

/-- Items of one key are listed in the order of their rank. -/
def Ascending (items : List α) : Prop :=
  items.Pairwise fun first second => key first = key second → rank first ≤ rank second

/-- An item of the key is listed whose rank is at least the given one. -/
def Covers (items : List α) (about : κ) (least : Nat) : Prop :=
  ∃ item ∈ items, key item = about ∧ least ≤ rank item

variable {key rank} {items others : List α} {item : α} {about : κ} {least : Nat}

theorem Covers.append_left (covers : Covers key rank items about least) :
    Covers key rank (items ++ others) about least := by
  obtain ⟨found, member, same, high⟩ := covers
  exact ⟨found, mem_append_left others member, same, high⟩

theorem Covers.append_right (covers : Covers key rank others about least) :
    Covers key rank (items ++ others) about least := by
  obtain ⟨found, member, same, high⟩ := covers
  exact ⟨found, mem_append_right items member, same, high⟩

theorem covers_append_iff : Covers key rank (items ++ others) about least ↔
    Covers key rank items about least ∨ Covers key rank others about least := by
  constructor
  · rintro ⟨found, member, same, high⟩
    rcases mem_append.mp member with inItems | inOthers
    · exact .inl ⟨found, inItems, same, high⟩
    · exact .inr ⟨found, inOthers, same, high⟩
  · intro either
    rcases either with first | second
    · exact first.append_left
    · exact second.append_right

/-! ## Replacing -/

variable [DecidableEq κ]

/-- The list with the item in place of any other of its key. -/
def upsert (key : α → κ) (items : List α) (item : α) : List α :=
  items.filter (fun other => key other ≠ key item) ++ [item]

theorem mem_upsert_iff {other : α} :
    other ∈ upsert key items item ↔ (other ∈ items ∧ key other ≠ key item) ∨ other = item := by
  rw [upsert, mem_append, mem_filter, mem_singleton, decide_eq_true_iff]

theorem Covers.upsert (covers : Covers key rank items about least)
    (highest : ∀ other ∈ items, rank other ≤ rank item) :
    Covers key rank (upsert key items item) about least := by
  obtain ⟨found, member, same, high⟩ := covers
  by_cases replaced : key found = key item
  · exact ⟨item, mem_upsert_iff.mpr (.inr rfl), replaced.symm.trans same,
      Nat.le_trans high (highest found member)⟩
  · exact ⟨found, mem_upsert_iff.mpr (.inl ⟨member, replaced⟩), same, high⟩

theorem Ascending.upsert (ascending : Ascending key rank (items ++ others))
    (highest : ∀ other ∈ items ++ others, rank other ≤ rank item) :
    Ascending key rank (items ++ LatestWins.upsert key others item) := by
  rw [Ascending, LatestWins.upsert, ← append_assoc, pairwise_append]
  refine ⟨?_, pairwise_singleton _ _, ?_⟩
  · exact ascending.sublist (List.Sublist.append_left filter_sublist items)
  · intro other member last isLast _
    rw [mem_singleton.mp isLast]
    apply highest
    rcases mem_append.mp member with inItems | kept
    · exact mem_append_left others inItems
    · exact mem_append_right items (mem_filter.mp kept).1

/-! ## Merging -/

def merge (key : α → κ) (items : List α) : List α :=
  items.foldl (upsert key) []

theorem foldl_upsert_subset (items base : List α) :
    items.foldl (upsert key) base ⊆ base ++ items := by
  induction items generalizing base with
  | nil => simp
  | cons item rest induction =>
    intro other member
    rcases mem_append.mp (induction _ member) with inBase | inRest
    · rcases mem_upsert_iff.mp inBase with old | new
      · exact mem_append_left _ old.1
      · rw [new]
        simp
    · exact mem_append_right _ (.tail item inRest)

theorem merge_subset (items : List α) : merge key items ⊆ items := by
  have subset := @foldl_upsert_subset _ _ key _ items []
  rwa [nil_append] at subset

theorem foldl_upsert_distinct {base : List α}
    (distinct : base.Pairwise fun first second => key first ≠ key second) (items : List α) :
    (items.foldl (upsert key) base).Pairwise fun first second => key first ≠ key second := by
  induction items generalizing base with
  | nil => exact distinct
  | cons item rest induction =>
    apply induction
    rw [upsert, pairwise_append]
    refine ⟨distinct.filter _, pairwise_singleton _ _, ?_⟩
    intro other kept last isLast
    rw [mem_singleton.mp isLast]
    have differs := (mem_filter.mp kept).2
    rwa [decide_eq_true_iff] at differs

theorem foldl_upsert_covers {base : List α} (ascending : Ascending key rank (base ++ items))
    (covers : Covers key rank (base ++ items) about least) :
    Covers key rank (items.foldl (upsert key) base) about least := by
  induction items generalizing base with
  | nil =>
    rw [append_nil] at covers
    exact covers
  | cons item rest induction =>
    have shorter : (upsert key base item ++ rest).Sublist (base ++ item :: rest) := by
      rw [upsert, append_assoc]
      exact filter_sublist.append_right (item :: rest)
    apply induction (ascending.sublist shorter)
    obtain ⟨found, member, same, high⟩ := covers
    rcases mem_append.mp member with inBase | after
    · by_cases replaced : key found = key item
      · -- The item stands behind the one it replaces, so it covers no less.
        have later := (pairwise_append.mp ascending).2.2 found inBase item
          mem_cons_self replaced
        exact ⟨item, mem_append_left rest (mem_upsert_iff.mpr (.inr rfl)),
          replaced.symm.trans same, Nat.le_trans high later⟩
      · exact ⟨found, mem_append_left rest (mem_upsert_iff.mpr (.inl ⟨inBase, replaced⟩)),
          same, high⟩
    · rcases mem_cons.mp after with isItem | inRest
      · rw [isItem] at same high
        exact ⟨item, mem_append_left rest (mem_upsert_iff.mpr (.inr rfl)), same, high⟩
      · exact ⟨found, mem_append_right _ inRest, same, high⟩

theorem Covers.merge (covers : Covers key rank items about least)
    (ascending : Ascending key rank items) : Covers key rank (merge key items) about least :=
  foldl_upsert_covers (by rwa [nil_append]) (by rwa [nil_append])

theorem Ascending.merge (ascending : Ascending key rank (items ++ others)) :
    Ascending key rank (LatestWins.merge key items ++ others) := by
  obtain ⟨_, inOthers, between⟩ := pairwise_append.mp ascending
  apply pairwise_append.mpr
  refine ⟨?_, inOthers, ?_⟩
  · apply (foldl_upsert_distinct List.Pairwise.nil items).imp
    intro first second differ same
    exact absurd same differ
  · intro first member second inSecond
    exact between first (merge_subset items member) second inSecond

end Yadorilink.LatestWins
