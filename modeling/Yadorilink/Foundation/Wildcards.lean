import Mathlib

/-! Patterns of pieces that take one item each and pieces that take any number of them. -/

namespace Yadorilink.Wildcards

open List

universe u

variable {α : Type u}

inductive Piece (α : Type u) where
  /-- One item, of those accepted. -/
  | one (accepts : α → Prop)
  /-- Any number of items. -/
  | many

def Denotes : List (Piece α) → List α → Prop
  | [], text => text = []
  | .one accepts :: rest, text => ∃ item tail, text = item :: tail ∧ accepts item ∧ Denotes rest tail
  | .many :: rest, text => ∃ skipped tail, text = skipped ++ tail ∧ Denotes rest tail

/-- Pieces that take one item each, and items that they accept. -/
def Aligned (pieces : List (Piece α)) (items : List α) : Prop :=
  List.Forall₂ (fun piece item => ∃ accepts, piece = .one accepts ∧ accepts item) pieces items

variable {pieces rest taken : List (Piece α)} {text tail items : List α} {accepts : α → Prop}
  {item : α}

theorem not_denotes_one_nil : ¬Denotes (.one accepts :: rest) [] := by
  rintro ⟨item, tail, split, _⟩
  cases split

theorem denotes_one_cons : Denotes (.one accepts :: rest) (item :: tail) ↔
    accepts item ∧ Denotes rest tail := by
  constructor
  · rintro ⟨_, _, split, accepted, follows⟩
    cases split
    exact ⟨accepted, follows⟩
  · rintro ⟨accepted, follows⟩
    exact ⟨item, tail, rfl, accepted, follows⟩

theorem denotes_many_of_denotes (follows : Denotes rest text) : Denotes (.many :: rest) text :=
  ⟨[], text, rfl, follows⟩

theorem denotes_many_nil : Denotes (.many :: rest) [] ↔ Denotes rest ([] : List α) := by
  constructor
  · rintro ⟨skipped, tail, split, follows⟩
    rcases append_eq_nil_iff.mp split.symm with ⟨_, rfl⟩
    exact follows
  · exact denotes_many_of_denotes

theorem denotes_many_cons : Denotes (.many :: rest) (item :: tail) ↔
    Denotes rest (item :: tail) ∨ Denotes (.many :: rest) tail := by
  constructor
  · rintro ⟨skipped, left, split, follows⟩
    cases skipped with
    | nil =>
      rw [split]
      exact .inl follows
    | cons first skipped =>
      cases split
      exact .inr ⟨skipped, left, rfl, follows⟩
  · rintro (follows | ⟨skipped, left, rfl, follows⟩)
    · exact denotes_many_of_denotes follows
    · exact ⟨item :: skipped, left, rfl, follows⟩

theorem denotes_many_of_suffix (follows : Denotes (.many :: rest) tail) (suffix : tail <:+ text) :
    Denotes (.many :: rest) text := by
  rcases follows with ⟨skipped, left, rfl, follows⟩
  rcases suffix with ⟨front, rfl⟩
  exact ⟨front ++ skipped, left, (append_assoc _ _ _).symm, follows⟩

theorem denotes_append (first : Denotes pieces text) (second : Denotes rest tail) :
    Denotes (pieces ++ rest) (text ++ tail) := by
  induction pieces generalizing text with
  | nil =>
    rw [show text = [] from first]
    exact second
  | cons piece pieces induction =>
    cases piece with
    | one accepts =>
      rcases first with ⟨item, left, rfl, accepted, follows⟩
      exact ⟨item, left ++ tail, rfl, accepted, induction follows⟩
    | many =>
      rcases first with ⟨skipped, left, rfl, follows⟩
      exact ⟨skipped, left ++ tail, append_assoc _ _ _, induction follows⟩

theorem denotes_map_one {ι : Type u} {reads : ι → α → Prop} {patterns : List ι}
    (each : List.Forall₂ reads patterns items) :
    Denotes (patterns.map fun pattern => .one (reads pattern)) items := by
  induction each with
  | nil => rfl
  | cons accepted _ induction => exact ⟨_, _, rfl, accepted, induction⟩

/-! ## Pieces of one item each -/

section

variable (aligned : Aligned taken items)

include aligned

theorem Aligned.concat {piece : Piece α} (isOne : piece = .one accepts)
    (accepted : accepts item) : Aligned (taken ++ [piece]) (items ++ [item]) :=
  rel_append aligned (.cons ⟨accepts, isOne, accepted⟩ .nil)

theorem Aligned.denotes_append :
    Denotes (taken ++ rest) (items ++ text) ↔ Denotes rest text := by
  induction aligned with
  | nil => rfl
  | cons accepted _ induction =>
    rcases accepted with ⟨accepts, rfl, holds⟩
    rw [cons_append, cons_append, denotes_one_cons, induction]
    exact ⟨And.right, fun follows => ⟨holds, follows⟩⟩

theorem Aligned.drop_of_denotes
    (follows : Denotes (taken ++ rest) text) :
    taken.length ≤ text.length ∧ Denotes rest (text.drop taken.length) := by
  induction aligned generalizing text with
  | nil => exact ⟨Nat.zero_le _, follows⟩
  | cons accepted _ induction =>
    rcases accepted with ⟨accepts, rfl, _⟩
    rcases follows with ⟨item, tail, rfl, _, further⟩
    rcases induction further with ⟨shorter, left⟩
    exact ⟨Nat.succ_le_succ shorter, left⟩

/-- After pieces that took what came first, a piece that takes any number may as well begin there:
the earlier one is not needed any more. -/
theorem Aligned.denotes_many_many :
    Denotes (.many :: (taken ++ .many :: rest)) (items ++ text) ↔ Denotes (.many :: rest) text := by
  constructor
  · rintro ⟨skipped, tail, split, follows⟩
    rcases aligned.drop_of_denotes follows with ⟨_, left⟩
    apply denotes_many_of_suffix left
    have later : tail.drop taken.length =
        (items ++ text).drop (skipped.length + taken.length) := by
      rw [split, ← drop_drop, drop_left]
    rw [later]
    have further : (items ++ text).drop (skipped.length + taken.length) <:+
        (items ++ text).drop items.length := by
      apply drop_suffix_drop_left
      rw [List.Forall₂.length_eq aligned]
      exact Nat.le_add_left _ _
    rwa [drop_left] at further
  · intro follows
    apply denotes_many_of_denotes
    exact aligned.denotes_append.mpr follows

theorem Aligned.denotes_many_end :
    Denotes (.many :: (taken ++ rest)) items ↔ Denotes rest [] := by
  constructor
  · rintro ⟨skipped, tail, rfl, follows⟩
    rcases aligned.drop_of_denotes follows with ⟨shorter, left⟩
    rw [List.Forall₂.length_eq aligned, drop_eq_nil_of_le] at left
    · exact left
    · rw [length_append]
      exact Nat.le_add_left _ _
  · intro follows
    apply denotes_many_of_denotes
    have whole : Denotes (taken ++ rest) (items ++ []) := aligned.denotes_append.mpr follows
    rwa [append_nil] at whole

end

/-! ## Which items a pattern gives to which piece -/

/-- Two pieces that take the same of the items in question. -/
inductive Agree (items : List α) : Piece α → Piece α → Prop where
  | many : Agree items .many .many
  | one {first second : α → Prop} (same : ∀ item ∈ items, first item ↔ second item) :
      Agree items (.one first) (.one second)

theorem Agree.mono {piece other : Piece α} (agree : Agree items piece other) (fewer : text ⊆ items) :
    Agree text piece other := by
  cases agree with
  | many => exact .many
  | one same => exact .one fun item member => same item (fewer member)

theorem denotes_of_agree {others : List (Piece α)} (agree : List.Forall₂ (Agree text) pieces others)
    (denotes : Denotes pieces text) : Denotes others text := by
  induction pieces generalizing others text with
  | nil =>
    cases agree
    exact denotes
  | cons piece pieces induction =>
    rcases forall₂_cons_left_iff.mp agree with ⟨other, others, first, later, rfl⟩
    cases first with
    | many =>
      rcases denotes with ⟨skipped, tail, rfl, follows⟩
      refine ⟨skipped, tail, rfl, induction ?_ follows⟩
      exact later.imp fun _ _ same => same.mono (subset_append_right skipped tail)
    | one same =>
      rcases denotes with ⟨item, tail, rfl, accepted, follows⟩
      refine ⟨item, tail, rfl, (same item mem_cons_self).mp accepted, induction ?_ follows⟩
      exact later.imp fun _ _ same => same.mono (subset_cons_self item tail)

/-- A piece that takes one item, behind pieces that do so as well, takes the item in its place. -/
theorem accepts_of_denotes (ones : ∀ piece ∈ taken, ∃ accepts, piece = .one accepts)
    (denotes : Denotes (taken ++ .one accepts :: rest) text) :
    ∃ item, text[taken.length]? = some item ∧ accepts item := by
  induction taken generalizing text with
  | nil =>
    rcases denotes with ⟨item, tail, rfl, accepted, _⟩
    exact ⟨item, rfl, accepted⟩
  | cons piece taken induction =>
    rcases ones piece mem_cons_self with ⟨first, rfl⟩
    rcases denotes with ⟨_, tail, rfl, _, follows⟩
    exact induction (fun other member => ones other (.tail _ member)) follows

def ones (pieces : List (Piece α)) : List (α → Prop) :=
  pieces.filterMap fun piece => match piece with
    | .one accepts => some accepts
    | .many => none

theorem length_ones_le (denotes : Denotes pieces text) : (ones pieces).length ≤ text.length := by
  induction pieces generalizing text with
  | nil => exact Nat.zero_le _
  | cons piece pieces induction =>
    cases piece with
    | one accepts =>
      rcases denotes with ⟨item, tail, rfl, _, follows⟩
      exact Nat.succ_le_succ (induction follows)
    | many =>
      rcases denotes with ⟨skipped, tail, rfl, follows⟩
      have shorter : (ones pieces).length ≤ tail.length := induction follows
      rw [length_append]
      exact Nat.le_trans shorter (Nat.le_add_left _ _)

theorem denotes_iff_forall₂ (exact : text.length = (ones pieces).length) :
    Denotes pieces text ↔ List.Forall₂ (fun accepts item => accepts item) (ones pieces) text := by
  induction pieces generalizing text with
  | nil =>
    rw [length_eq_zero_iff.mp exact]
    exact ⟨fun _ => .nil, fun _ => rfl⟩
  | cons piece pieces induction =>
    cases piece with
    | one accepts =>
      cases text with
      | nil => cases exact
      | cons item tail =>
        rw [denotes_one_cons, induction (Nat.succ.inj exact)]
        constructor
        · exact fun both => .cons both.1 both.2
        · intro all
          cases all with
          | cons accepted later => exact ⟨accepted, later⟩
    | many =>
      have same : (ones (.many :: pieces) : List (α → Prop)) = ones pieces := rfl
      rw [same] at exact ⊢
      rw [← induction exact]
      constructor
      · rintro ⟨skipped, tail, rfl, follows⟩
        have shorter := length_ones_le follows
        rw [length_append] at exact
        have none : skipped = [] := length_eq_zero_iff.mp (by omega)
        rw [none]
        exact follows
      · exact denotes_many_of_denotes

end Yadorilink.Wildcards
