import Mathlib
import Yadorilink.Foundation.KeyedFold

/-! Binary Patricia trees over bit strings. A node sits at the end of its `skip`; it
holds an entry there or branches there. A tree is read position by position: what
lies here, and the subtrees one bit below. Canonical trees are determined by the
entries they hold. -/

namespace Yadorilink

open List

universe u

inductive Patricia (β : Type u) where
  | empty
  | node (skip : List Bool) (own : Option β) (zero one : Patricia β)
deriving DecidableEq

namespace Patricia

variable {β : Type u} {key : List Bool}

/-! ## One position at a time -/

def here : Patricia β → Option β
  | node [] own _ _ => own
  | _ => none

def child (bit : Bool) : Patricia β → Patricia β
  | empty => empty
  | node [] _ zero one => if bit then one else zero
  | node (first :: rest) own zero one => if first = bit then node rest own zero one else empty

def under (bits : List Bool) : Patricia β → Patricia β
  | empty => empty
  | node skip own zero one => node (bits ++ skip) own zero one

/-- The tree with an entry and two subtrees; a position without an entry and with at
most one subtree is no node of its own. -/
def mk : Option β → Patricia β → Patricia β → Patricia β
  | none, empty, empty => empty
  | none, node skip own zero one, empty => node (false :: skip) own zero one
  | none, empty, node skip own zero one => node (true :: skip) own zero one
  | own, zero, one => node [] own zero one

def sub : Patricia β → List Bool → Patricia β
  | tree, [] => tree
  | tree, bit :: rest => sub (child bit tree) rest

def get (tree : Patricia β) (key : List Bool) : Option β := (tree.sub key).here

def Canonical : Patricia β → Prop
  | empty => True
  | node _ own zero one =>
    (own.isSome = true ∨ (zero ≠ empty ∧ one ≠ empty)) ∧ zero.Canonical ∧ one.Canonical

def weight : Patricia β → Nat
  | empty => 0
  | node skip _ zero one => 1 + skip.length + zero.weight + one.weight

@[simp] theorem here_empty : (empty : Patricia β).here = none := rfl

@[simp] theorem child_empty (bit : Bool) : (empty : Patricia β).child bit = empty := rfl

@[simp] theorem under_empty (bits : List Bool) : (empty : Patricia β).under bits = empty := rfl

@[simp] theorem under_nil (tree : Patricia β) : tree.under [] = tree := by
  cases tree with
  | empty => rfl
  | node skip own zero one => rfl

theorem under_under (first second : List Bool) (tree : Patricia β) :
    (tree.under second).under first = tree.under (first ++ second) := by
  cases tree with
  | empty => rfl
  | node skip own zero one => simp [under]

@[simp] theorem here_mk (own : Option β) (zero one : Patricia β) :
    (mk own zero one).here = own := by
  cases own <;> cases zero <;> cases one <;> rfl

@[simp] theorem child_mk (bit : Bool) (own : Option β) (zero one : Patricia β) :
    (mk own zero one).child bit = if bit then one else zero := by
  cases own <;> cases zero <;> cases one <;> cases bit <;> rfl

theorem mk_none_empty (tree : Patricia β) : mk none empty tree = tree.under [true] := by
  cases tree <;> rfl

theorem mk_none_empty_right (tree : Patricia β) : mk none tree empty = tree.under [false] := by
  cases tree <;> rfl

theorem mk_some (value : β) (zero one : Patricia β) :
    mk (some value) zero one = node [] (some value) zero one := by
  cases zero <;> cases one <;> rfl

theorem mk_of_ne_empty {zero one : Patricia β} (zeroHolds : zero ≠ empty) (oneHolds : one ≠ empty)
    (own : Option β) : mk own zero one = node [] own zero one := by
  cases zero with
  | empty => exact absurd rfl zeroHolds
  | node zeroSkip zeroOwn zeroZero zeroOne =>
    cases one with
    | empty => exact absurd rfl oneHolds
    | node oneSkip oneOwn oneZero oneOne => cases own <;> rfl

theorem Canonical.child {tree : Patricia β} (canonical : tree.Canonical) (bit : Bool) :
    (tree.child bit).Canonical := by
  cases tree with
  | empty => trivial
  | node skip own zero one =>
    rcases canonical with ⟨holds, zeroCanonical, oneCanonical⟩
    cases skip with
    | nil =>
      cases bit
      · exact zeroCanonical
      · exact oneCanonical
    | cons first rest =>
      by_cases same : first = bit
      · have down : (node (first :: rest) own zero one).child bit = node rest own zero one :=
          if_pos same
        rw [down]
        exact ⟨holds, zeroCanonical, oneCanonical⟩
      · have down : (node (first :: rest) own zero one).child bit = empty := if_neg same
        rw [down]
        trivial

theorem Canonical.under {tree : Patricia β} (canonical : tree.Canonical) (bits : List Bool) :
    (tree.under bits).Canonical := by
  cases tree with
  | empty => trivial
  | node skip own zero one => exact canonical

theorem Canonical.mk {zero one : Patricia β} (zeroCanonical : zero.Canonical)
    (oneCanonical : one.Canonical) (own : Option β) : (mk own zero one).Canonical := by
  cases own with
  | some value =>
    rw [mk_some]
    exact ⟨Or.inl rfl, zeroCanonical, oneCanonical⟩
  | none =>
    by_cases zeroEmpty : zero = empty
    · subst zeroEmpty
      rw [mk_none_empty]
      exact oneCanonical.under _
    · by_cases oneEmpty : one = empty
      · subst oneEmpty
        rw [mk_none_empty_right]
        exact zeroCanonical.under _
      · rw [mk_of_ne_empty zeroEmpty oneEmpty]
        exact ⟨Or.inr ⟨zeroEmpty, oneEmpty⟩, zeroCanonical, oneCanonical⟩

theorem Canonical.mk_child {tree : Patricia β} (canonical : tree.Canonical) :
    Patricia.mk tree.here (tree.child false) (tree.child true) = tree := by
  cases tree with
  | empty => rfl
  | node skip own zero one =>
    cases skip with
    | nil =>
      rcases canonical with ⟨holds, _, _⟩
      change Patricia.mk own zero one = node [] own zero one
      rcases holds with entry | ⟨zeroHolds, oneHolds⟩
      · rcases Option.isSome_iff_exists.mp entry with ⟨value, rfl⟩
        exact mk_some value zero one
      · exact mk_of_ne_empty zeroHolds oneHolds own
    | cons first rest => cases first <;> rfl

theorem weight_child {tree : Patricia β} (holds : tree ≠ empty) :
    (tree.child false).weight + (tree.child true).weight < tree.weight := by
  cases tree with
  | empty => exact absurd rfl holds
  | node skip own zero one =>
    cases skip with
    | nil =>
      simp only [child, weight, length_nil, Bool.false_eq_true, if_false, if_true]
      omega
    | cons first rest =>
      cases first
      · simp only [child, weight, length_cons, if_true, Bool.false_eq_true, if_false]
        omega
      · simp only [child, weight, length_cons, if_true, Bool.true_eq_false, if_false]
        omega

theorem weight_eq_zero_iff {tree : Patricia β} : tree.weight = 0 ↔ tree = empty := by
  cases tree with
  | empty => simp [weight]
  | node skip own zero one =>
    simp only [weight, reduceCtorEq, iff_false]
    omega

theorem weight_under {tree : Patricia β} (holds : tree ≠ empty) (bits : List Bool) :
    (tree.under bits).weight = bits.length + tree.weight := by
  cases tree with
  | empty => exact absurd rfl holds
  | node skip own zero one =>
    simp only [under, weight, length_append]
    omega

/-! ## Entries -/

@[simp] theorem sub_nil (tree : Patricia β) : tree.sub [] = tree := rfl

@[simp] theorem sub_cons (tree : Patricia β) (bit : Bool) (rest : List Bool) :
    tree.sub (bit :: rest) = (tree.child bit).sub rest := rfl

@[simp] theorem sub_empty (key : List Bool) : (empty : Patricia β).sub key = empty := by
  induction key with
  | nil => rfl
  | cons bit rest induction => exact induction

theorem sub_append (tree : Patricia β) (first second : List Bool) :
    tree.sub (first ++ second) = (tree.sub first).sub second := by
  induction first generalizing tree with
  | nil => rfl
  | cons bit rest induction => exact induction (tree.child bit)

@[simp] theorem get_nil (tree : Patricia β) : tree.get [] = tree.here := rfl

@[simp] theorem get_cons (tree : Patricia β) (bit : Bool) (rest : List Bool) :
    tree.get (bit :: rest) = (tree.child bit).get rest := rfl

@[simp] theorem get_empty (key : List Bool) : (empty : Patricia β).get key = none := by
  rw [get, sub_empty, here_empty]

theorem get_node_append (skip key : List Bool) (own : Option β) (zero one : Patricia β) :
    (node skip own zero one).get (skip ++ key) = (node [] own zero one).get key := by
  induction skip with
  | nil => rfl
  | cons bit rest induction =>
    have down : (node (bit :: rest) own zero one).child bit = node rest own zero one := if_pos rfl
    rw [List.cons_append, get_cons, down, induction]

theorem Canonical.exists_entry {tree : Patricia β} (canonical : tree.Canonical)
    (holds : tree ≠ empty) : ∃ key value, tree.get key = some value := by
  induction tree with
  | empty => exact absurd rfl holds
  | node skip own zero one zeroInduction oneInduction =>
    rcases canonical with ⟨entry | ⟨zeroHolds, _⟩, zeroCanonical, _⟩
    · rcases Option.isSome_iff_exists.mp entry with ⟨value, rfl⟩
      exact ⟨skip ++ [], value, by rw [get_node_append]; rfl⟩
    · rcases zeroInduction zeroCanonical zeroHolds with ⟨key, value, found⟩
      exact ⟨skip ++ false :: key, value, by rw [get_node_append]; exact found⟩

theorem Canonical.ext {left right : Patricia β} (leftCanonical : left.Canonical)
    (rightCanonical : right.Canonical) (same : ∀ key, left.get key = right.get key) :
    left = right := by
  have emptied : ∀ {tree : Patricia β}, tree.Canonical → (∀ key, tree.get key = none) →
      tree = empty := by
    intro tree canonical nothing
    by_contra holds
    rcases canonical.exists_entry holds with ⟨key, value, found⟩
    rw [nothing key] at found
    cases found
  induction size : left.weight using Nat.strongRecOn generalizing left right with
  | _ bound induction =>
    by_cases leftEmpty : left = empty
    · subst leftEmpty
      exact (emptied rightCanonical fun key => (same key).symm.trans (get_empty key)).symm
    · have smaller := weight_child leftEmpty
      have children : ∀ bit, left.child bit = right.child bit := by
        intro bit
        apply induction (left.child bit).weight _ (leftCanonical.child bit)
          (rightCanonical.child bit) (fun key => same (bit :: key)) rfl
        cases bit
        · omega
        · omega
      rw [← leftCanonical.mk_child, ← rightCanonical.mk_child, children, children]
      exact congrArg (fun own => Patricia.mk own _ _) (same [])

/-! ## Changing one position -/

/-- The tree with what lies at `key` replaced by `change` of it. -/
def modify (change : Patricia β → Patricia β) : List Bool → Patricia β → Patricia β
  | [], tree => change tree
  | true :: rest, tree => mk tree.here (tree.child false) (modify change rest (tree.child true))
  | false :: rest, tree => mk tree.here (modify change rest (tree.child false)) (tree.child true)

/-- The tree with another entry at its own position. -/
def withHere (own : Option β) (tree : Patricia β) : Patricia β :=
  mk own (tree.child false) (tree.child true)

def set (tree : Patricia β) (key : List Bool) (own : Option β) : Patricia β :=
  tree.modify (withHere own) key

theorem Canonical.modify {change : Patricia β → Patricia β}
    (keeps : ∀ tree : Patricia β, tree.Canonical → (change tree).Canonical) {tree : Patricia β}
    (canonical : tree.Canonical) (key : List Bool) : (tree.modify change key).Canonical := by
  induction key generalizing tree with
  | nil => exact keeps tree canonical
  | cons bit rest induction =>
    cases bit
    · exact (induction (canonical.child false)).mk (canonical.child true) _
    · exact (canonical.child false).mk (induction (canonical.child true)) _

theorem Canonical.set {tree : Patricia β} (canonical : tree.Canonical) (key : List Bool)
    (own : Option β) : (tree.set key own).Canonical :=
  canonical.modify (fun _ canonical => (canonical.child false).mk (canonical.child true) own) key

theorem get_set (tree : Patricia β) (key other : List Bool) (own : Option β) :
    (tree.set key own).get other = if other = key then own else tree.get other := by
  unfold set
  induction key generalizing tree other with
  | nil =>
    cases other with
    | nil => simp [modify, withHere]
    | cons bit rest => cases bit <;> simp [modify, withHere]
  | cons bit rest induction =>
    cases other with
    | nil => cases bit <;> simp [modify]
    | cons otherBit others =>
      cases bit <;> cases otherBit <;> simp [modify, induction]

theorem modify_empty (change : Patricia β → Patricia β) (key : List Bool) :
    (empty : Patricia β).modify change key = (change empty).under key := by
  induction key with
  | nil => rw [under_nil]; rfl
  | cons bit rest induction =>
    cases bit
    · rw [modify, child_empty, child_empty, induction, here_empty, mk_none_empty_right,
        under_under]
      rfl
    · rw [modify, child_empty, child_empty, induction, here_empty, mk_none_empty, under_under]
      rfl

theorem modify_skip (change : Patricia β → Patricia β) (bits skip key : List Bool)
    (own : Option β) (zero one : Patricia β) :
    (node (bits ++ skip) own zero one).modify change (bits ++ key) =
      ((node skip own zero one).modify change key).under bits := by
  induction bits with
  | nil => rw [under_nil]; rfl
  | cons bit rest induction =>
    cases bit
    · change mk none ((node (rest ++ skip) own zero one).modify change (rest ++ key)) empty = _
      rw [induction, mk_none_empty_right, under_under]
      rfl
    · change mk none empty ((node (rest ++ skip) own zero one).modify change (rest ++ key)) = _
      rw [induction, mk_none_empty, under_under]
      rfl

theorem modify_fork (change : Patricia β → Patricia β) (skip key : List Bool) (bit : Bool)
    (own : Option β) (zero one : Patricia β) :
    (node (bit :: skip) own zero one).modify change ((!bit) :: key) =
      mk none (if bit then (change empty).under key else node skip own zero one)
        (if bit then node skip own zero one else (change empty).under key) := by
  cases bit
  · exact congrArg (mk none (node skip own zero one)) (modify_empty change key)
  · exact congrArg (fun placed => mk none placed (node skip own zero one))
      (modify_empty change key)

/-! ## Counting and comparing entries -/

def isEmpty : Patricia β → Bool
  | empty => true
  | node .. => false

theorem isEmpty_iff {tree : Patricia β} : tree.isEmpty = true ↔ tree = empty := by
  cases tree <;> simp [isEmpty]

def count : Patricia β → Nat
  | empty => 0
  | node _ own zero one => own.isSome.toNat + zero.count + one.count

def total (measure : β → Nat) : Patricia β → Nat
  | empty => 0
  | node _ own zero one =>
    own.elim 0 measure + zero.total measure + one.total measure

def any (test : β → Bool) : Patricia β → Bool
  | empty => false
  | node _ own zero one => own.any test || zero.any test || one.any test

def common [DecidableEq β] : Patricia β → Option β
  | empty => none
  | node _ own zero one =>
    let candidate := own.or (zero.common.or one.common)
    if (zero.isEmpty || zero.common = candidate) && (one.isEmpty || one.common = candidate) then
      candidate
    else
      none

section Measures

variable (measure : β → Nat) (test : β → Bool) (tree : Patricia β) (bits : List Bool)

variable (own : Option β) (zero one : Patricia β)

variable {tree}

theorem Canonical.count_pos (canonical : tree.Canonical) (holds : tree ≠ empty) :
    0 < tree.count := by
  induction tree with
  | empty => exact absurd rfl holds
  | node skip own zero one zeroInduction oneInduction =>
    rcases canonical with ⟨entry | ⟨zeroHolds, _⟩, zeroCanonical, _⟩
    · simp only [count, entry, Bool.toNat_true]
      omega
    · have below := zeroInduction zeroCanonical zeroHolds
      simp only [count]
      omega

theorem total_le_total {larger : β → Nat}
    (smaller : ∀ key value, tree.get key = some value → measure value ≤ larger value) :
    tree.total measure ≤ tree.total larger := by
  induction tree with
  | empty => exact Nat.le_refl _
  | node skip own zero one zeroInduction oneInduction =>
    have zeroBound := zeroInduction fun key value found =>
      smaller (skip ++ false :: key) value (by rw [get_node_append]; exact found)
    have oneBound := oneInduction fun key value found =>
      smaller (skip ++ true :: key) value (by rw [get_node_append]; exact found)
    cases own with
    | none =>
      simp only [total, Option.elim_none]
      omega
    | some value =>
      have ownBound := smaller (skip ++ []) value (by rw [get_node_append]; rfl)
      simp only [total, Option.elim_some]
      omega

theorem total_one (tree : Patricia β) : (tree.total fun _ => 1) = tree.count := by
  induction tree with
  | empty => rfl
  | node skip own zero one zeroInduction oneInduction =>
    rw [total, count, zeroInduction, oneInduction]
    cases own <;> rfl

theorem count_le_total (positive : ∀ key value, tree.get key = some value → 1 ≤ measure value) :
    tree.count ≤ tree.total measure := by
  rw [← total_one]
  exact total_le_total _ positive

end Measures

section Common

variable [DecidableEq β] {skip : List Bool} {own : Option β} {zero one tree : Patricia β}
  {value : β}

theorem common_node_eq_some (shared : (node skip own zero one).common = some value) :
    own.or (zero.common.or one.common) = some value ∧
      (zero = empty ∨ zero.common = some value) ∧ (one = empty ∨ one.common = some value) := by
  rw [common] at shared
  split at shared
  · rename_i fits
    rw [shared] at fits
    simp only [Bool.and_eq_true, Bool.or_eq_true, isEmpty_iff, decide_eq_true_eq] at fits
    exact ⟨shared, fits⟩
  · cases shared

theorem common_eq_some_imp (shared : tree.common = some value) {found : β}
    (isFound : tree.get key = some found) : found = value := by
  induction tree generalizing key with
  | empty => simp at isFound
  | node skip own zero one zeroInduction oneInduction =>
    rcases common_node_eq_some shared with ⟨candidate, zeroShares, oneShares⟩
    induction skip generalizing key with
    | nil =>
      cases key with
      | nil =>
        have isOwn : own = some found := isFound
        rw [isOwn, Option.some_or] at candidate
        exact Option.some.inj candidate
      | cons bit rest =>
        cases bit
        · have below : zero.get rest = some found := isFound
          rcases zeroShares with rfl | shares
          · simp at below
          · exact zeroInduction shares below
        · have below : one.get rest = some found := isFound
          rcases oneShares with rfl | shares
          · simp at below
          · exact oneInduction shares below
    | cons first rest induction =>
      cases key with
      | nil => cases isFound
      | cons bit key =>
        by_cases same : first = bit
        · have down : (node (first :: rest) own zero one).child bit =
              node rest own zero one := if_pos same
          rw [get_cons, down] at isFound
          exact induction shared isFound
        · have down : (node (first :: rest) own zero one).child bit = empty := if_neg same
          rw [get_cons, down] at isFound
          simp at isFound

theorem total_of_common (measure : β → Nat) (shared : tree.common = some value) :
    tree.total measure = measure value * tree.count := by
  induction tree with
  | empty => cases shared
  | node skip own zero one zeroInduction oneInduction =>
    rcases common_node_eq_some shared with ⟨candidate, zeroShares, oneShares⟩
    have zeroTotal : zero.total measure = measure value * zero.count := by
      rcases zeroShares with rfl | shares
      · rfl
      · exact zeroInduction shares
    have oneTotal : one.total measure = measure value * one.count := by
      rcases oneShares with rfl | shares
      · rfl
      · exact oneInduction shares
    cases own with
    | none =>
      simp only [total, count, zeroTotal, oneTotal, Option.elim_none, Option.isSome_none,
        Bool.toNat_false, Nat.mul_add]
      omega
    | some found =>
      rw [Option.some_or] at candidate
      cases candidate
      simp only [total, count, zeroTotal, oneTotal, Option.elim_some, Option.isSome_some,
        Bool.toNat_true, Nat.mul_add]
      omega

theorem Canonical.any_of_common (test : β → Bool) (canonical : tree.Canonical)
    (shared : tree.common = some value) : tree.any test = test value := by
  induction tree with
  | empty => cases shared
  | node skip own zero one zeroInduction oneInduction =>
    rcases common_node_eq_some shared with ⟨candidate, zeroShares, oneShares⟩
    rcases canonical with ⟨holds, zeroCanonical, oneCanonical⟩
    have zeroAny : zero.any test = (!zero.isEmpty && test value) := by
      rcases zeroShares with rfl | shares
      · rfl
      · have notEmpty : zero.isEmpty = false := by
          cases zero with
          | empty => cases shares
          | node => rfl
        rw [zeroInduction zeroCanonical shares, notEmpty]
        rfl
    have oneAny : one.any test = (!one.isEmpty && test value) := by
      rcases oneShares with rfl | shares
      · rfl
      · have notEmpty : one.isEmpty = false := by
          cases one with
          | empty => cases shares
          | node => rfl
        rw [oneInduction oneCanonical shares, notEmpty]
        rfl
    rw [any, zeroAny, oneAny]
    cases own with
    | some found =>
      rw [Option.some_or] at candidate
      cases candidate
      rw [Option.any_some]
      cases test value <;> simp
    | none =>
      rcases holds with entry | ⟨zeroHolds, oneHolds⟩
      · cases entry
      · have notEmpty : zero.isEmpty = false := by
          cases zero with
          | empty => exact absurd rfl zeroHolds
          | node => rfl
        rw [notEmpty]
        cases test value <;> simp

end Common

/-! ## Entries in key order -/

/-- The keys and values of a tree, in ascending order of the keys. -/
def entries : Patricia β → List (List Bool × β)
  | empty => []
  | node skip own zero one =>
    (own.toList.map fun value => (skip, value)) ++
      (zero.entries.map fun entry => (skip ++ false :: entry.1, entry.2)) ++
      one.entries.map fun entry => (skip ++ true :: entry.1, entry.2)

theorem get_node_eq_some_iff {skip : List Bool} {own : Option β} {zero one : Patricia β}
    {value : β} : (node skip own zero one).get key = some value ↔
      ∃ rest, key = skip ++ rest ∧ (node [] own zero one).get rest = some value := by
  constructor
  · induction skip generalizing key with
    | nil => exact fun found => ⟨key, rfl, found⟩
    | cons first skip induction =>
      intro found
      cases key with
      | nil => cases found
      | cons bit key =>
        by_cases same : first = bit
        · have down : (node (first :: skip) own zero one).child bit = node skip own zero one :=
            if_pos same
          rw [get_cons, down] at found
          rcases induction found with ⟨rest, rfl, below⟩
          exact ⟨rest, by rw [same]; rfl, below⟩
        · have down : (node (first :: skip) own zero one).child bit = empty := if_neg same
          rw [get_cons, down, get_empty] at found
          cases found
  · rintro ⟨rest, same, found⟩
    rw [same, get_node_append]
    exact found

theorem mem_entries_iff {tree : Patricia β} {value : β} :
    (key, value) ∈ tree.entries ↔ tree.get key = some value := by
  induction tree generalizing key with
  | empty => simp [entries]
  | node skip own zero one zeroInduction oneInduction =>
    rw [get_node_eq_some_iff, entries, mem_append, mem_append, mem_map,
      mem_map, mem_map]
    constructor
    · intro listed
      rcases listed with (⟨found, isOwn, same⟩ | ⟨⟨below, found⟩, isBelow, same⟩) |
        ⟨⟨below, found⟩, isBelow, same⟩
      · cases same
        exact ⟨[], (append_nil _).symm, Option.mem_toList.mp isOwn⟩
      · cases same
        exact ⟨false :: below, rfl, zeroInduction.mp isBelow⟩
      · cases same
        exact ⟨true :: below, rfl, oneInduction.mp isBelow⟩
    · rintro ⟨rest, same, found⟩
      cases rest with
      | nil =>
        rw [append_nil] at same
        exact Or.inl (Or.inl ⟨value, Option.mem_toList.mpr found, by rw [same]⟩)
      | cons bit rest =>
        cases bit
        · exact Or.inl (Or.inr ⟨(rest, value), zeroInduction.mpr found, by rw [same]⟩)
        · exact Or.inr ⟨(rest, value), oneInduction.mpr found, by rw [same]⟩

theorem compare_append_left (skip first second : List Bool) :
    compare (skip ++ first) (skip ++ second) = compare first second := by
  induction skip with
  | nil => rfl
  | cons bit skip induction =>
    rw [List.cons_append, List.cons_append, List.compare_cons_cons, induction]
    cases bit <;> rfl

theorem entries_ascending (tree : Patricia β) :
    tree.entries.Pairwise fun first second => compare first.1 second.1 = .lt := by
  induction tree with
  | empty => exact List.Pairwise.nil
  | node skip own zero one zeroInduction oneInduction =>
    have placed : ∀ (bit : Bool) (below : Patricia β),
        (below.entries.Pairwise fun first second => compare first.1 second.1 = .lt) →
        (below.entries.map fun entry => (skip ++ bit :: entry.1, entry.2)).Pairwise
          fun first second => compare first.1 second.1 = .lt := by
      intro bit below ascending
      rw [pairwise_map]
      apply ascending.imp
      intro first second smaller
      rw [compare_append_left, List.compare_cons_cons, smaller]
      cases bit <;> rfl
    rw [entries, pairwise_append, pairwise_append]
    refine ⟨⟨?_, placed false zero zeroInduction, ?_⟩, placed true one oneInduction, ?_⟩
    · cases own <;> simp
    · intro first isOwn second isZero
      rcases mem_map.mp isOwn with ⟨_, _, rfl⟩
      rcases mem_map.mp isZero with ⟨below, _, rfl⟩
      have shorter := compare_append_left skip [] (false :: below.1)
      rw [append_nil] at shorter
      exact shorter
    · intro first isBefore second isOne
      rcases mem_map.mp isOne with ⟨below, _, rfl⟩
      rcases mem_append.mp isBefore with isOwn | isZero
      · rcases mem_map.mp isOwn with ⟨_, _, rfl⟩
        have shorter := compare_append_left skip [] (true :: below.1)
        rw [append_nil] at shorter
        exact shorter
      · rcases mem_map.mp isZero with ⟨other, _, rfl⟩
        exact (compare_append_left skip (false :: other.1) (true :: below.1)).trans rfl

theorem count_eq_length_entries (tree : Patricia β) : tree.count = tree.entries.length := by
  induction tree with
  | empty => rfl
  | node skip own zero one zeroInduction oneInduction =>
    rw [count, entries, length_append, length_append, length_map, length_map,
      length_map, zeroInduction, oneInduction]
    cases own <;> rfl

theorem total_eq_sum_entries (measure : β → Nat) (tree : Patricia β) :
    tree.total measure = (tree.entries.map fun entry => measure entry.2).sum := by
  induction tree with
  | empty => rfl
  | node skip own zero one zeroInduction oneInduction =>
    rw [total, entries, map_append, map_append, sum_append, sum_append,
      map_map, map_map, map_map, zeroInduction, oneInduction]
    cases own <;> simp [Function.comp_def]

theorem le_total (measure : β → Nat) {tree : Patricia β} {value : β}
    (found : tree.get key = some value) : measure value ≤ tree.total measure := by
  induction tree generalizing key with
  | empty => simp at found
  | node skip own zero one zeroInduction oneInduction =>
    rcases get_node_eq_some_iff.mp found with ⟨rest, _, below⟩
    cases rest with
    | nil =>
      have isOwn : own = some value := below
      simp only [total, isOwn, Option.elim_some]
      omega
    | cons bit rest =>
      simp only [total]
      cases bit
      · have smaller := zeroInduction below
        omega
      · have smaller := oneInduction below
        omega

theorem entries_eq_of_ascending {tree : Patricia β} {listed : List (List Bool × β)}
    (ascending : listed.Pairwise fun first second => compare first.1 second.1 = .lt)
    (same : ∀ key value, (key, value) ∈ listed ↔ tree.get key = some value) :
    listed = tree.entries := by
  have distinct : ∀ {items : List (List Bool × β)},
      (items.Pairwise fun first second => compare first.1 second.1 = .lt) → items.Nodup := by
    intro items sorted
    apply sorted.imp
    intro first second smaller equal
    simp [equal] at smaller
  apply List.Perm.eq_of_pairwise _ ascending tree.entries_ascending
  · rw [perm_ext_iff_of_nodup (distinct ascending) (distinct tree.entries_ascending)]
    rintro ⟨key, value⟩
    rw [same, mem_entries_iff]
  · intro first second _ _ smaller larger
    have swapped := Std.OrientedCmp.gt_of_lt larger
    rw [smaller] at swapped
    cases swapped

def ofEntries (listed : List (List Bool × β)) : Patricia β :=
  listed.foldl (fun tree entry => tree.set entry.1 (some entry.2)) empty

theorem canonical_ofEntries (listed : List (List Bool × β)) : (ofEntries listed).Canonical := by
  have keeps : ∀ tree : Patricia β, tree.Canonical →
      (listed.foldl (fun tree entry => tree.set entry.1 (some entry.2)) tree).Canonical := by
    induction listed with
    | nil => exact fun _ canonical => canonical
    | cons entry rest induction => exact fun tree canonical => induction _ (canonical.set ..)
  exact keeps empty trivial

theorem get_ofEntries_eq_some_iff {listed : List (List Bool × β)}
    (distinct : (listed.map Prod.fst).Nodup) {value : β} :
    (ofEntries listed).get key = some value ↔ (key, value) ∈ listed := by
  have setView : ∀ (tree : Patricia β) (entry : List Bool × β) (other : List Bool),
      (tree.set entry.1 (some entry.2)).get other =
        if entry.1 = other then some entry.2 else tree.get other := by
    intro tree entry other
    rw [get_set]
    by_cases same : other = entry.1
    · rw [if_pos same, if_pos same.symm]
    · rw [if_neg same, if_neg (Ne.symm same)]
  constructor
  · intro found
    by_cases listedKey : key ∈ listed.map Prod.fst
    · rcases mem_map.mp listedKey with ⟨⟨_, held⟩, member, rfl⟩
      have atKey := KeyedFold.view_foldl_of_mem get Prod.fst (fun entry _ => some entry.2)
        setView empty distinct member
      rw [ofEntries, atKey] at found
      cases found
      exact member
    · have untouched := KeyedFold.view_foldl_of_not_mem get Prod.fst
        (fun entry _ => some entry.2) setView listed empty listedKey
      rw [ofEntries, untouched, get_empty] at found
      cases found
  · intro member
    exact KeyedFold.view_foldl_of_mem get Prod.fst (fun entry _ => some entry.2)
      setView empty distinct member

/-! ## Entries at leaves -/

def Leafy : Patricia β → Prop
  | empty => True
  | node _ own zero one =>
    (own.isSome = true → zero = empty ∧ one = empty) ∧ zero.Leafy ∧ one.Leafy

theorem Canonical.leafy {tree : Patricia β} (canonical : tree.Canonical)
    (free : ∀ key more value other, tree.get key = some value →
      tree.get (key ++ more) = some other → more = []) : tree.Leafy := by
  induction tree with
  | empty => trivial
  | node skip own zero one zeroInduction oneInduction =>
    rcases canonical with ⟨_, zeroCanonical, oneCanonical⟩
    refine ⟨?_, zeroInduction zeroCanonical ?_, oneInduction oneCanonical ?_⟩
    · intro entry
      rcases Option.isSome_iff_exists.mp entry with ⟨value, rfl⟩
      have atNode : (node skip (some value) zero one).get skip = some value :=
        get_node_eq_some_iff.mpr ⟨[], (append_nil _).symm, rfl⟩
      constructor
      · by_contra holds
        rcases zeroCanonical.exists_entry holds with ⟨key, other, found⟩
        have below := free skip (false :: key) value other atNode
          (get_node_eq_some_iff.mpr ⟨false :: key, rfl, found⟩)
        cases below
      · by_contra holds
        rcases oneCanonical.exists_entry holds with ⟨key, other, found⟩
        have below := free skip (true :: key) value other atNode
          (get_node_eq_some_iff.mpr ⟨true :: key, rfl, found⟩)
        cases below
    · intro key more value other found longer
      apply free (skip ++ false :: key) more value other
      · exact get_node_eq_some_iff.mpr ⟨false :: key, rfl, found⟩
      · rw [append_assoc, List.cons_append]
        exact get_node_eq_some_iff.mpr ⟨false :: (key ++ more), rfl, longer⟩
    · intro key more value other found longer
      apply free (skip ++ true :: key) more value other
      · exact get_node_eq_some_iff.mpr ⟨true :: key, rfl, found⟩
      · rw [append_assoc, List.cons_append]
        exact get_node_eq_some_iff.mpr ⟨true :: (key ++ more), rfl, longer⟩

/-! ## Moving and cutting -/

theorem child_under (bit : Bool) (bits : List Bool) (tree : Patricia β) :
    (tree.under (bit :: bits)).child bit = tree.under bits := by
  cases tree with
  | empty => rfl
  | node skip own zero one => exact if_pos rfl

theorem sub_under (bits : List Bool) (tree : Patricia β) : (tree.under bits).sub bits = tree := by
  induction bits with
  | nil => rw [under_nil, sub_nil]
  | cons bit bits induction => rw [sub_cons, child_under, induction]

theorem get_under_eq_some_iff {bits : List Bool} {tree : Patricia β} {value : β} :
    (tree.under bits).get key = some value ↔ ∃ rest, key = bits ++ rest ∧
      tree.get rest = some value := by
  cases tree with
  | empty => simp
  | node skip own zero one =>
    rw [under, get_node_eq_some_iff]
    constructor
    · rintro ⟨rest, same, found⟩
      exact ⟨skip ++ rest, by rw [same, append_assoc],
        get_node_eq_some_iff.mpr ⟨rest, rfl, found⟩⟩
    · rintro ⟨below, same, found⟩
      rcases get_node_eq_some_iff.mp found with ⟨rest, rfl, atNode⟩
      exact ⟨rest, by rw [same, append_assoc], atNode⟩

/-- The subtrees at every position with something below. -/
def spread : Patricia β → List (Patricia β)
  | empty => []
  | node skip own zero one =>
    (skip.tails.map fun rest => node rest own zero one) ++ (zero.spread ++ one.spread)

theorem mem_spread_self {tree : Patricia β} (holds : tree ≠ empty) : tree ∈ tree.spread := by
  cases tree with
  | empty => exact absurd rfl holds
  | node skip own zero one =>
    exact mem_append_left _ (mem_map.mpr
      ⟨skip, (mem_tails skip skip).mpr (suffix_refl skip), rfl⟩)

theorem mem_spread_child {tree part : Patricia β} {bit : Bool}
    (member : part ∈ (tree.child bit).spread) : part ∈ tree.spread := by
  cases tree with
  | empty => exact member
  | node skip own zero one =>
    cases skip with
    | nil =>
      apply mem_append_right
      cases bit
      · exact mem_append_left _ member
      · exact mem_append_right _ member
    | cons first rest =>
      by_cases same : first = bit
      · have down : (node (first :: rest) own zero one).child bit = node rest own zero one :=
          if_pos same
        rw [down] at member
        rcases mem_append.mp member with atSkip | below
        · rcases mem_map.mp atSkip with ⟨later, isLater, rfl⟩
          apply mem_append_left
          exact mem_map.mpr ⟨later, .tail _ isLater, rfl⟩
        · exact mem_append_right _ below
      · have down : (node (first :: rest) own zero one).child bit = empty := if_neg same
        rw [down] at member
        cases member

theorem total_child_le (measure : β → Nat) (tree : Patricia β) (bit : Bool) :
    (tree.child bit).total measure ≤ tree.total measure := by
  cases tree with
  | empty => exact Nat.le_refl _
  | node skip own zero one =>
    cases skip with
    | nil =>
      cases bit
      · simp only [child, total, Bool.false_eq_true, if_false]
        omega
      · simp only [child, total, if_true]
        omega
    | cons first rest =>
      simp only [child]
      split
      · exact Nat.le_refl _
      · exact Nat.zero_le _

theorem Canonical.exists_of_common [DecidableEq β] {tree : Patricia β} (canonical : tree.Canonical)
    {value : β} (shared : tree.common = some value) : ∃ key, tree.get key = some value := by
  have holds : tree ≠ empty := by
    intro nothing
    rw [nothing] at shared
    cases shared
  rcases canonical.exists_entry holds with ⟨key, found, isFound⟩
  rw [common_eq_some_imp shared isFound] at isFound
  exact ⟨key, isFound⟩

end Patricia

end Yadorilink
