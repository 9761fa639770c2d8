import Mathlib

/-! Hash trees built level by level, where a level of odd length is completed by
its last node. `node` combines two nodes; nothing is assumed of it except, for
soundness, that it tells apart the pairs that are really combined. -/

namespace Yadorilink.MerkleTree

open List

universe u

variable {α : Type u} (node : α → α → α) {index : Nat} {value : α}

/-! ## Levels -/

/-- Completes a level of odd length by its last node. -/
def complete (level : List α) : List α :=
  if level.length % 2 = 1 then level ++ level.getLast?.toList else level

def pairs : List α → List (α × α)
  | [] => []
  | [_] => []
  | left :: right :: rest => (left, right) :: pairs rest

def next (level : List α) : List α :=
  (pairs (complete level)).map fun pair => node pair.1 pair.2

/-- Climbs until one node is left, which takes fewer turns than there are
nodes. -/
def climb : Nat → List α → List α
  | 0, level => level
  | turns + 1, level => if 1 < level.length then climb turns (next node level) else level

/-- How many levels `climb` climbs from a level of `count` nodes. -/
def height : Nat → Nat → Nat
  | 0, _ => 0
  | turns + 1, count => if 1 < count then height turns ((count + count % 2) / 2) + 1 else 0

/-! ## Audit paths -/

def siblingIndex (index : Nat) : Nat := if index % 2 = 0 then index + 1 else index - 1

/-- The siblings met on the way up from `index`, after those in `siblings`. -/
def audit : Nat → List α → Nat → List α → Option (List α)
  | 0, _, _, siblings => some siblings
  | turns + 1, level, index, siblings =>
    if 1 < level.length then do
      let sibling ← (complete level)[siblingIndex index]?
      audit turns (next node level) (index / 2) (siblings ++ [sibling])
    else
      some siblings

/-- One level of `auditAll`: appends to the path of each leaf, from `leaf` on,
its sibling at this depth. -/
def extend (level : List α) (depth : Nat) : Nat → List (List α) → Option (List (List α))
  | _, [] => some []
  | leaf, path :: rest => do
      let sibling ← level[siblingIndex (leaf >>> depth)]?
      let extended ← extend level depth (leaf + 1) rest
      return (path ++ [sibling]) :: extended

/-- The paths of all leaves, one level for all of them at a time. -/
def auditAll : Nat → List α → Nat → List (List α) → Option (List (List α))
  | 0, _, _, paths => some paths
  | turns + 1, level, depth, paths =>
    if 1 < level.length then do
      let extended ← extend (complete level) depth 0 paths
      auditAll turns (next node level) (depth + 1) extended
    else
      some paths

/-- A node and its sibling in the order they are combined in. -/
def family (value : α) (index : Nat) (sibling : α) : α × α :=
  if index % 2 = 0 then (value, sibling) else (sibling, value)

/-- The node above `value` at `index`, given its sibling. -/
def parent (value : α) (index : Nat) (sibling : α) : α :=
  node (family value index sibling).1 (family value index sibling).2

/-- The root that `value` at `index` leads to along a path. -/
def follow : α → Nat → List α → α
  | value, _, [] => value
  | value, index, sibling :: rest => follow (parent node value index sibling) (index / 2) rest

/-! ## Lookups -/

section Levels

variable (level : List α)

theorem length_complete : (complete level).length = level.length + level.length % 2 := by
  by_cases odd : level.length % 2 = 1
  · rw [complete, if_pos odd, length_append, odd]
    cases level with
    | nil => simp at odd
    | cons first rest => simp [getLast?_cons]
  · rw [complete, if_neg odd]
    omega

theorem getElem?_complete (inside : index < level.length) :
    (complete level)[index]? = level[index]? := by
  rw [complete]
  split
  · exact getElem?_append_left inside
  · rfl

theorem length_pairs : (pairs level).length = level.length / 2 := by
  induction level using pairs.induct with
  | case1 => simp [pairs]
  | case2 single => simp [pairs]
  | case3 left right rest induction =>
    simp only [pairs, length_cons, induction]
    omega

theorem getElem?_pairs (position : Nat) (left right : α) (atLeft : level[2 * position]? = some left)
    (atRight : level[2 * position + 1]? = some right) :
    (pairs level)[position]? = some (left, right) := by
  induction level using pairs.induct generalizing position with
  | case1 => simp at atLeft
  | case2 single => simp at atRight
  | case3 first second rest induction =>
    cases position with
    | zero =>
      simp at atLeft atRight
      simp [pairs, atLeft, atRight]
    | succ position =>
      rw [pairs, getElem?_cons_succ]
      apply induction
      · simpa [Nat.mul_add] using atLeft
      · simpa [Nat.mul_add] using atRight

theorem length_next : (next node level).length = (level.length + level.length % 2) / 2 := by
  rw [next, length_map, length_pairs, length_complete]

/-- An index inside a level has a sibling, and its family stands at half of it
among the pairs. -/
theorem exists_sibling (atIndex : level[index]? = some value) :
    ∃ sibling, (complete level)[siblingIndex index]? = some sibling ∧
      (pairs (complete level))[index / 2]? = some (family value index sibling) := by
  have inside : index < level.length := (List.getElem?_eq_some_iff.mp atIndex).1
  have completed : (complete level)[index]? = some value := by
    rw [getElem?_complete level inside, atIndex]
  have siblingInside : siblingIndex index < (complete level).length := by
    rw [length_complete, siblingIndex]
    split <;> omega
  refine ⟨(complete level)[siblingIndex index], getElem?_eq_getElem siblingInside, ?_⟩
  have atSibling := getElem?_eq_getElem siblingInside
  generalize (complete level)[siblingIndex index] = sibling at atSibling
  rw [siblingIndex] at atSibling
  rw [family]
  by_cases even : index % 2 = 0
  · rw [if_pos even] at atSibling ⊢
    apply getElem?_pairs
    · rw [show 2 * (index / 2) = index by omega, completed]
    · rw [show 2 * (index / 2) + 1 = index + 1 by omega, atSibling]
  · rw [if_neg even] at atSibling ⊢
    apply getElem?_pairs
    · rw [show 2 * (index / 2) = index - 1 by omega, atSibling]
    · rw [show 2 * (index / 2) + 1 = index by omega, completed]

theorem getElem?_next {sibling : α}
    (paired : (pairs (complete level))[index / 2]? = some (family value index sibling)) :
    (next node level)[index / 2]? = some (parent node value index sibling) := by
  rw [next, getElem?_map, paired]
  rfl

end Levels

/-! ## Completeness -/

theorem audit_spec {turns : Nat} {level : List α} (siblings : List α)
    (enough : level.length ≤ turns) (atIndex : level[index]? = some value) :
    ∃ path, audit node turns level index siblings = some (siblings ++ path) ∧
      path.length = height turns level.length ∧
      (climb node turns level)[0]? = some (follow node value index path) := by
  have inside : index < level.length := (List.getElem?_eq_some_iff.mp atIndex).1
  induction turns generalizing level index value siblings with
  | zero => omega
  | succ turns induction =>
    by_cases more : 1 < level.length
    · rcases exists_sibling level atIndex with ⟨sibling, found, paired⟩
      have atParent := getElem?_next node level paired
      have shorter : (next node level).length ≤ turns := by
        rw [length_next]
        omega
      rcases induction (siblings ++ [sibling]) shorter atParent
        (List.getElem?_eq_some_iff.mp atParent).1 with ⟨path, audited, length, root⟩
      refine ⟨sibling :: path, ?_, ?_, ?_⟩
      · simp only [audit, if_pos more, found, Option.bind_eq_bind, Option.bind_some, audited,
          append_assoc, singleton_append]
      · rw [length_cons, length, length_next, height, if_pos more]
      · rw [climb, if_pos more, root, follow]
    · obtain rfl : index = 0 := by omega
      refine ⟨[], ?_, ?_, ?_⟩
      · rw [audit, if_neg more, append_nil]
      · rw [height, if_neg more, length_nil]
      · rw [climb, if_neg more, atIndex, follow]

/-! ## All paths at once -/

theorem extend_spec {level : List α} {depth : Nat} (leaf : Nat) {paths : List (List α)}
    (inside : ∀ position, position < paths.length →
      ∃ sibling, level[siblingIndex ((leaf + position) >>> depth)]? = some sibling) :
    ∃ extended, extend level depth leaf paths = some extended ∧ extended.length = paths.length ∧
      ∀ position path sibling, paths[position]? = some path →
        level[siblingIndex ((leaf + position) >>> depth)]? = some sibling →
        extended[position]? = some (path ++ [sibling]) := by
  induction paths generalizing leaf with
  | nil => exact ⟨[], rfl, rfl, by simp⟩
  | cons path rest induction =>
    rcases inside 0 (by simp) with ⟨sibling, found⟩
    rw [Nat.add_zero] at found
    have restInside : ∀ position, position < rest.length →
        ∃ sibling, level[siblingIndex ((leaf + 1 + position) >>> depth)]? = some sibling := by
      intro position below
      rw [show leaf + 1 + position = leaf + (position + 1) by omega]
      exact inside (position + 1) (by simpa using below)
    rcases induction (leaf + 1) restInside with ⟨extended, restExtended, length, each⟩
    refine ⟨(path ++ [sibling]) :: extended, ?_, by simp [length], ?_⟩
    · simp [extend, found, restExtended]
    · intro position other otherSibling atPosition otherFound
      cases position with
      | zero =>
        rw [Nat.add_zero, found] at otherFound
        simp_all
      | succ position =>
        rw [getElem?_cons_succ] at atPosition ⊢
        apply each position other otherSibling atPosition
        rw [← otherFound, show leaf + 1 + position = leaf + (position + 1) by omega]

theorem auditAll_spec {turns depth : Nat} {level : List α} {paths : List (List α)}
    (enough : level.length ≤ turns)
    (inside : ∀ leaf, leaf < paths.length → leaf >>> depth < level.length) :
    ∃ audited, auditAll node turns level depth paths = some audited ∧
      audited.length = paths.length ∧
      ∀ leaf path, paths[leaf]? = some path →
        audited[leaf]? = audit node turns level (leaf >>> depth) path := by
  induction turns generalizing level depth paths with
  | zero => exact ⟨paths, rfl, rfl, fun leaf path atLeaf => atLeaf⟩
  | succ turns induction =>
    by_cases more : 1 < level.length
    · have siblings : ∀ leaf, leaf < paths.length →
          ∃ sibling, (complete level)[siblingIndex (leaf >>> depth)]? = some sibling := by
        intro leaf below
        rcases exists_sibling level (getElem?_eq_getElem (inside leaf below)) with
          ⟨sibling, found, _⟩
        exact ⟨sibling, found⟩
      rcases extend_spec 0 (by simpa using siblings) with
        ⟨extended, extendedAll, length, each⟩
      have above : ∀ leaf, leaf < extended.length →
          leaf >>> (depth + 1) < (next node level).length := by
        intro leaf below
        have within := inside leaf (by omega)
        rw [length_next, Nat.shiftRight_succ]
        omega
      have shorter : (next node level).length ≤ turns := by
        rw [length_next]
        omega
      rcases induction shorter above with ⟨audited, auditedAll, auditedLength, eachAbove⟩
      refine ⟨audited, ?_, by omega, ?_⟩
      · simp [auditAll, more, extendedAll, auditedAll]
      · intro leaf path atLeaf
        rcases siblings leaf (List.getElem?_eq_some_iff.mp atLeaf).1 with ⟨sibling, found⟩
        have extendedAt := each leaf path sibling atLeaf (by simpa using found)
        rw [eachAbove leaf _ extendedAt, audit, if_pos more, found, Nat.shiftRight_succ]
        rfl
    · refine ⟨paths, by rw [auditAll, if_neg more], rfl, ?_⟩
      intro leaf path atLeaf
      rw [audit, if_neg more, atLeaf]

/-! ## Soundness -/

def combined : Nat → List α → List (α × α)
  | 0, _ => []
  | turns + 1, level =>
    if 1 < level.length then pairs (complete level) ++ combined turns (next node level)
    else []

def followed : α → Nat → List α → List (α × α)
  | _, _, [] => []
  | value, index, sibling :: rest =>
    family value index sibling ::
      followed (parent node value index sibling) (index / 2) rest

theorem family_injective {other sibling otherSibling : α}
    (same : family value index sibling = family other index otherSibling) : value = other := by
  rw [family, family] at same
  split at same
  · exact congrArg Prod.fst same
  · exact congrArg Prod.snd same

/-- A path of the right length leads to the root only from the node that stands
at its index, the completing nodes included. -/
theorem follow_sound {turns : Nat} {level path : List α} {known : Set (α × α)}
    (injective : Set.InjOn (fun pair => node pair.1 pair.2) known)
    (ofTree : ∀ pair ∈ combined node turns level, pair ∈ known)
    (ofPath : ∀ pair ∈ followed node value index path, pair ∈ known)
    (enough : level.length ≤ turns) (inside : index < level.length)
    (length : path.length = height turns level.length)
    (root : (climb node turns level)[0]? = some (follow node value index path)) :
    level[index]? = some value := by
  induction turns generalizing level index value path with
  | zero => omega
  | succ turns induction =>
    rw [height] at length
    rw [climb] at root
    rw [combined] at ofTree
    by_cases more : 1 < level.length
    · rw [if_pos more] at length root ofTree
      cases path with
      | nil => simp at length
      | cons sibling rest =>
        rw [followed, forall_mem_cons] at ofPath
        rw [forall_mem_append] at ofTree
        -- One level up the value stands where the tree has the parent of this index.
        have above : (next node level)[index / 2]? = some (parent node value index sibling) := by
          apply induction ofTree.2 ofPath.2
          · rw [length_next]
            omega
          · rw [length_next]
            omega
          · rw [length_next]
            simpa using length
          · exact root
        rcases exists_sibling level (getElem?_eq_getElem inside) with
          ⟨stored, _, paired⟩
        have inTree := ofTree.1 _ (mem_of_getElem? paired)
        rw [getElem?_next node level paired] at above
        have same := injective inTree ofPath.1 (Option.some.inj above)
        rw [getElem?_eq_getElem inside, family_injective same]
    · rw [if_neg more] at length root
      obtain rfl : index = 0 := by omega
      rw [length_eq_zero_iff.mp length, follow] at root
      exact root

end Yadorilink.MerkleTree
