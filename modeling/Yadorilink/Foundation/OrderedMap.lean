import Yadorilink.Foundation.KeyedFold

/-! Lookup reasoning for finite maps kept in key order. `Std.ExtTreeMap` plays
the role of an ordered map whose equality is extensional: two maps are equal
exactly when every lookup agrees. Everything here is stated for any lawful
key order. -/

namespace Yadorilink.OrderedMap

open Std List

universe u

/-! ## Orders on records

A record compared field by field inherits the laws of its fields as soon as
the fields determine the record. -/

theorem lawfulEqCmp_compareLex_compareOn {γ δ ε : Type u}
    [Ord δ] [Ord ε] [LawfulEqOrd δ] [LawfulEqOrd ε]
    (first : γ → δ) (second : γ → ε)
    (determined : ∀ left right, first left = first right →
      second left = second right → left = right) :
    LawfulEqCmp (compareLex (compareOn first) (compareOn second)) where
  eq_of_compare := by
    intro left right equal
    rw [compareLex_eq_eq] at equal
    exact determined left right
      (LawfulEqCmp.eq_of_compare equal.1) (LawfulEqCmp.eq_of_compare equal.2)
  compare_self := by
    intro value
    rw [compareLex_eq_eq]
    exact ⟨ReflCmp.compare_self, ReflCmp.compare_self⟩

theorem lawfulEqCmp_compareOn {γ δ : Type u} [Ord δ] [LawfulEqOrd δ]
    (field : γ → δ) (injective : Function.Injective field) :
    LawfulEqCmp (compareOn field) where
  eq_of_compare := fun equal => injective (LawfulEqCmp.eq_of_compare equal)
  compare_self := ReflCmp.compare_self

/-! ## Lookups -/

variable {α β : Type u} [Ord α] [TransOrd α]

theorem mem_keys_iff (map : ExtTreeMap α β) (key : α) [LawfulEqOrd α] :
    key ∈ map.keys ↔ ∃ value, map[key]? = some value := by
  rw [ExtTreeMap.mem_keys, ExtTreeMap.mem_iff_isSome_getElem?, Option.isSome_iff_exists]

theorem isEmpty_iff_getElem? (map : ExtTreeMap α β) [LawfulEqOrd α] :
    map.isEmpty = true ↔ ∀ key : α, map[key]? = none := by
  constructor
  · intro empty key
    rw [ExtTreeMap.isEmpty_iff.mp empty, ExtTreeMap.getElem?_empty]
  · intro allNone
    apply ExtTreeMap.isEmpty_iff.mpr
    apply ExtTreeMap.ext_getElem?
    intro key
    rw [allNone key, ExtTreeMap.getElem?_empty]

/-! ## Filling a map key by key

The loop that visits a list of keys and inserts, for each of them, the value a
fallible decision gives, leaving out the keys it gives none for. -/

def insertEach {ε : Type u} (decision : α → Except ε (Option β)) :
    List α → ExtTreeMap α β → Except ε (ExtTreeMap α β)
  | [], filled => .ok filled
  | key :: rest, filled => do
      match ← decision key with
      | some value => insertEach decision rest (filled.insert key value)
      | none => insertEach decision rest filled

theorem insertEach_total {ε : Type u} (decision : α → Except ε (Option β))
    (keys : List α) (filled : ExtTreeMap α β)
    (decided : ∀ key, key ∈ keys → ∃ choice, decision key = .ok choice) :
    ∃ result, insertEach decision keys filled = .ok result := by
  induction keys generalizing filled with
  | nil => exact ⟨filled, rfl⟩
  | cons key rest induction =>
    rcases decided key (.head _) with ⟨choice, atKey⟩
    have later : ∀ other, other ∈ rest → ∃ choice, decision other = .ok choice :=
      fun other member => decided other (.tail key member)
    cases choice with
    | none =>
      rcases induction filled later with ⟨result, restResult⟩
      exact ⟨result, by rw [insertEach, atKey]; exact restResult⟩
    | some value =>
      rcases induction (filled.insert key value) later with ⟨result, restResult⟩
      exact ⟨result, by rw [insertEach, atKey]; exact restResult⟩

variable [LawfulEqOrd α] [DecidableEq α]

@[simp] theorem getElem?_insert_eq (map : ExtTreeMap α β) (key other : α) (value : β) :
    (map.insert key value)[other]? = if key = other then some value else map[other]? := by
  rw [ExtTreeMap.getElem?_insert]
  simp only [Std.compare_eq_iff_eq]

@[simp] theorem getElem?_erase_eq (map : ExtTreeMap α β) (key other : α) :
    (map.erase key)[other]? = if key = other then none else map[other]? := by
  rw [ExtTreeMap.getElem?_erase]
  simp only [Std.compare_eq_iff_eq]

theorem getElem?_foldl_erase {ι : Type*} (keyOf : ι → α) (items : List ι) (map : ExtTreeMap α β)
    (key : α) : (items.foldl (fun map item => map.erase (keyOf item)) map)[key]? =
      if key ∈ items.map keyOf then none else map[key]? := by
  induction items generalizing map with
  | nil => simp
  | cons first rest induction =>
    rw [foldl_cons, induction, getElem?_erase_eq, map_cons]
    by_cases later : key ∈ rest.map keyOf
    · simp [later]
    · simp [later, eq_comm]

theorem getElem?_foldl_insert (valueOf : α → β) (keys : List α) (map : ExtTreeMap α β) (key : α) :
    (keys.foldl (fun map key => map.insert key (valueOf key)) map)[key]? =
      if key ∈ keys then some (valueOf key) else map[key]? := by
  induction keys generalizing map with
  | nil => simp
  | cons first rest induction =>
    rw [foldl_cons, induction, getElem?_insert_eq]
    by_cases later : key ∈ rest
    · simp [later]
    · by_cases same : first = key
      · simp [same]
      · simp [later, same, Ne.symm same]

/-- A fold over the entries of a map changes what is seen under each of its keys once. -/
theorem view_foldl_toList {σ γ : Type*} (view : σ → α → γ) (change : β → γ → γ)
    {step : σ → α × β → σ}
    (stepView : ∀ state entry key, view (step state entry) key =
      if entry.1 = key then change entry.2 (view state key) else view state key)
    (map : ExtTreeMap α β) (state : σ) (key : α) :
    view (map.toList.foldl step state) key =
      (map[key]?).elim (view state key) fun value => change value (view state key) := by
  have distinct : (map.toList.map Prod.fst).Nodup := by
    rw [ExtTreeMap.map_fst_toList_eq_keys]
    exact ExtTreeMap.nodup_keys
  cases stored : map[key]? with
  | none =>
    have absent : key ∉ map.toList.map Prod.fst := by
      intro member
      rcases mem_map.mp member with ⟨entry, inMap, rfl⟩
      rw [ExtTreeMap.mem_toList_iff_getElem?_eq_some.mp inMap] at stored
      cases stored
    exact KeyedFold.view_foldl_of_not_mem view Prod.fst (fun entry => change entry.2) stepView
      map.toList state absent
  | some value =>
    exact KeyedFold.view_foldl_of_mem view Prod.fst (fun entry => change entry.2) stepView state
      distinct (ExtTreeMap.mem_toList_iff_getElem?_eq_some.mpr stored)

theorem foldl_insert_toList (map : ExtTreeMap α β) :
    map.toList.foldl (fun built entry => built.insert entry.1 entry.2) ∅ = map := by
  apply ExtTreeMap.ext_getElem?
  intro key
  refine (view_foldl_toList (fun (built : ExtTreeMap α β) key => built[key]?)
    (fun value _ => some value)
    (fun built entry key => getElem?_insert_eq built entry.1 key entry.2) map ∅ key).trans ?_
  cases map[key]? <;> simp

theorem getElem?_ofList_eq_some_iff {listed : List (α × β)}
    (distinct : (listed.map Prod.fst).Nodup) {key : α} {value : β} :
    (ExtTreeMap.ofList listed compare)[key]? = some value ↔ (key, value) ∈ listed := by
  have held : ∀ entry, entry ∈ listed →
      (ExtTreeMap.ofList listed compare)[entry.1]? = some entry.2 := by
    intro entry member
    refine ExtTreeMap.getElem?_ofList_of_mem ReflCmp.compare_self ?_ member
    apply (pairwise_map.mp distinct).imp
    intro first second different equal
    exact different (LawfulEqCmp.eq_of_compare equal)
  constructor
  · intro found
    by_cases listedKey : key ∈ listed.map Prod.fst
    · rcases mem_map.mp listedKey with ⟨entry, member, rfl⟩
      rw [held entry member] at found
      cases found
      exact member
    · have absent : (ExtTreeMap.ofList listed compare)[key]? = none := by
        apply ExtTreeMap.getElem?_ofList_of_contains_eq_false
        rw [← Bool.not_eq_true, contains_iff_mem]
        exact listedKey
      rw [absent] at found
      cases found
  · exact fun member => held (key, value) member

theorem getElem?_insertEach {ε : Type u} {decision : α → Except ε (Option β)}
    {keys : List α} {filled result : ExtTreeMap α β}
    (filledAll : insertEach decision keys filled = .ok result) (target : α) :
    (target ∈ keys → ∃ choice, decision target = .ok choice ∧
      result[target]? = choice.orElse fun _ => filled[target]?) ∧
    (target ∉ keys → result[target]? = filled[target]?) := by
  induction keys generalizing filled with
  | nil =>
    cases filledAll
    exact ⟨fun member => absurd member (not_mem_nil), fun _ => rfl⟩
  | cons key rest induction =>
    cases atKey : decision key with
    | error failure =>
      rw [insertEach, atKey] at filledAll
      cases filledAll
    | ok choice =>
      -- The map handed to the rest of the loop, whatever was decided here.
      let filledNext := match choice with
        | some value => filled.insert key value
        | none => filled
      have restFilled : insertEach decision rest filledNext = .ok result := by
        rw [insertEach, atKey] at filledAll
        cases choice <;> exact filledAll
      have atTarget := induction restFilled
      have lookupNext : filledNext[target]? =
          if key = target then choice.orElse fun _ => filled[target]?
          else filled[target]? := by
        cases choice with
        | none => simp [filledNext]
        | some value => simp [filledNext]
      constructor
      · intro member
        by_cases inRest : target ∈ rest
        · rcases atTarget.1 inRest with ⟨later, decidedLater, lookup⟩
          refine ⟨later, decidedLater, ?_⟩
          rw [lookup, lookupNext]
          by_cases same : key = target
          · subst same
            rw [atKey] at decidedLater
            cases decidedLater
            cases choice <;> simp
          · rw [if_neg same]
        · have same : key = target := by
            rcases mem_cons.mp member with equal | inTail
            · exact equal.symm
            · exact absurd inTail inRest
          subst same
          exact ⟨choice, atKey, by rw [atTarget.2 inRest, lookupNext, if_pos rfl]⟩
      · intro notMember
        rw [mem_cons, not_or] at notMember
        rw [atTarget.2 notMember.2, lookupNext, if_neg (Ne.symm notMember.1)]

/-! ## Reading a map in order -/

omit [DecidableEq α] in
theorem toList_eq_before_append {map : ExtTreeMap α β} {key : α} {value : β}
    (known : map[key]? = some value) :
    ∃ after, map.toList =
      map.toList.filter (fun entry => compare entry.1 key = .lt) ++ (key, value) :: after := by
  have member : (key, value) ∈ map.toList := ExtTreeMap.mem_toList_iff_getElem?_eq_some.mpr known
  have ordered : map.toList.Pairwise fun left right => compare left.1 right.1 = .lt :=
    ExtTreeMap.ordered_keys_toList
  generalize map.toList = entries at member ordered
  induction entries with
  | nil => cases member
  | cons first rest induction =>
    rcases pairwise_cons.mp ordered with ⟨least, restOrdered⟩
    rcases mem_cons.mp member with same | inRest
    · subst same
      refine ⟨rest, ?_⟩
      have noneBefore : ((key, value) :: rest).filter
          (fun entry => compare entry.1 key = .lt) = [] := by
        rw [filter_eq_nil_iff]
        intro entry inEntries
        rcases mem_cons.mp inEntries with same | later
        · simp [same]
        · have above := least entry later
          simp [OrientedCmp.gt_of_lt above]
      rw [noneBefore, nil_append]
    · rcases induction inRest restOrdered with ⟨after, split⟩
      refine ⟨after, ?_⟩
      rw [filter_cons_of_pos (by simpa using least _ inRest), cons_append, ← split]

theorem find?_toList_eq (map : ExtTreeMap α β) (key : α) :
    map.toList.find? (fun entry => entry.1 = key) = map[key]?.map fun value => (key, value) := by
  cases known : map[key]? with
  | none =>
    rw [Option.map_none, find?_eq_none]
    intro entry member
    have stored := ExtTreeMap.mem_toList_iff_getElem?_eq_some.mp member
    simp only [decide_eq_true_eq]
    intro same
    rw [same, known] at stored
    cases stored
  | some value =>
    rcases toList_eq_before_append known with ⟨after, split⟩
    rw [split, find?_append]
    have skipped : (map.toList.filter fun entry => compare entry.1 key = .lt).find?
        (fun entry => entry.1 = key) = none := by
      rw [find?_eq_none]
      intro entry member
      have below := (mem_filter.mp member).2
      simp only [decide_eq_true_eq] at below ⊢
      intro same
      rw [same] at below
      simp at below
    simp [skipped]

end Yadorilink.OrderedMap
