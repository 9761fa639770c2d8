import Mathlib

/-! Lists that grow at their end, as logs, queues and the passes over a table do. -/

namespace Yadorilink

open List

universe u

theorem forall_mem_concat {α : Type u} {p : α → Prop} {items : List α} {item : α}
    (before : ∀ other ∈ items, p other) (new : p item) : ∀ other ∈ items ++ [item], p other :=
  forall_mem_append.mpr ⟨before, forall_mem_singleton.mpr new⟩

theorem filterMap_range_getElem? {α : Type u} (items : List α) :
    (List.range items.length).filterMap (items[·]?) = items := by
  induction items with
  | nil => rfl
  | cons item items induction =>
    rw [length_cons, range_succ_eq_map, filterMap_cons, filterMap_map]
    exact congrArg (item :: ·) induction

theorem map_range_getD {α : Type u} (items : List α) (missing : α) :
    (List.range items.length).map (items.getD · missing) = items := by
  induction items with
  | nil => rfl
  | cons item items induction =>
    rw [length_cons, range_succ_eq_map, map_cons, map_map]
    exact congrArg (item :: ·) induction

/-! ## Topological orders -/

/-- Whatever an item of the list leads to stands before it. -/
def Topological {α : Type u} (leads : α → α → Prop) (items : List α) : Prop :=
  ∀ front item back, items = front ++ item :: back → ∀ earlier, leads item earlier → earlier ∈ front

namespace Topological

variable {α : Type u} {leads : α → α → Prop} {items : List α}

theorem nil (leads : α → α → Prop) : Topological leads [] := by
  intro front item back parts
  simp at parts

theorem concat (sorted : Topological leads items) {last : α}
    (before : ∀ earlier, leads last earlier → earlier ∈ items) : Topological leads (items ++ [last]) := by
  intro front item back parts earlier lead
  rcases eq_nil_or_concat back with rfl | ⟨between, final, rfl⟩
  · rcases append_inj' parts rfl with ⟨rfl, same⟩
    cases same
    exact before earlier lead
  · rw [concat_eq_append, ← cons_append, ← append_assoc] at parts
    rcases append_inj' parts rfl with ⟨rfl, _⟩
    exact sorted front item between rfl earlier lead

theorem mem_of_transGen (sorted : Topological leads items) {item earlier : α}
    (path : Relation.TransGen leads item earlier) {front back : List α}
    (parts : items = front ++ item :: back) : earlier ∈ front := by
  induction path with
  | single lead => exact sorted front item back parts _ lead
  | tail _ lead induction =>
    rcases append_of_mem induction with ⟨start, rest, rfl⟩
    apply mem_append_left
    apply sorted start _ (rest ++ item :: back) _ _ lead
    rw [parts, append_assoc, cons_append]

theorem not_transGen_self (sorted : Topological leads items) (once : items.Nodup) {item : α}
    (member : item ∈ items) : ¬ Relation.TransGen leads item item := by
  intro cycle
  rcases append_of_mem member with ⟨front, back, rfl⟩
  exact (nodup_middle.mp once).notMem
    (mem_append_left back (sorted.mem_of_transGen cycle rfl))

theorem filterMap {β : Type u} {leadsFrom : β → β → Prop} {sources : List β} {image : β → Option α}
    (sorted : Topological leadsFrom sources)
    (lifts : ∀ source item earlier, image source = some item → leads item earlier →
      ∃ other, image other = some earlier ∧ leadsFrom source other) :
    Topological leads (sources.filterMap image) := by
  intro front item back parts earlier lead
  rcases filterMap_eq_append_iff.mp parts with ⟨start, rest, rfl, rfl, tail⟩
  rcases filterMap_eq_cons_iff.mp tail with ⟨skipped, source, later, rfl, none, isItem, _⟩
  rcases lifts source item earlier isItem lead with ⟨other, isEarlier, leadFrom⟩
  have before := sorted (start ++ skipped) source later (by rw [append_assoc]) other leadFrom
  rcases mem_append.mp before with inStart | inSkipped
  · exact mem_filterMap.mpr ⟨other, inStart, isEarlier⟩
  · rw [none other inSkipped] at isEarlier
    cases isEarlier

end Topological

end Yadorilink
