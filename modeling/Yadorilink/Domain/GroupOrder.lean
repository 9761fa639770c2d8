import Yadorilink.Foundation.Lists
import Yadorilink.Domain.NativeFork

/-! The walk that orders the groups of a fork plan. Between two turns every group that is
finished stands behind the groups it leads to, and the groups below one on the stack are
those it was reached through; the walk stops at a group that is still on the stack. -/

namespace Yadorilink

open List

/-- The groups that have to go before a group, in terms of their indices. -/
def Leads (before : List (List Nat)) (node earlier : Nat) : Prop :=
  earlier ∈ before.getD node []

/-- The stack below `child`: each group has followed the edges before its next one, the
last of them to the group above it. -/
def Suspended (before : List (List Nat)) (order : List Nat) : Nat → List (Nat × Nat) → Prop
  | _, [] => True
  | child, (node, next) :: stack =>
    next ≠ 0 ∧ Leads before node child ∧
      (∀ earlier ∈ (before.getD node []).take next, earlier ∈ order ∨ earlier = child) ∧
        Suspended before order node stack

def Stacked (before : List (List Nat)) (order : List Nat) : List (Nat × Nat) → Prop
  | [] => True
  | (node, next) :: stack =>
    (∀ earlier ∈ (before.getD node []).take next, earlier ∈ order) ∧
      Suspended before order node stack

/-- The groups on the stack that are marked so: the top one has to be entered first. -/
def entered : List (Nat × Nat) → List Nat
  | [] => []
  | (node, next) :: stack => if next = 0 then stack.map Prod.fst else node :: stack.map Prod.fst

/-- The marks tell which groups are finished and which ones the walk is inside of. -/
structure WellMarked (before : List (List Nat)) (inside : List Nat) (marks : List Mark)
    (order : List Nat) : Prop where
  length : marks.length = before.length
  done : ∀ node, marks[node]? = some .done ↔ node ∈ order
  onStack : ∀ node, marks[node]? = some .onStack ↔ node ∈ inside
  once : (order ++ inside).Nodup
  sorted : Topological (Leads before) order

def Walk.Between (before : List (List Nat)) (walk : Walk) : Prop :=
  WellMarked before (entered walk.stack) walk.marks walk.order ∧ Stacked before walk.order walk.stack

/-- The walk has finished the group or will come back for it. -/
def Walk.Holds (walk : Walk) (node : Nat) : Prop :=
  node ∈ walk.order ∨ node ∈ walk.stack.map Prod.fst

def Cyclic (before : List (List Nat)) (error : ForkError) : Prop :=
  (∃ path, error = .cycle path) ∧ ∃ node, Relation.TransGen (Leads before) node node

/-! ## Turns -/

section Costs

variable (before : List (List Nat))

/-- What the walk may spend in all on the groups it has entered. -/
def spent (nodes : List Nat) : Nat :=
  ((nodes.map (before.getD · [])).map fun earlier => 2 * earlier.length + 2).sum

/-- What the walk may still spend on the groups on its stack. -/
def stackCost : List (Nat × Nat) → Nat
  | [] => 0
  | (node, next) :: stack =>
    (if next = 0 then 1 else 2 * ((before.getD node []).length - next) + 1) + stackCost stack

/-- What a turn gives: a walk that holds the groups that are due, with its cost paid for, or
a cycle. -/
def Turned (due : Nat → Prop) (owed budget : Nat) : Except ForkError Walk → Prop
  | .ok after => after.Between before ∧ (∀ node < before.length, due node → after.Holds node) ∧
      stackCost before after.stack + owed <
        budget + spent before (after.order ++ entered after.stack)
  | .error error => Cyclic before error

/-- What the walk from one or more starts gives. -/
def Finished (due : Nat → Prop) : Except ForkError Walk → Prop
  | .ok after => WellMarked before [] after.marks after.order ∧
      ∀ node < before.length, due node → node ∈ after.order
  | .error error => Cyclic before error

end Costs

variable {before : List (List Nat)} {order inside : List Nat} {stack : List (Nat × Nat)}
  {marks : List Mark} {walk : Walk} {node next child : Nat}

namespace Suspended

theorem mono {later : List Nat} (more : order ⊆ later)
    (suspended : Suspended before order child stack) : Suspended before later child stack := by
  induction stack generalizing child with
  | nil => trivial
  | cons frame stack induction =>
    rcases suspended with ⟨started, lead, followed, below⟩
    refine ⟨started, lead, ?_, induction below⟩
    intro earlier edge
    exact (followed earlier edge).imp_left fun known => more known

theorem transGen (suspended : Suspended before order child stack)
    (below : node ∈ stack.map Prod.fst) : Relation.TransGen (Leads before) node child := by
  induction stack generalizing child with
  | nil => cases below
  | cons frame stack induction =>
    rcases suspended with ⟨_, lead, _, suspendedBelow⟩
    rcases mem_cons.mp below with rfl | deeper
    · exact .single lead
    · exact (induction suspendedBelow deeper).tail lead

theorem entered_eq (suspended : Suspended before order child stack) :
    entered stack = stack.map Prod.fst := by
  cases stack with
  | nil => rfl
  | cons frame stack => exact if_neg suspended.1

/-- With `child` finished, the group below it goes on. -/
theorem resume (suspended : Suspended before order child stack) {later : List Nat}
    (more : order ⊆ later) (finished : ∀ node, Leads before node child → child ∈ later) :
    Stacked before later stack := by
  cases stack with
  | nil => trivial
  | cons frame stack =>
    rcases suspended with ⟨_, lead, followed, below⟩
    refine ⟨?_, below.mono more⟩
    intro earlier edge
    rcases followed earlier edge with known | rfl
    · exact more known
    · exact finished _ lead

end Suspended

namespace WellMarked

theorem enter (marked : WellMarked before inside marks order)
    (unvisited : marks[node]? = some .unvisited) :
    WellMarked before (node :: inside) (marks.set node .onStack) order := by
  have within := (List.getElem?_eq_some_iff.mp unvisited).1
  have notDone : node ∉ order := by
    rw [← marked.done, unvisited]
    simp
  have notInside : node ∉ inside := by
    rw [← marked.onStack, unvisited]
    simp
  refine ⟨length_set.trans marked.length, ?_, ?_, ?_, marked.sorted⟩
  · intro other
    by_cases same : node = other
    · subst same
      rw [getElem?_set_self within]
      simp [notDone]
    · rw [getElem?_set_ne same]
      exact marked.done other
  · intro other
    by_cases same : node = other
    · subst same
      rw [getElem?_set_self within]
      simp
    · rw [getElem?_set_ne same, marked.onStack, mem_cons]
      exact (or_iff_right fun equal => same equal.symm).symm
  · rw [nodup_middle, nodup_cons, mem_append]
    exact ⟨fun known => known.elim notDone notInside, marked.once⟩

theorem finish (marked : WellMarked before (node :: inside) marks order)
    (last : ∀ earlier, Leads before node earlier → earlier ∈ order) :
    WellMarked before inside (marks.set node .done) (order ++ [node]) := by
  have open_ := (marked.onStack node).mpr (.head _)
  have within := (List.getElem?_eq_some_iff.mp open_).1
  have once := marked.once
  have alone : node ∉ order ++ inside := (nodup_middle.mp once).notMem
  refine ⟨length_set.trans marked.length, ?_, ?_, ?_, marked.sorted.concat last⟩
  · intro other
    rw [mem_append, mem_singleton]
    by_cases same : node = other
    · subst same
      rw [getElem?_set_self within]
      simp
    · rw [getElem?_set_ne same, marked.done]
      exact (or_iff_left fun equal => same equal.symm).symm
  · intro other
    by_cases same : node = other
    · subst same
      rw [getElem?_set_self within]
      simp only [Option.some.injEq, reduceCtorEq, false_iff]
      exact fun known => alone (mem_append_right _ known)
    · rw [getElem?_set_ne same, marked.onStack, mem_cons]
      exact or_iff_right fun equal => same equal.symm
  · rw [append_assoc]
    exact once

theorem spent_lt (marked : WellMarked before inside marks order) :
    spent before (order ++ inside) < walkTurns before := by
  have within : order ++ inside ⊆ List.range before.length := by
    intro node member
    rw [mem_range, ← marked.length]
    rcases mem_append.mp member with done | open_
    · exact (List.getElem?_eq_some_iff.mp ((marked.done node).mpr done)).1
    · exact (List.getElem?_eq_some_iff.mp ((marked.onStack node).mpr open_)).1
  rcases subperm_of_subset marked.once within with ⟨nodes, same, part⟩
  apply Nat.lt_succ_of_le
  unfold spent
  rw [← ((same.map _).map _).sum_eq]
  have bounded := ((part.map (before.getD · [])).map fun earlier => 2 * earlier.length + 2).sum_le_sum
  rw [map_range_getD] at bounded
  exact bounded fun _ _ => Nat.zero_le _

end WellMarked

theorem getElem?_of_getD {mark : Mark} (found : marks.getD node .done = mark)
    (within : mark = .done → node < marks.length) : marks[node]? = some mark := by
  rw [getD_eq_getElem?_getD] at found
  cases known : marks[node]? with
  | none =>
    rw [known, Option.getD_none] at found
    have bound := within found.symm
    rw [getElem?_eq_none_iff] at known
    omega
  | some other =>
    rw [known, Option.getD_some] at found
    rw [found]

theorem Turned.mono {due : Nat → Prop} {owed budget less more : Nat} {result : Except ForkError Walk}
    (turned : Turned before due owed budget result) (paid : less + budget ≤ owed + more) :
    Turned before due less more result := by
  cases result with
  | error error => exact turned
  | ok after =>
    have cost := turned.2.2
    exact ⟨turned.1, turned.2.1, by omega⟩

theorem Finished.mono {due less : Nat → Prop} {result : Except ForkError Walk}
    (finished : Finished before due result) (fewer : ∀ node < before.length, less node → due node) :
    Finished before less result := by
  cases result with
  | error error => exact finished
  | ok after =>
    exact ⟨finished.1, fun node within isDue => finished.2 node within (fewer node within isDue)⟩

theorem spent_enter : spent before (order ++ node :: inside) =
    spent before (order ++ inside) + (2 * (before.getD node []).length + 2) := by
  simp only [spent, map_append, map_cons, sum_append, sum_cons]
  omega

section Turns

variable {sources : List SyncPath}
  (bounded : ∀ node earlier, Leads before node earlier → earlier < before.length)
include bounded

theorem turned_followEdge
    (marked : WellMarked before (node :: walk.stack.map Prod.fst) walk.marks walk.order)
    (followed : ∀ earlier ∈ (before.getD node []).take next, earlier ∈ walk.order)
    (suspended : Suspended before walk.order node walk.stack) :
    Turned before ({ walk with stack := (node, next) :: walk.stack } : Walk).Holds
      (spent before (walk.order ++ node :: walk.stack.map Prod.fst))
      (2 * ((before.getD node []).length - next) + 1 + stackCost before walk.stack)
      (followEdge sources before node next walk) := by
  unfold followEdge
  split
  · rename_i earlier edge
    have lead : Leads before node earlier := mem_of_getElem? edge
    have inside := (List.getElem?_eq_some_iff.mp edge).1
    have taken : (before.getD node []).take (next + 1) =
        (before.getD node []).take next ++ [earlier] := by
      rw [take_add_one, edge, Option.toList_some]
    split
    · rename_i found
      refine ⟨⟨_, rfl⟩, earlier, ?_⟩
      have open_ := (marked.onStack earlier).mp (getElem?_of_getD found nofun)
      rcases mem_cons.mp open_ with rfl | below
      · exact .single lead
      · exact (suspended.transGen below).tail lead
    · refine ⟨⟨marked, ?_⟩, ?_, ?_⟩
      · refine ⟨by simp, Nat.succ_ne_zero next, lead, ?_, suspended⟩
        rw [taken]
        exact forall_mem_concat (fun other edge => .inl (followed other edge)) (.inr rfl)
      · intro other _ held
        exact held.imp_right fun stacked => .tail _ stacked
      · simp only [stackCost, entered, map_cons, ↓reduceIte, Nat.succ_ne_zero]
        omega
    · rename_i found
      refine ⟨⟨marked, ?_, suspended⟩, fun other _ held => held, ?_⟩
      · rw [taken]
        apply forall_mem_concat followed
        apply (marked.done earlier).mp
        exact getElem?_of_getD found fun _ => marked.length.symm ▸ bounded _ _ lead
      · simp only [stackCost, entered, ↓reduceIte, Nat.succ_ne_zero]
        omega
  · rename_i none
    rw [take_of_length_le (getElem?_eq_none_iff.mp none)] at followed
    have last : node ∈ walk.order ++ [node] := mem_append_right _ (.head _)
    refine ⟨⟨?_, suspended.resume (subset_append_left ..) fun _ _ => last⟩, ?_, ?_⟩
    · dsimp only
      rw [suspended.entered_eq]
      exact marked.finish followed
    · intro other _ held
      rcases held with known | stacked
      · exact .inl (mem_append_left _ known)
      · rcases mem_cons.mp stacked with rfl | below
        · exact .inl last
        · exact .inr below
    · dsimp only
      rw [suspended.entered_eq, append_assoc, singleton_append]
      omega

theorem turned_walkStep
    (between : ({ walk with stack := (node, next) :: walk.stack } : Walk).Between before) :
    Turned before ({ walk with stack := (node, next) :: walk.stack } : Walk).Holds
      (spent before (walk.order ++ entered ((node, next) :: walk.stack)))
      (stackCost before ((node, next) :: walk.stack))
      (walkStep sources before node next walk) := by
  rcases between with ⟨marked, followed, suspended⟩
  dsimp only at marked followed suspended
  unfold walkStep
  rw [entered] at marked ⊢
  rw [stackCost]
  split
  · rename_i first
    rw [if_pos first] at marked
    split
    · rename_i found
      have done : node < before.length → node ∈ walk.order := fun within =>
        (marked.done node).mp (getElem?_of_getD found fun _ => marked.length.symm ▸ within)
      refine ⟨⟨?_, suspended.resume (List.Subset.refl _) fun _ lead => done (bounded _ _ lead)⟩, ?_, ?_⟩
      · rw [suspended.entered_eq]
        exact marked
      · intro other within held
        rcases held with known | stacked
        · exact .inl known
        · rcases mem_cons.mp stacked with rfl | below
          · exact .inl (done within)
          · exact .inr below
      · rw [suspended.entered_eq]
        omega
    · rename_i found
      have below := (marked.onStack node).mp (getElem?_of_getD found nofun)
      exact ⟨⟨_, rfl⟩, node, suspended.transGen below⟩
    · rename_i found
      have entered := marked.enter (getElem?_of_getD found nofun)
      apply (@turned_followEdge _ { walk with marks := walk.marks.set node .onStack } node next
        sources bounded entered followed suspended).mono
      rw [spent_enter]
      dsimp only
      omega
  · rename_i started
    rw [if_neg started] at marked
    exact turned_followEdge bounded marked followed suspended

omit bounded in
theorem Walk.Between.finished (between : walk.Between before) (empty : walk.stack = []) :
    Finished before walk.Holds (.ok walk) := by
  have marked := between.1
  rw [empty] at marked
  refine ⟨marked, ?_⟩
  intro node _ held
  unfold Walk.Holds at held
  rw [empty] at held
  exact held.resolve_right not_mem_nil

theorem finished_walkGroups {turns : Nat} (between : walk.Between before)
    (enough : stackCost before walk.stack + walkTurns before ≤
      turns + 1 + spent before (walk.order ++ entered walk.stack)) :
    Finished before walk.Holds (walkGroups sources before turns walk) := by
  induction turns generalizing walk with
  | zero =>
    rw [walkGroups]
    have within := between.1.spent_lt
    cases stacked : walk.stack with
    | nil => exact between.finished stacked
    | cons frame stack =>
      rw [stacked] at enough within
      rw [stackCost] at enough
      split at enough <;> omega
  | succ turns induction =>
    rw [walkGroups]
    split
    · rename_i empty
      exact between.finished empty
    · rename_i node next stack stacked
      have whole : ({ walk with stack := (node, next) :: stack } : Walk) = walk := by
        rw [← stacked]
      rw [← whole] at between
      have turned := @turned_walkStep _ { walk with stack } node next sources bounded between
      rw [whole] at turned
      rw [stacked] at enough
      cases result : walkStep sources before node next { walk with stack } with
      | error error =>
        rw [result] at turned
        exact turned
      | ok after =>
        rw [result] at turned
        rcases turned with ⟨afterBetween, kept, paid⟩
        exact (induction afterBetween (by dsimp only at paid; omega)).mono kept

theorem finished_walkAll {starts : List Nat} (marked : WellMarked before [] walk.marks walk.order) :
    Finished before (fun node => node ∈ starts ∨ node ∈ walk.order)
      (walkAll sources before starts walk) := by
  induction starts generalizing walk with
  | nil => exact ⟨marked, fun node _ due => due.resolve_left not_mem_nil⟩
  | cons start rest induction =>
    have first := @finished_walkGroups _ { walk with stack := [(start, 0)] } sources bounded
      (walkTurns before) ⟨marked, by simp, trivial⟩
      (by simp only [stackCost, ↓reduceIte]; omega)
    rw [walkAll]
    cases result : walkGroups sources before (walkTurns before) { walk with stack := [(start, 0)] } with
    | error error =>
      rw [result] at first
      exact first
    | ok between =>
      rw [result] at first
      rcases first with ⟨markedBetween, kept⟩
      apply (induction markedBetween).mono
      intro node within due
      rw [mem_cons, or_right_comm, or_comm] at due
      apply due.imp_right
      intro started
      exact kept node within (started.symm.imp_right mem_singleton.mpr)

end Turns

/-! ## The order -/

/-- `other` has to go before `group`: its source is one of the destinations. -/
def MovesOnto (groups : List ForkGroup) (group other : ForkGroup) : Prop :=
  group ∈ groups ∧ other ∈ groups ∧ ∃ put ∈ group.puts, put.1 = other.source

variable {groups : List ForkGroup}

theorem movesOnto_of_leads {earlier : Nat} (lead : Leads (groupsBefore groups) node earlier) :
    ∃ group other, groups[node]? = some group ∧ groups[earlier]? = some other ∧
      MovesOnto groups group other := by
  unfold Leads groupsBefore at lead
  rw [getD_eq_getElem?_getD, getElem?_map] at lead
  cases found : groups[node]? with
  | none => simp [found] at lead
  | some group =>
    rw [found] at lead
    rcases mem_filterMap.mp lead with ⟨put, isPut, index⟩
    rcases findIdx?_eq_some_iff_getElem.mp index with ⟨within, same, _⟩
    refine ⟨group, groups[earlier], rfl, getElem?_eq_getElem within,
      mem_of_getElem? found, getElem_mem within, put, isPut, ?_⟩
    exact (of_decide_eq_true same).symm

theorem leads_of_movesOnto (distinct : (groups.map ForkGroup.source).Nodup) {group other : ForkGroup}
    {earlier : Nat} (found : groups[node]? = some group) (foundOther : groups[earlier]? = some other)
    (moves : MovesOnto groups group other) : Leads (groupsBefore groups) node earlier := by
  rcases moves with ⟨_, _, put, isPut, same⟩
  unfold Leads groupsBefore
  rw [getD_eq_getElem?_getD, getElem?_map, found]
  rcases List.getElem?_eq_some_iff.mp foundOther with ⟨within, rfl⟩
  refine mem_filterMap.mpr ⟨put, isPut, findIdx?_eq_some_iff_getElem.mpr ⟨within, ?_, ?_⟩⟩
  · exact decide_eq_true same.symm
  · intro index less
    rw [decide_eq_true_eq, same]
    have apart := pairwise_iff_getElem.mp distinct index earlier
      (by rw [length_map]; omega) (by rw [length_map]; omega) less
    rw [getElem_map, getElem_map] at apart
    exact apart

theorem orderGroups_walks (groups : List ForkGroup) :
    (∃ order, orderGroups groups = .ok (order.filterMap (groups[·]?)) ∧
      order.Perm (List.range groups.length) ∧ Topological (Leads (groupsBefore groups)) order) ∨
    (∃ path, orderGroups groups = .error (.cycle path)) ∧
      ∃ node, Relation.TransGen (Leads (groupsBefore groups)) node node := by
  have length : (groupsBefore groups).length = groups.length := length_map _
  have bounded : ∀ node earlier, Leads (groupsBefore groups) node earlier →
      earlier < (groupsBefore groups).length := by
    intro node earlier lead
    rcases movesOnto_of_leads lead with ⟨_, _, _, found, _⟩
    rw [length]
    exact (List.getElem?_eq_some_iff.mp found).1
  have none : WellMarked (groupsBefore groups) [] (List.replicate groups.length .unvisited) [] := by
    refine ⟨?_, ?_, ?_, nodup_nil, .nil _⟩
    · rw [length_replicate, length]
    · simp [getElem?_replicate]
    · simp [getElem?_replicate]
  have walked := @finished_walkAll _ ⟨[], List.replicate groups.length .unvisited, []⟩
    (groups.map ForkGroup.source) bounded (List.range groups.length) none
  unfold orderGroups
  cases result : walkAll (groups.map ForkGroup.source) (groupsBefore groups)
    (List.range groups.length) ⟨[], List.replicate groups.length .unvisited, []⟩ with
  | error error =>
    rw [result] at walked
    rcases walked with ⟨⟨path, rfl⟩, cycle⟩
    exact .inr ⟨⟨path, rfl⟩, cycle⟩
  | ok walk =>
    rw [result] at walked
    rcases walked with ⟨marked, reached⟩
    have once := marked.once
    rw [append_nil] at once
    refine .inl ⟨walk.order, rfl, ?_, marked.sorted⟩
    apply (perm_ext_iff_of_nodup once nodup_range).mpr
    intro node
    rw [mem_range, ← length]
    constructor
    · intro known
      rw [← marked.length]
      exact (List.getElem?_eq_some_iff.mp ((marked.done node).mpr known)).1
    · intro inside
      exact reached node inside (.inl (mem_range.mpr (length ▸ inside)))

theorem perm_orderGroups {ordered : List ForkGroup} (inOrder : orderGroups groups = .ok ordered) :
    ordered.Perm groups := by
  rcases orderGroups_walks groups with ⟨order, given, all, _⟩ | ⟨⟨path, failed⟩, _⟩
  · rw [given] at inOrder
    cases inOrder
    exact (all.filterMap _).trans (.of_eq (filterMap_range_getElem? groups))
  · rw [failed] at inOrder
    cases inOrder

theorem transGen_movesOnto {last : Nat}
    (path : Relation.TransGen (Leads (groupsBefore groups)) node last) :
    ∃ group other, groups[node]? = some group ∧ groups[last]? = some other ∧
      Relation.TransGen (MovesOnto groups) group other := by
  induction path with
  | single lead =>
    rcases movesOnto_of_leads lead with ⟨group, other, found, foundOther, moves⟩
    exact ⟨group, other, found, foundOther, .single moves⟩
  | tail _ lead induction =>
    rcases induction with ⟨group, middle, found, foundMiddle, moves⟩
    rcases movesOnto_of_leads lead with ⟨same, other, foundSame, foundOther, last⟩
    cases foundMiddle.symm.trans foundSame
    exact ⟨group, other, found, foundOther, moves.tail last⟩

theorem orderGroups_topological (groups : List ForkGroup)
    (distinct : (groups.map ForkGroup.source).Nodup) :
    ((∃ ordered, orderGroups groups = .ok ordered ∧ ordered.Perm groups ∧
        Topological (MovesOnto groups) ordered) ∨
      ∃ path, orderGroups groups = .error (.cycle path)) ∧
    ((∃ path, orderGroups groups = .error (.cycle path)) ↔
      ∃ group, Relation.TransGen (MovesOnto groups) group group) := by
  rcases orderGroups_walks groups with ⟨order, inOrder, _, sorted⟩ | ⟨failed, node, cycle⟩
  · have permuted := perm_orderGroups inOrder
    have sortedGroups : Topological (MovesOnto groups) (order.filterMap (groups[·]?)) := by
      apply sorted.filterMap
      intro index group other found moves
      rcases List.getElem?_of_mem moves.2.1 with ⟨earlier, foundOther⟩
      exact ⟨earlier, foundOther, leads_of_movesOnto distinct found foundOther moves⟩
    refine ⟨.inl ⟨_, inOrder, permuted, sortedGroups⟩, ?_⟩
    constructor
    · rintro ⟨path, failed⟩
      rw [inOrder] at failed
      cases failed
    · rintro ⟨group, cycle⟩
      have once := permuted.nodup_iff.mpr distinct.of_map
      have member : group ∈ groups := by
        rcases Relation.TransGen.head'_iff.mp cycle with ⟨_, moves, _⟩
        exact moves.1
      exact absurd cycle (sortedGroups.not_transGen_self once (permuted.mem_iff.mpr member))
  · refine ⟨.inr failed, fun _ => ?_, fun _ => failed⟩
    rcases transGen_movesOnto cycle with ⟨group, other, found, foundOther, moves⟩
    cases found.symm.trans foundOther
    exact ⟨group, moves⟩

theorem orderGroups_topological_shared :
    ¬ ∃ group, Relation.TransGen (MovesOnto [⟨"a", [], [("c", ⟨0⟩), ("b", ⟨0⟩)]⟩,
      ⟨"b", [], [("c", ⟨0⟩)]⟩, ⟨"c", [], []⟩]) group group := by
  rw [← (orderGroups_topological _ (by decide)).2]
  rintro ⟨path, failed⟩
  cases failed

end Yadorilink
