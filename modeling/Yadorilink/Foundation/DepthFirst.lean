import Mathlib

/-! Depth-first search with one visited set threaded through the whole search.
The search stops at the first node that satisfies `found`; it does not enter a
node for which `edges` gives nothing. With fuel for every node it can enter,
it succeeds exactly when such a node is reachable. -/

namespace Yadorilink.DepthFirst

open List

universe u

variable {α : Type u} [DecidableEq α]

/-- Tries the nodes in order until one visit succeeds, handing each visit the
nodes visited so far. -/
def visitAny (visit : α → List α → Bool × List α) : List α → List α → Bool × List α
  | [], visited => (false, visited)
  | node :: rest, visited =>
    match visit node visited with
    | (true, visitedNext) => (true, visitedNext)
    | (false, visitedNext) => visitAny visit rest visitedNext

def searchFrom (found : α → Bool) (edges : α → Option (List α)) :
    Nat → α → List α → Bool × List α
  | 0, _, visited => (false, visited)
  | fuel + 1, node, visited =>
    match edges node with
    | none => (false, visited)
    | some successors =>
      if found node then
        (true, visited)
      else if node ∈ visited then
        (false, visited)
      else
        visitAny (searchFrom found edges fuel) successors (node :: visited)

variable (found : α → Bool) (edges : α → Option (List α))

def Edge (node next : α) : Prop := ∃ successors, edges node = some successors ∧ next ∈ successors

def Goal (node : α) : Prop := (edges node).isSome ∧ found node = true

/-! ## Soundness -/

omit [DecidableEq α] in
private theorem visitAny_true {visit : α → List α → Bool × List α} {nodes visited : List α}
    (succeeded : (visitAny visit nodes visited).1 = true) :
    ∃ node, node ∈ nodes ∧ ∃ before, (visit node before).1 = true := by
  induction nodes generalizing visited with
  | nil => cases succeeded
  | cons node rest induction =>
    rw [visitAny] at succeeded
    split at succeeded
    · rename_i visitedNext result
      exact ⟨node, .head _, visited, by rw [result]⟩
    · rcases induction succeeded with ⟨other, member, before, result⟩
      exact ⟨other, .tail node member, before, result⟩

theorem reachable_of_searchFrom {fuel : Nat} {node : α} {visited : List α}
    (succeeded : (searchFrom found edges fuel node visited).1 = true) :
    ∃ goal, Relation.ReflTransGen (Edge edges) node goal ∧ Goal found edges goal := by
  induction fuel generalizing node visited with
  | zero => cases succeeded
  | succ fuel induction =>
    rw [searchFrom] at succeeded
    split at succeeded
    · cases succeeded
    · rename_i successors entered
      split at succeeded
      · rename_i isGoal
        exact ⟨node, .refl, by rw [entered]; rfl, isGoal⟩
      · split at succeeded
        · cases succeeded
        · rcases visitAny_true succeeded with ⟨next, member, before, result⟩
          rcases induction result with ⟨goal, path, isGoal⟩
          exact ⟨goal, .head ⟨successors, entered, member⟩ path, isGoal⟩

/-! ## Completeness

A failed search leaves a visited set that is closed as far as it was added to:
every node it added is no goal, and all its successors were visited too. The
bound on the fuel is the number of nodes still to be entered. -/

/-- `after` extends `before` by nodes that are no goals and whose successors
are dead ends or in `after`. -/
structure Explored (before after : List α) : Prop where
  extended : ∀ node, node ∈ before → node ∈ after
  closed : ∀ node, node ∈ after → node ∉ before →
    ¬Goal found edges node ∧ ∀ next, Edge edges node next →
      edges next = none ∨ (next ∈ after ∧ found next = false)

namespace Explored

variable {found edges}

omit [DecidableEq α] in
theorem refl (visited : List α) : Explored found edges visited visited :=
  ⟨fun _ member => member, fun _ member absent => absurd member absent⟩

omit [DecidableEq α] in
theorem trans {first second third : List α} (left : Explored found edges first second)
    (right : Explored found edges second third) : Explored found edges first third := by
  refine ⟨fun node member => right.extended node (left.extended node member), ?_⟩
  intro node member absent
  by_cases inSecond : node ∈ second
  · have facts := left.closed node inSecond absent
    refine ⟨facts.1, fun next edge => ?_⟩
    rcases facts.2 next edge with deadEnd | visited
    · exact Or.inl deadEnd
    · exact Or.inr ⟨right.extended next visited.1, visited.2⟩
  · exact right.closed node member inSecond

end Explored

def remaining (nodes visited : List α) : Nat := nodes.countP fun node => node ∉ visited

private theorem remaining_mono (nodes : List α) {before after : List α}
    (extended : ∀ node, node ∈ before → node ∈ after) :
    remaining nodes after ≤ remaining nodes before := by
  apply countP_mono_left
  intro node _ absent
  simp only [decide_eq_true_eq] at absent ⊢
  exact fun member => absent (extended node member)

private theorem remaining_lt_of_mem {nodes visited : List α} {node : α}
    (member : node ∈ nodes) (fresh : node ∉ visited) :
    remaining nodes (node :: visited) < remaining nodes visited := by
  induction nodes with
  | nil => cases member
  | cons first rest induction =>
    have restMono : remaining rest (node :: visited) ≤ remaining rest visited :=
      remaining_mono rest fun other inVisited => .tail node inVisited
    unfold remaining at induction restMono ⊢
    rw [countP_cons, countP_cons]
    by_cases same : first = node
    · have entered : decide (first ∉ node :: visited) = false := by simp [same]
      have notYet : decide (first ∉ visited) = true := by simp [same, fresh]
      rw [entered, notYet, if_pos rfl, if_neg Bool.false_ne_true]
      omega
    · have later := induction ((mem_cons.mp member).resolve_left (Ne.symm same))
      have unchanged : decide (first ∉ node :: visited) = decide (first ∉ visited) := by
        simp [same]
      rw [unchanged]
      omega

section Completeness

variable {nodes : List α} (enterable : ∀ node, (edges node).isSome → node ∈ nodes)

include enterable

private theorem searchFrom_false {fuel : Nat} {node : α} {visited : List α}
    (enough : remaining nodes visited < fuel)
    (failed : (searchFrom found edges fuel node visited).1 = false) :
    Explored found edges visited (searchFrom found edges fuel node visited).2 ∧ (edges node = none ∨
        (node ∈ (searchFrom found edges fuel node visited).2 ∧ found node = false)) := by
  induction fuel generalizing node visited with
  | zero => exact absurd enough (Nat.not_lt_zero _)
  | succ fuel induction =>
    rw [searchFrom] at failed ⊢
    cases entered : edges node with
    | none => exact ⟨Explored.refl visited, Or.inl rfl⟩
    | some successors =>
      simp only [entered] at failed ⊢
      split at failed
      · cases failed
      · rename_i notGoal
        rw [if_neg notGoal]
        have notFound : found node = false := Bool.eq_false_iff.mpr notGoal
        by_cases seen : node ∈ visited
        · rw [if_pos seen]
          exact ⟨Explored.refl visited, Or.inr ⟨seen, notFound⟩⟩
        · rw [if_neg seen] at failed ⊢
          have fewer := remaining_lt_of_mem
            (enterable node (by rw [entered]; rfl)) seen
          -- The loop over the successors, one failed visit after another.
          have loop : ∀ (pending before : List α),
              remaining nodes before < fuel →
              (visitAny (searchFrom found edges fuel) pending before).1 = false →
              Explored found edges before
                (visitAny (searchFrom found edges fuel) pending before).2 ∧
              ∀ next, next ∈ pending → edges next = none ∨
                (next ∈ (visitAny (searchFrom found edges fuel) pending before).2 ∧
                  found next = false) := by
            intro pending
            induction pending with
            | nil =>
              intro before _ _
              exact ⟨Explored.refl before, fun next member => absurd member
                not_mem_nil⟩
            | cons first rest restLoop =>
              intro before enoughHere failedHere
              rw [visitAny] at failedHere ⊢
              split at failedHere
              · cases failedHere
              · rename_i visitedNext result
                have firstFailed :
                    (searchFrom found edges fuel first before).1 = false := by rw [result]
                have firstFacts := induction enoughHere firstFailed
                rw [result] at firstFacts
                have enoughNext : remaining nodes visitedNext < fuel :=
                  Nat.lt_of_le_of_lt (remaining_mono nodes firstFacts.1.extended)
                    enoughHere
                have restFacts := restLoop visitedNext enoughNext failedHere
                refine ⟨firstFacts.1.trans restFacts.1, ?_⟩
                intro next member
                rcases mem_cons.mp member with equal | inRest
                · subst equal
                  rcases firstFacts.2 with deadEnd | visitedFirst
                  · exact Or.inl deadEnd
                  · exact Or.inr
                      ⟨restFacts.1.extended _ visitedFirst.1, visitedFirst.2⟩
                · exact restFacts.2 next inRest
          have facts := loop successors (node :: visited) (by omega) failed
          refine ⟨⟨fun other member => facts.1.extended other
            (.tail node member), ?_⟩,
            Or.inr ⟨facts.1.extended node (.head _), notFound⟩⟩
          intro other member absent
          by_cases same : other = node
          · subst same
            refine ⟨fun goal => notGoal goal.2, ?_⟩
            rintro next ⟨known, knownEdges, inKnown⟩
            rw [entered] at knownEdges
            cases knownEdges
            exact facts.2 next inKnown
          · exact facts.1.closed other member
              (fun inCons => (mem_cons.mp inCons).elim same absent)

/-- With fuel for every node the search can enter, it succeeds exactly when a
goal is reachable. -/
theorem searchFrom_eq_true_iff {fuel : Nat} (enough : nodes.length < fuel) (node : α) :
    (searchFrom found edges fuel node []).1 = true ↔
      ∃ goal, Relation.ReflTransGen (Edge edges) node goal ∧ Goal found edges goal := by
  constructor
  · exact reachable_of_searchFrom found edges
  · rintro ⟨goal, path, isGoal⟩
    by_contra notTrue
    have failed := Bool.eq_false_iff.mpr notTrue
    have enoughHere : remaining nodes [] < fuel :=
      Nat.lt_of_le_of_lt countP_le_length enough
    have facts := searchFrom_false found edges enterable enoughHere failed
    -- Every node on the path is a dead end or was visited without being a goal.
    have along : ∀ last, Relation.ReflTransGen (Edge edges) node last →
        edges last = none ∨
          (last ∈ (searchFrom found edges fuel node []).2 ∧ found last = false) := by
      intro last reached
      induction reached with
      | refl => exact facts.2
      | tail _ edge previous =>
        rcases previous with deadEnd | visited
        · rcases edge with ⟨successors, entered, _⟩
          rw [deadEnd] at entered
          cases entered
        · exact (facts.1.closed _ visited.1 not_mem_nil).2 _ edge
    rcases along goal path with deadEnd | visited
    · rw [Goal, deadEnd] at isGoal
      exact absurd isGoal.1 (by simp)
    · rw [Goal, visited.2] at isGoal
      exact absurd isGoal.2 (by simp)

end Completeness

end Yadorilink.DepthFirst
