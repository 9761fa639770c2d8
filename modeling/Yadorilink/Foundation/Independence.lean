import Mathlib

/-! Tasks that run concurrently and do not affect one another. Each task turns the state of the
world into a result and a new state; two are independent if neither's result nor the state after
both depends on which comes first. Independent tasks give the same results in every order. -/

namespace Yadorilink.Independence

open List

universe u v w

variable {σ : Type u} {α : Type v} {ω : Type w} (settle : σ → α → ω × σ)

/-- The tasks one after another, each with its result. -/
def execute : σ → List α → List (α × ω) × σ
  | world, [] => ([], world)
  | world, task :: rest =>
    let done := settle world task
    let later := execute done.2 rest
    ((task, done.1) :: later.1, later.2)

/-- Tasks that are kept apart by the relation commute. -/
def Commutes (independent : α → α → Prop) : Prop :=
  ∀ first second world, independent first second →
    (settle (settle world first).2 second).1 = (settle world second).1 ∧
      (settle (settle world first).2 second).2 = (settle (settle world second).2 first).2

variable {settle} {independent : α → α → Prop}

theorem execute_results (commutes : Commutes settle independent) {tasks : List α}
    (apart : tasks.Pairwise independent) (world : σ) :
    (execute settle world tasks).1 = tasks.map fun task => (task, (settle world task).1) := by
  induction tasks generalizing world with
  | nil => rfl
  | cons task rest induction =>
    rcases pairwise_cons.mp apart with ⟨fromTask, restApart⟩
    rw [execute]
    dsimp only
    rw [induction restApart, map_cons, List.cons.injEq]
    refine ⟨rfl, map_congr_left fun other member => ?_⟩
    rw [(commutes task other world (fromTask other member)).1]

theorem execute_world_perm (commutes : Commutes settle independent)
    (symmetric : ∀ first second, independent first second → independent second first)
    {tasks order : List α}
    (apart : tasks.Pairwise independent) (permuted : tasks.Perm order) (world : σ) :
    (execute settle world order).2 = (execute settle world tasks).2 := by
  induction permuted generalizing world with
  | nil => rfl
  | cons task _ induction =>
    exact induction (pairwise_cons.mp apart).2 _
  | swap first second rest =>
    have both := (pairwise_cons.mp apart).1 first (.head _)
    change (execute settle (settle (settle world first).2 second).2 rest).2 =
      (execute settle (settle (settle world second).2 first).2 rest).2
    rw [(commutes second first world both).2]
  | trans firstPermuted _ firstInduction secondInduction =>
    have middle := (firstPermuted.pairwise_iff fun same => symmetric _ _ same).mp apart
    exact (secondInduction middle world).trans (firstInduction apart world)

/-! ## A bounded number in flight -/

/-- An order in which tasks can end when at most `limit` of them are in flight, and the next one
starts when one ends: at each end, one of the first `limit` that are left. -/
inductive Unordered (limit : Nat) : List α → List α → Prop where
  | done : Unordered limit [] []
  | ends (tasks : List α) (index : Nat) (task : α) (order : List α) (inFlight : index < limit)
      (found : tasks[index]? = some task) (rest : Unordered limit (tasks.eraseIdx index) order) :
      Unordered limit tasks (task :: order)

theorem Unordered.perm {limit : Nat} {tasks order : List α} (ended : Unordered limit tasks order) :
    tasks.Perm order := by
  induction ended with
  | done => exact List.Perm.refl []
  | ends tasks index task order inFlight found rest induction =>
    have bound : index < tasks.length := (List.getElem?_eq_some_iff.mp found).1
    have here : tasks[index] = task := (List.getElem?_eq_some_iff.mp found).2
    have split := getElem_cons_eraseIdx_perm bound
    rw [here] at split
    exact split.symm.trans (List.Perm.cons task induction)

end Yadorilink.Independence
