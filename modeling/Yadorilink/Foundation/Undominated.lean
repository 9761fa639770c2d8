import Mathlib

/-! The best elements of a finite pool: those that no other one is ahead of under a strict partial
order, and of these the one with the greatest key. -/

namespace Yadorilink.Undominated

open List

universe u v

variable {α : Type u} {κ : Type v}

/-! ## Elements nothing is ahead of -/

/-- The elements of the pool that none of the pool is ahead of. -/
def undominated (ahead : α → α → Bool) (pool : List α) : List α :=
  pool.filter fun element => !pool.any fun other => ahead other element

variable {ahead further : α → α → Bool}

theorem mem_undominated {pool : List α} {element : α} : element ∈ undominated ahead pool ↔
      element ∈ pool ∧ ∀ other ∈ pool, ahead other element = false := by
  rw [undominated, mem_filter]
  simp only [Bool.not_eq_true', any_eq_false, Bool.not_eq_true]

theorem undominated_perm (ahead : α → α → Bool) {first second : List α} (permuted : first.Perm second) :
    (undominated ahead first).Perm (undominated ahead second) := by
  have same : (fun element => !first.any fun other => ahead other element) =
      fun element => !second.any fun other => ahead other element := by
    funext element
    rw [permuted.any_eq]
  rw [undominated, undominated, same]
  exact permuted.filter _

theorem exists_last (irreflexive : ∀ element, further element element = false)
    (transitive : ∀ last middle first, further last middle = true →
      further middle first = true → further last first = true)
    {pool : List α} (inhabited : pool ≠ []) :
    ∃ last ∈ pool, ∀ other ∈ pool, further other last = false := by
  induction pool with
  | nil => exact absurd rfl inhabited
  | cons element rest induction =>
    by_cases alone : rest = []
    · subst alone
      refine ⟨element, .head _, fun other member => ?_⟩
      rw [mem_singleton.mp member]
      exact irreflexive element
    · rcases induction alone with ⟨last, inRest, latest⟩
      cases later : further element last with
      | false =>
        refine ⟨last, .tail _ inRest, fun other member => ?_⟩
        rcases mem_cons.mp member with rfl | member
        · exact later
        · exact latest other member
      | true =>
        refine ⟨element, .head _, fun other member => ?_⟩
        rcases mem_cons.mp member with rfl | member
        · exact irreflexive other
        · rw [← Bool.not_eq_true]
          intro beyond
          have contrary := transitive other element last beyond later
          rw [latest other member] at contrary
          cases contrary

/-- A relation inside a strict order leaves an element of every pool undominated, whether or not
it is transitive itself. -/
theorem undominated_ne_nil (ahead further : α → α → Bool)
    (irreflexive : ∀ element, further element element = false)
    (transitive : ∀ last middle first, further last middle = true →
      further middle first = true → further last first = true)
    (inside : ∀ newer older, ahead newer older = true → further newer older = true)
    {pool : List α} (inhabited : pool ≠ []) : undominated ahead pool ≠ [] := by
  rcases exists_last irreflexive transitive inhabited with ⟨last, inPool, latest⟩
  apply ne_nil_of_mem (a := last)
  refine mem_undominated.mpr ⟨inPool, fun other member => ?_⟩
  rw [← Bool.not_eq_true]
  intro beyond
  have contrary := inside other last beyond
  rw [latest other member] at contrary
  cases contrary

/-! ## The greatest key -/

variable [LinearOrder κ]

/-- The element with the greatest key, the last of them where several have it. -/
def maxByKey (key : α → κ) : List α → Option α
  | [] => none
  | element :: rest =>
    match maxByKey key rest with
    | none => some element
    | some best => if key element ≤ key best then some best else some element

variable {key : α → κ}

theorem maxByKey_eq_none {pool : List α} : maxByKey key pool = none ↔ pool = [] := by
  cases pool with
  | nil => exact iff_of_true rfl rfl
  | cons element rest =>
    refine iff_of_false ?_ (cons_ne_nil element rest)
    rw [maxByKey]
    split
    · exact Option.some_ne_none element
    · split
      · exact Option.some_ne_none _
      · exact Option.some_ne_none element

theorem maxByKey_spec {pool : List α} {best : α} (chosen : maxByKey key pool = some best) :
    best ∈ pool ∧ ∀ other ∈ pool, key other ≤ key best := by
  induction pool generalizing best with
  | nil => cases chosen
  | cons element rest induction =>
    rw [maxByKey] at chosen
    split at chosen
    · rename_i none
      cases chosen
      rw [maxByKey_eq_none.mp none]
      refine ⟨.head _, fun other member => ?_⟩
      rw [mem_singleton.mp member]
    · rename_i previous found
      rcases induction found with ⟨inRest, greatest⟩
      split at chosen
      · rename_i below
        cases chosen
        refine ⟨.tail _ inRest, fun other member => ?_⟩
        rcases mem_cons.mp member with rfl | member
        · exact below
        · exact greatest other member
      · rename_i above
        cases chosen
        refine ⟨.head _, fun other member => ?_⟩
        rcases mem_cons.mp member with rfl | member
        · exact le_rfl
        · exact (greatest other member).trans (le_of_not_ge above)

theorem maxByKey_perm (key : α → κ) {first second : List α} (permuted : first.Perm second) :
    (maxByKey key first).map key = (maxByKey key second).map key := by
  cases inFirst : maxByKey key first with
  | none =>
    have empty := maxByKey_eq_none.mp inFirst
    subst empty
    rw [maxByKey_eq_none.mpr (nil_perm.mp permuted)]
  | some best =>
    cases inSecond : maxByKey key second with
    | none =>
      have empty := maxByKey_eq_none.mp inSecond
      subst empty
      rw [perm_nil.mp permuted] at inFirst
      cases inFirst
    | some other =>
      rcases maxByKey_spec inFirst with ⟨bestIn, bestGreatest⟩
      rcases maxByKey_spec inSecond with ⟨otherIn, otherGreatest⟩
      apply congrArg some
      exact le_antisymm (otherGreatest best (permuted.mem_iff.mp bestIn))
        (bestGreatest other (permuted.mem_iff.mpr otherIn))

end Yadorilink.Undominated
