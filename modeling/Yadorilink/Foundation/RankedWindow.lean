import Mathlib

/-! The first rows of a collection in the order of a key, and three ways to compute them: sorting
everything, walking rows that are already in order until enough qualify, and keeping the best ones
of a stream in a bounded heap. -/

namespace Yadorilink.RankedWindow

open List

universe u v

variable {α : Type u} {κ : Type v} [LinearOrder κ] (key : α → κ)

def ranked (rows : List α) : List α :=
  rows.insertionSort fun first second => key first ≤ key second

def firstRanked (count : Nat) (rows : List α) : List α :=
  (ranked key rows).take count

def Distinct (rows : List α) : Prop :=
  ∀ first ∈ rows, ∀ second ∈ rows, key first = key second → first = second

variable {key} {rows : List α}

instance isTrans_key : IsTrans α fun first second => key first ≤ key second :=
  ⟨fun _ _ _ => le_trans⟩

instance total_key : Std.Total fun first second : α => key first ≤ key second :=
  ⟨fun _ _ => le_total _ _⟩

theorem ranked_perm_self (rows : List α) : (ranked key rows).Perm rows :=
  perm_insertionSort _ rows

theorem mem_ranked {row : α} : row ∈ ranked key rows ↔ row ∈ rows :=
  (ranked_perm_self rows).mem_iff

theorem pairwise_ranked (rows : List α) :
    (ranked key rows).Pairwise fun first second => key first ≤ key second :=
  pairwise_insertionSort _ rows

theorem mem_of_mem_firstRanked {count : Nat} {row : α} (member : row ∈ firstRanked key count rows) :
    row ∈ rows :=
  mem_ranked.mp (mem_of_mem_take member)

theorem eq_ranked {sorted : List α} (distinct : Distinct key rows) (permuted : sorted.Perm rows)
    (ordered : sorted.Pairwise fun first second => key first ≤ key second) :
    sorted = ranked key rows := by
  apply List.Perm.eq_of_pairwise _ ordered (pairwise_ranked rows)
    (permuted.trans (ranked_perm_self rows).symm)
  intro first second inSorted inRanked below above
  exact distinct first (permuted.mem_iff.mp inSorted) second (mem_ranked.mp inRanked)
    (le_antisymm below above)

theorem ranked_perm {others : List α} (distinct : Distinct key rows) (permuted : rows.Perm others) :
    ranked key rows = ranked key others := by
  symm
  exact eq_ranked distinct ((ranked_perm_self others).trans permuted.symm) (pairwise_ranked others)

theorem firstRanked_perm {others : List α} (distinct : Distinct key rows)
    (permuted : rows.Perm others) (count : Nat) :
    firstRanked key count rows = firstRanked key count others := by
  rw [firstRanked, firstRanked, ranked_perm distinct permuted]

omit [LinearOrder κ] in
theorem Distinct.filter (distinct : Distinct key rows) (kept : α → Bool) :
    Distinct key (rows.filter kept) :=
  fun first inFirst second inSecond =>
    distinct first (mem_filter.mp inFirst).1 second (mem_filter.mp inSecond).1

theorem ranked_filter (distinct : Distinct key rows) (kept : α → Bool) :
    (ranked key rows).filter kept = ranked key (rows.filter kept) :=
  eq_ranked (distinct.filter kept) ((ranked_perm_self rows).filter kept)
    ((pairwise_ranked rows).filter kept)

theorem head?_firstRanked_eq_some {row : α} (found : (firstRanked key 1 rows).head? = some row) :
    row ∈ rows ∧ ∀ other ∈ rows, key row ≤ key other := by
  rw [firstRanked, head?_take, if_neg (by decide)] at found
  rcases head?_eq_some_iff.mp found with ⟨rest, shape⟩
  refine ⟨mem_ranked.mp (mem_of_mem_head? found), fun other member => ?_⟩
  have ordered : (ranked key rows).Pairwise fun first second => key first ≤ key second :=
    pairwise_ranked rows
  have inRanked : other ∈ ranked key rows := mem_ranked.mpr member
  rw [shape] at ordered inRanked
  rcases mem_cons.mp inRanked with rfl | later
  · exact le_rfl
  · exact (pairwise_cons.mp ordered).1 other later

theorem head?_firstRanked_eq_none (nothing : (firstRanked key 1 rows).head? = none) :
    rows = [] := by
  rw [firstRanked, head?_take, if_neg (by decide), head?_eq_none_iff] at nothing
  exact perm_nil.mp (nothing ▸ ranked_perm_self rows).symm

/-! ## Walking rows in order -/

/-- Takes rows that qualify until there are `count` of them, and gives up once `bound` rows were
passed. The answer says whether it is the whole window. -/
def walk (qualifies : α → Bool) (count bound : Nat) : List α → Nat → List α → List α × Bool
  | [], passed, walked => (walked, decide (passed < bound))
  | row :: rest, passed, walked =>
    if qualifies row then
      if count ≤ (walked ++ [row]).length then
        (walked ++ [row], true)
      else if bound ≤ passed + 1 then
        (walked ++ [row], false)
      else
        walk qualifies count bound rest (passed + 1) (walked ++ [row])
    else if bound ≤ passed + 1 then
      (walked, false)
    else
      walk qualifies count bound rest (passed + 1) walked

theorem walk_complete {qualifies : α → Bool} {count bound : Nat} {passed : Nat}
    {walked found : List α} (room : walked.length < count)
    (complete : walk qualifies count bound rows passed walked = (found, true)) :
    found = walked ++ (rows.filter qualifies).take (count - walked.length) := by
  induction rows generalizing passed walked with
  | nil =>
    rw [walk, Prod.mk.injEq] at complete
    rw [filter_nil, take_nil, append_nil]
    exact complete.1.symm
  | cons row rest induction =>
    rw [walk] at complete
    split at complete
    · rename_i good
      have longer : (walked ++ [row]).length = walked.length + 1 := by simp
      have count_eq : count - walked.length = (count - (walked.length + 1)) + 1 := by omega
      rw [filter_cons_of_pos good, count_eq, take_succ_cons]
      split at complete
      · rename_i full
        have none : count - (walked.length + 1) = 0 := by omega
        rw [none, take_zero]
        exact (Prod.mk.inj complete).1.symm
      · rename_i short
        split at complete
        · cases (Prod.mk.inj complete).2
        · have rest := induction (by omega) complete
          rw [longer, append_assoc] at rest
          exact rest
    · rename_i bad
      rw [filter_cons_of_neg bad]
      split at complete
      · cases (Prod.mk.inj complete).2
      · exact induction room complete

/-! ## A bounded heap -/

variable (key)

/-- Pushes a row, and pops the greatest one if there are more than `count` then. The heap is kept
as the list of its rows in order. -/
def pushBounded (count : Nat) (heap : List α) (row : α) : List α :=
  let pushed := heap.orderedInsert (fun first second => key first ≤ key second) row
  if count < pushed.length then pushed.dropLast else pushed

variable {key}

theorem take_orderedInsert (count : Nat) (row : α) (rows : List α) :
    ((rows.take count).orderedInsert (fun first second => key first ≤ key second) row).take count =
      (rows.orderedInsert (fun first second => key first ≤ key second) row).take count := by
  induction rows generalizing count with
  | nil => simp
  | cons first rest induction =>
    cases count with
    | zero => simp
    | succ count =>
      rw [take_succ_cons, orderedInsert_cons, orderedInsert_cons]
      split
      · rw [take_succ_cons, take_succ_cons]
        cases count with
        | zero => simp
        | succ count =>
          rw [take_succ_cons, take_succ_cons, take_take]
          simp
      · rw [take_succ_cons, take_succ_cons, induction]

theorem pushBounded_take (count : Nat) (rows : List α) (row : α) :
    pushBounded key count (rows.take count) row =
      (rows.orderedInsert (fun first second => key first ≤ key second) row).take count := by
  rw [← take_orderedInsert, pushBounded]
  have length : ((rows.take count).orderedInsert
      (fun first second => key first ≤ key second) row).length ≤ count + 1 := by
    rw [orderedInsert_length, length_take]
    omega
  split
  · rename_i more
    rw [dropLast_eq_take]
    congr 1
    omega
  · rename_i few
    exact (take_of_length_le (by omega)).symm

theorem foldl_pushBounded (distinct : Distinct key rows) (count : Nat) :
    rows.foldl (pushBounded key count) [] = firstRanked key count rows := by
  have reversed : ∀ pushed : List α,
      pushed.foldr (fun row heap => pushBounded key count heap row) [] =
        firstRanked key count pushed := by
    intro pushed
    induction pushed with
    | nil => simp [firstRanked, ranked]
    | cons row rest induction =>
      rw [foldr_cons, induction, firstRanked, pushBounded_take]
      rfl
  rw [← foldr_reverse, reversed]
  exact (firstRanked_perm distinct (reverse_perm rows).symm count).symm

end Yadorilink.RankedWindow
