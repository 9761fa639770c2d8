import Yadorilink.Checkpoints.FrontierOrder
import Yadorilink.Foundation.Fallible
import Yadorilink.Foundation.KeyedFold
import Yadorilink.Foundation.OrderedMap

/-! Frontiers joined author by author. Two frontiers that never name different deltas for one
position of an author have a least frontier that dominates both, and the join finds it; any other
pair is a fork, which the join reports instead of picking a side. -/

namespace Yadorilink.NativeFrontier

open Std NativeAuthorFrontier OrderedMap ExtTreeMap List

/-- Two entries claim the same sequence for one author with different tips. -/
structure FrontierFork where
  author : AuthorId
  seq : Nat
  leftTip : DeltaHash
  rightTip : DeltaHash

def joinEntry (out : NativeAuthorFrontier) (entry : AuthorId × NativeAuthorFrontierEntry) :
    Except FrontierFork NativeAuthorFrontier :=
  match out[entry.1]? with
  | none => .ok (out.insert entry.1 entry.2)
  | some left =>
    if left.seq = entry.2.seq then
      if left.tip ≠ entry.2.tip then .error ⟨entry.1, left.seq, left.tip, entry.2.tip⟩ else .ok out
    else if entry.2.seq > left.seq then .ok (out.insert entry.1 entry.2)
    else .ok out

/-- Per author, the higher entry wins; equal sequences must carry identical tips. -/
def join (left right : NativeAuthorFrontier) : Except FrontierFork NativeAuthorFrontier :=
  right.toList.foldlM joinEntry left

/-- Every author of `earlier` stands in `later` strictly higher or at the same delta. -/
def dominates (later earlier : NativeAuthorFrontier) : Bool :=
  earlier.toList.all fun entry =>
    later[entry.1]?.any fun held =>
      if held.seq = entry.2.seq then decide (held.tip = entry.2.tip)
      else decide (held.seq > entry.2.seq)

/-- Two entries of one author at the same sequence carry the same tip. -/
def Agree (left right : NativeAuthorFrontier) : Prop :=
  ∀ (author : AuthorId) (entry other : NativeAuthorFrontierEntry), left[author]? = some entry →
    right[author]? = some other → entry.seq = other.seq → entry.tip = other.tip

variable {first second third upper left right joined : NativeAuthorFrontier}

/-! ## The order -/

theorem dominates_eq_frontierCovers : dominates left right = frontierCovers left right := by
  have entrywise : ∀ held entry : NativeAuthorFrontierEntry,
      (if held.seq = entry.seq then decide (held.tip = entry.tip)
        else decide (held.seq > entry.seq)) =
        (decide (entry.seq < held.seq) ||
          (held.seq == entry.seq && decide (held.tip = entry.tip))) := by
    intro held entry
    by_cases same : held.seq = entry.seq
    · simp [same]
    · simp [same]
  simp only [dominates, frontierCovers, entrywise]

theorem dominates_iff_reaches : dominates left right = true ↔ Reaches left right := by
  rw [dominates_eq_frontierCovers, frontierCovers_iff]

/-- Both ways round, every position is the same one: neither can lie strictly beyond the other. -/
theorem reaches_antisymm (forth : Reaches left right) (back : Reaches right left) :
    left = right := by
  have held : ∀ {left right : NativeAuthorFrontier}, Reaches left right → Reaches right left →
      ∀ (author : AuthorId) (entry : NativeAuthorFrontierEntry), right[author]? = some entry →
        left[author]? = some entry := by
    intro left right forth back author entry found
    rcases forth author entry found with ⟨new, inLeft, first⟩
    rcases back author new inLeft with ⟨old, inRight, second⟩
    obtain rfl : old = entry := Option.some.inj (inRight.symm.trans found)
    have same : new = old := by
      rcases first with beyond | same
      · rcases second with before | equal
        · omega
        · exact equal.symm
      · exact same
    exact same ▸ inLeft
  refine ext_getElem? fun author => ?_
  ext entry
  exact ⟨held back forth author entry, held forth back author entry⟩

theorem Agree.symm (agree : Agree left right) : Agree right left :=
  fun author entry other inRight inLeft same =>
    (agree author other entry inLeft inRight same.symm).symm

theorem Agree.refl (left : NativeAuthorFrontier) : Agree left left := by
  intro author entry other here there _
  rw [Option.some.inj (here.symm.trans there)]

/-! ## The join -/

/-- The entry an author keeps when `entry` joins what is held of it. -/
def laterEntry (entry : NativeAuthorFrontierEntry) :
    Option NativeAuthorFrontierEntry → NativeAuthorFrontierEntry
  | none => entry
  | some held => if held.seq < entry.seq then entry else held

theorem joinEntry_eq_ok_iff {entry : AuthorId × NativeAuthorFrontierEntry} :
    joinEntry left entry = .ok joined ↔
      (∀ held, left[entry.1]? = some held → held.seq = entry.2.seq → held.tip = entry.2.tip) ∧
        left.insert entry.1 (laterEntry entry.2 left[entry.1]?) = joined := by
  have kept : ∀ held, left[entry.1]? = some held → left.insert entry.1 held = left := by
    intro held found
    refine ext_getElem? fun author => ?_
    rw [getElem?_insert_eq]
    split <;> simp_all
  cases found : left[entry.1]? with
  | none => simp [joinEntry, found, laterEntry]
  | some held =>
    have same := kept held found
    simp only [joinEntry, found, laterEntry]
    grind

theorem foldlM_joinEntry_eq_ok_iff {entries : List (AuthorId × NativeAuthorFrontierEntry)}
    (distinct : (entries.map Prod.fst).Nodup) :
    entries.foldlM joinEntry left = .ok joined ↔
      (∀ entry ∈ entries, ∀ held, left[entry.1]? = some held → held.seq = entry.2.seq →
        held.tip = entry.2.tip) ∧
      entries.foldl (fun out entry => out.insert entry.1 (laterEntry entry.2 out[entry.1]?)) left =
        joined := by
  induction entries generalizing left with
  | nil => simp [pure, Except.pure]
  | cons entry rest induction =>
    rw [map_cons, nodup_cons] at distinct
    -- The first entry is not met again, so what the others are compared with stays.
    have untouched : ∀ other ∈ rest,
        (left.insert entry.1 (laterEntry entry.2 left[entry.1]?))[other.1]? = left[other.1]? := by
      intro other member
      rw [getElem?_insert_eq, if_neg]
      exact fun same => distinct.1 (same ▸ mem_map_of_mem member)
    rw [foldlM_cons, Fallible.bind_eq_ok_iff, foldl_cons, forall_mem_cons]
    simp only [joinEntry_eq_ok_iff]
    constructor
    · intro ran
      rcases ran with ⟨next, ⟨agreed, rfl⟩, folds⟩
      rcases (induction distinct.2).mp folds with ⟨others, last⟩
      exact ⟨⟨agreed, fun other member held found =>
        others other member held (by rwa [untouched other member])⟩, last⟩
    · intro ran
      refine ⟨_, ⟨ran.1.1, rfl⟩, (induction distinct.2).mpr ⟨?_, ran.2⟩⟩
      intro other member held found
      exact ran.1.2 other member held (by rwa [untouched other member] at found)

theorem getElem?_foldl_laterEntry (author : AuthorId) : (right.toList.foldl (fun out entry =>
      out.insert entry.1 (laterEntry entry.2 out[entry.1]?)) left)[author]? =
        (right[author]?.map (laterEntry · left[author]?)).or left[author]? := by
  refine (view_foldl_toList (fun (out : NativeAuthorFrontier) author => out[author]?)
    (fun entry held => some (laterEntry entry held)) ?_ right left author).trans ?_
  · intro out entry key
    rw [getElem?_insert_eq]
    split <;> simp_all
  · cases right[author]? <;> simp

/-- A join succeeds on agreeing frontiers alone, and leaves each author the later entry. -/
theorem join_eq_ok_iff : join left right = .ok joined ↔ Agree left right ∧
    ∀ author : AuthorId, joined[author]? =
      (right[author]?.map (laterEntry · left[author]?)).or left[author]? := by
  have distinct : (right.toList.map Prod.fst).Nodup := by
    rw [map_fst_toList_eq_keys]
    exact nodup_keys
  rw [join, foldlM_joinEntry_eq_ok_iff distinct]
  refine and_congr ?_ ?_
  · simp only [Prod.forall, mem_toList_iff_getElem?_eq_some, Agree]
    exact ⟨fun agreed author entry other inLeft inRight => agreed author other inRight entry inLeft,
      fun agreed author other inRight entry inLeft => agreed author entry other inLeft inRight⟩
  · simp only [← getElem?_foldl_laterEntry]
    exact ⟨fun same author => by rw [same],
      fun same => ext_getElem? fun author => (same author).symm⟩

theorem Agree.join (agree : Agree left right) :
    ∃ joined, NativeFrontier.join left right = .ok joined :=
  ⟨_, join_eq_ok_iff.mpr ⟨agree, fun _ => getElem?_foldl_laterEntry _⟩⟩

section

variable (joins : join left right = .ok joined)

include joins

theorem mem_join {author : AuthorId}
    {entry : NativeAuthorFrontierEntry} (found : joined[author]? = some entry) :
    left[author]? = some entry ∨ right[author]? = some entry := by
  rw [(join_eq_ok_iff.mp joins).2] at found
  cases inRight : right[author]? with
  | none => simpa [inRight] using found
  | some other =>
    cases inLeft : left[author]? with
    | none => simpa [inRight, inLeft, laterEntry] using found
    | some held =>
      simp only [inRight, inLeft, laterEntry, Option.map_some, Option.some_or,
        Option.some.injEq] at found
      grind

theorem reaches_join :
    Reaches joined left ∧ Reaches joined right := by
  rw [join_eq_ok_iff] at joins
  constructor
  · intro author old held
    rw [joins.2, held]
    cases right[author]? with
    | none => exact ⟨old, rfl, .inr rfl⟩
    | some other =>
      refine ⟨_, rfl, ?_⟩
      simp only [laterEntry]
      grind
  · intro author old held
    rw [joins.2, held]
    refine ⟨_, rfl, ?_⟩
    cases inLeft : left[author]? with
    | none => exact .inr rfl
    | some other =>
      have agreed := joins.1 author other old inLeft held
      cases other
      cases old
      simp only [laterEntry] at agreed ⊢
      grind

theorem reaches_of_join (overLeft : Reaches upper left)
    (overRight : Reaches upper right) : Reaches upper joined := by
  intro author entry found
  rcases mem_join joins found with inLeft | inRight
  · exact overLeft author entry inLeft
  · exact overRight author entry inRight

/-- A join is the only least frontier over its arguments. -/
theorem join_unique (overLeft : Reaches upper left)
    (overRight : Reaches upper right) (least : Reaches joined upper) : upper = joined :=
  reaches_antisymm (reaches_of_join joins overLeft overRight) least

end

theorem Agree.join_left (joins : NativeFrontier.join left right = .ok joined)
    (agreeLeft : Agree left third) (agreeRight : Agree right third) : Agree joined third := by
  intro author entry other found
  rcases mem_join joins found with inLeft | inRight
  · exact agreeLeft author entry other inLeft
  · exact agreeRight author entry other inRight

theorem join_comm (agree : Agree first second) : join first second = join second first := by
  rcases agree.join with ⟨joined, joins⟩
  rcases agree.symm.join with ⟨other, otherJoins⟩
  rw [joins, otherJoins]
  have bounds := reaches_join joins
  have otherBounds := reaches_join otherJoins
  rw [join_unique otherJoins bounds.2 bounds.1 (reaches_of_join joins otherBounds.2 otherBounds.1)]

theorem join_self (frontier : NativeAuthorFrontier) : join frontier frontier = .ok frontier := by
  rcases (Agree.refl frontier).join with ⟨joined, joins⟩
  rw [joins, join_unique joins (Reaches.refl frontier) (Reaches.refl frontier)
    (reaches_join joins).1]

theorem join_assoc (early : Agree first second) (outer : Agree first third)
    (late : Agree second third) :
    ∃ joined, (join first second >>= fun lower => join lower third) = .ok joined ∧
      (join second third >>= fun higher => join first higher) = .ok joined := by
  rcases early.join with ⟨lower, lowerJoins⟩
  rcases late.join with ⟨higher, higherJoins⟩
  rcases (Agree.join_left lowerJoins outer late).join with ⟨joined, joins⟩
  rcases (Agree.join_left higherJoins early.symm outer.symm).symm.join with ⟨other, otherJoins⟩
  have lowerBounds := reaches_join lowerJoins
  have higherBounds := reaches_join higherJoins
  have bounds := reaches_join joins
  have otherBounds := reaches_join otherJoins
  have same : other = joined := by
    refine join_unique joins ?_ (otherBounds.2.trans higherBounds.2) ?_
    · exact reaches_of_join lowerJoins otherBounds.1 (otherBounds.2.trans higherBounds.1)
    · exact reaches_of_join otherJoins (bounds.1.trans lowerBounds.1)
        (reaches_of_join higherJoins (bounds.1.trans lowerBounds.2) bounds.2)
  exact ⟨joined, by rw [lowerJoins]; exact joins, by rw [higherJoins]; exact same ▸ otherJoins⟩

/-- Domination is a partial order, and the join of agreeing frontiers is their least upper bound
in it; a join fails exactly on a fork. -/
theorem frontier_join_least_upper_bound : ((∀ frontier, dominates frontier frontier = true) ∧
      (∀ left right, dominates left right = true → dominates right left = true → left = right) ∧
      ∀ first second third, dominates first second = true → dominates second third = true →
        dominates first third = true) ∧
    (∀ left right, (∃ fork, join left right = .error fork) ↔
      ∃ (author : AuthorId) (entry other : NativeAuthorFrontierEntry),
        left[author]? = some entry ∧ right[author]? = some other ∧ entry.seq = other.seq ∧
          entry.tip ≠ other.tip) ∧
    ∀ first second third, Agree first second → Agree first third → Agree second third →
      (∃ joined, join first second = .ok joined ∧ dominates joined first = true ∧
        dominates joined second = true ∧ ∀ upper, dominates upper first = true →
          dominates upper second = true → dominates upper joined = true) ∧
      join first second = join second first ∧ join first first = .ok first ∧
      ∃ joined, (join first second >>= fun lower => join lower third) = .ok joined ∧
        (join second third >>= fun higher => join first higher) = .ok joined := by
  simp only [dominates_iff_reaches]
  refine ⟨⟨Reaches.refl, fun _ _ => reaches_antisymm, fun _ _ _ => Reaches.trans⟩, ?_, ?_⟩
  · intro left right
    constructor
    · intro failed
      rcases failed with ⟨fork, failed⟩
      by_contra noClash
      push Not at noClash
      rcases Agree.join noClash with ⟨joined, joins⟩
      simp [joins] at failed
    · intro clash
      rcases clash with ⟨author, entry, other, inLeft, inRight, sameSeq, different⟩
      cases joins : join left right with
      | error fork => exact ⟨fork, rfl⟩
      | ok joined =>
        exact absurd ((join_eq_ok_iff.mp joins).1 author entry other inLeft inRight sameSeq)
          different
  · intro first second third early outer late
    rcases early.join with ⟨joined, joins⟩
    have bounds := reaches_join joins
    exact ⟨⟨joined, joins, bounds.1, bounds.2, fun _ => reaches_of_join joins⟩, join_comm early,
      join_self first, join_assoc early outer late⟩

end Yadorilink.NativeFrontier
