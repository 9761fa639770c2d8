import Yadorilink.Domain.NativeFrontier
import Yadorilink.Foundation.Undominated

/-! Frontiers compared author by author. A frontier reaches another when it is at least as far for
every author of it, and at the same delta where it is exactly as far; this is a partial order, so
the checkpoints that no other one is ahead of exist in every set. -/

namespace Yadorilink

open Std

abbrev NativeAuthorFrontier := ExtTreeMap AuthorId NativeAuthorFrontierEntry

namespace NativeAuthorFrontier

/-- `newer` is at least as far as `older` for every author `older` holds. -/
def frontierCovers (newer older : NativeAuthorFrontier) : Bool :=
  older.toList.all fun old =>
    newer[old.1]?.any fun new =>
      decide (old.2.seq < new.seq) || (new.seq == old.2.seq && decide (new.tip = old.2.tip))

def dominates (newer older : NativeAuthorFrontier) : Bool :=
  frontierCovers newer older && !frontierCovers older newer

/-- The order itself: each position of `older` is passed or held in `newer`. -/
def Reaches (newer older : NativeAuthorFrontier) : Prop :=
  ∀ (author : AuthorId) (old : NativeAuthorFrontierEntry), older[author]? = some old →
    ∃ new : NativeAuthorFrontierEntry, newer[author]? = some new ∧ (old.seq < new.seq ∨ new = old)

variable {newest newer older : NativeAuthorFrontier}

theorem frontierCovers_iff : frontierCovers newer older = true ↔ Reaches newer older := by
  have entrywise : ∀ old new : NativeAuthorFrontierEntry,
      (decide (old.seq < new.seq) || (new.seq == old.seq && decide (new.tip = old.tip))) = true ↔
        old.seq < new.seq ∨ new = old := by
    intro old new
    cases old
    cases new
    simp
  rw [frontierCovers, List.all_eq_true]
  constructor
  · intro covers author old held
    have here := covers (author, old) (ExtTreeMap.mem_toList_iff_getElem?_eq_some.mpr held)
    rw [Option.any_eq_true] at here
    rcases here with ⟨new, found, passed⟩
    exact ⟨new, found, (entrywise old new).mp passed⟩
  · intro reaches entry member
    rcases reaches entry.1 entry.2 (ExtTreeMap.mem_toList_iff_getElem?_eq_some.mp member)
      with ⟨new, found, passed⟩
    rw [Option.any_eq_true]
    exact ⟨new, found, (entrywise entry.2 new).mpr passed⟩

theorem Reaches.refl (frontier : NativeAuthorFrontier) : Reaches frontier frontier :=
  fun _ old held => ⟨old, held, .inr rfl⟩

theorem Reaches.trans (late : Reaches newest newer) (early : Reaches newer older) :
    Reaches newest older := by
  intro author old held
  rcases early author old held with ⟨middle, inNewer, first⟩
  rcases late author middle inNewer with ⟨new, inNewest, second⟩
  refine ⟨new, inNewest, ?_⟩
  rcases second with passed | same
  · rcases first with before | equal
    · exact .inl (before.trans passed)
    · exact .inl (equal ▸ passed)
  · exact same ▸ first

theorem dominates_iff :
    dominates newer older = true ↔ Reaches newer older ∧ ¬ Reaches older newer := by
  rw [dominates, Bool.and_eq_true, Bool.not_eq_true', frontierCovers_iff,
    ← @frontierCovers_iff older newer, Bool.not_eq_true]

theorem dominates_irrefl (frontier : NativeAuthorFrontier) :
    dominates frontier frontier = false := by
  rw [← Bool.not_eq_true, dominates_iff]
  exact fun strictly => strictly.2 (Reaches.refl frontier)

theorem dominates_trans (late : dominates newest newer = true)
    (early : dominates newer older = true) : dominates newest older = true := by
  rw [dominates_iff] at late early ⊢
  exact ⟨late.1.trans early.1, fun back => late.2 (early.1.trans back)⟩

end NativeAuthorFrontier

end Yadorilink
