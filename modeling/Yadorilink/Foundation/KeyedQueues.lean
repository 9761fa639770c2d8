import Mathlib

/-! Queues kept under keys. A key whose queue runs empty is dropped. -/

namespace Yadorilink.KeyedQueues

open List

universe u v

variable {κ : Type u} {α : Type v}

def total (queues : List (κ × List α)) : Nat := (queues.map fun entry => entry.2.length).sum

/-- Each key is there once, and with something in its queue. -/
structure WellFormed (queues : List (κ × List α)) : Prop where
  keys : queues.Pairwise fun first second => first.1 ≠ second.1
  nonempty : ∀ entry ∈ queues, entry.2 ≠ []

theorem wellFormed_nil : WellFormed ([] : List (κ × List α)) where
  keys := List.Pairwise.nil
  nonempty := fun _ member => absurd member not_mem_nil

variable {queues : List (κ × List α)} {key other : κ} {queue : List α}

theorem total_eq_zero_iff (wellFormed : WellFormed queues) : total queues = 0 ↔ queues = [] := by
  constructor
  · intro none
    cases queues with
    | nil => rfl
    | cons entry rest =>
      have nonempty := wellFormed.nonempty entry mem_cons_self
      rw [total, map_cons, sum_cons] at none
      have zero : entry.2.length = 0 := by omega
      exact absurd (length_eq_zero_iff.mp zero) nonempty
  · rintro rfl
    rfl

variable [DecidableEq κ]

/-- The queue of a key, empty for a key that has none. -/
def queueAt (queues : List (κ × List α)) (key : κ) : List α :=
  ((queues.find? fun entry => entry.1 = key).map Prod.snd).getD []

/-- Puts a queue in the place of the key's own; an empty one is not kept. -/
def setQueue (queues : List (κ × List α)) (key : κ) (queue : List α) : List (κ × List α) :=
  if queue.isEmpty then queues.filter fun entry => entry.1 ≠ key
  else (queues.filter fun entry => entry.1 ≠ key) ++ [(key, queue)]

theorem queueAt_of_mem (wellFormed : WellFormed queues) {entry : κ × List α}
    (member : entry ∈ queues) : queueAt queues entry.1 = entry.2 := by
  have keys := wellFormed.keys
  rw [queueAt]
  clear wellFormed
  induction queues with
  | nil => cases member
  | cons first rest induction =>
    rw [pairwise_cons] at keys
    rcases mem_cons.mp member with rfl | later
    · simp
    · have apart : ¬first.1 = entry.1 := keys.1 entry later
      rw [find?_cons_of_neg (by simpa using apart)]
      exact induction later keys.2

theorem queueAt_of_not_mem (absent : ∀ entry ∈ queues, entry.1 ≠ key) : queueAt queues key = [] := by
  have none : (queues.find? fun entry => entry.1 = key) = none := by
    rw [find?_eq_none]
    intro entry member
    simpa using absent entry member
  rw [queueAt, none]
  rfl

theorem exists_of_queueAt_ne_nil (queued : queueAt queues key ≠ []) :
    (key, queueAt queues key) ∈ queues := by
  rw [queueAt] at queued ⊢
  cases found : queues.find? fun entry => entry.1 = key with
  | none =>
    rw [found] at queued
    exact absurd rfl queued
  | some entry =>
    have same : entry.1 = key := of_decide_eq_true (find?_some found :)
    subst same
    exact mem_of_find?_eq_some found

theorem any_key_iff (wellFormed : WellFormed queues) :
    (queues.any fun entry => entry.1 = key) = true ↔ queueAt queues key ≠ [] := by
  rw [any_eq_true]
  constructor
  · rintro ⟨entry, member, same⟩
    rw [← of_decide_eq_true same, queueAt_of_mem wellFormed member]
    exact wellFormed.nonempty entry member
  · intro queued
    exact ⟨_, exists_of_queueAt_ne_nil queued, decide_eq_true rfl⟩

/-! ## Setting a queue -/

theorem mem_setQueue_iff {entry : κ × List α} : entry ∈ setQueue queues key queue ↔
      (entry ∈ queues ∧ entry.1 ≠ key) ∨ (queue ≠ [] ∧ entry = (key, queue)) := by
  rw [setQueue]
  cases queue with
  | nil => simp
  | cons item rest => simp

theorem wellFormed_setQueue (wellFormed : WellFormed queues) :
    WellFormed (setQueue queues key queue) where
  keys := by
    rw [setQueue]
    split
    · exact wellFormed.keys.filter _
    · rw [pairwise_append]
      refine ⟨wellFormed.keys.filter _, pairwise_singleton _ _, ?_⟩
      intro first member second last
      rw [mem_singleton.mp last]
      exact of_decide_eq_true (mem_filter.mp member).2
  nonempty := by
    intro entry member
    rcases mem_setQueue_iff.mp member with ⟨listed, _⟩ | ⟨nonempty, rfl⟩
    · exact wellFormed.nonempty entry listed
    · exact nonempty

theorem queueAt_setQueue (wellFormed : WellFormed queues) :
    queueAt (setQueue queues key queue) other =
      if key = other then queue else queueAt queues other := by
  have changed : WellFormed (setQueue queues key queue) := wellFormed_setQueue wellFormed
  by_cases same : key = other
  · subst same
    rw [if_pos rfl]
    by_cases empty : queue = []
    · rw [empty]
      apply queueAt_of_not_mem
      intro entry member
      rcases mem_setQueue_iff.mp member with ⟨_, apart⟩ | ⟨nonempty, _⟩
      · exact apart
      · exact absurd rfl nonempty
    · exact queueAt_of_mem changed (mem_setQueue_iff.mpr (.inr ⟨empty, rfl⟩))
  · rw [if_neg same]
    by_cases queued : queueAt queues other = []
    · rw [queued]
      apply queueAt_of_not_mem
      rintro entry member rfl
      rcases mem_setQueue_iff.mp member with ⟨listed, _⟩ | ⟨_, rfl⟩
      · rw [queueAt_of_mem wellFormed listed] at queued
        exact wellFormed.nonempty entry listed queued
      · exact same rfl
    · have listed := exists_of_queueAt_ne_nil queued
      exact queueAt_of_mem changed
        (mem_setQueue_iff.mpr (.inl ⟨listed, fun equal => same equal.symm⟩))

theorem total_filter (wellFormed : WellFormed queues) :
    total (queues.filter fun entry => entry.1 ≠ key) + (queueAt queues key).length =
      total queues := by
  have keys := wellFormed.keys
  rw [queueAt]
  clear wellFormed
  induction queues with
  | nil => rfl
  | cons first rest induction =>
    rw [pairwise_cons] at keys
    by_cases same : first.1 = key
    · have kept : rest.filter (fun entry => entry.1 ≠ key) = rest := by
        apply filter_eq_self.mpr
        intro entry member
        have apart := keys.1 entry member
        rw [same] at apart
        exact decide_eq_true apart.symm
      rw [filter_cons_of_neg (by simpa using same), kept,
        find?_cons_of_pos (by simpa using same), total, total, map_cons, sum_cons]
      exact Nat.add_comm _ _
    · rw [filter_cons_of_pos (by simpa using same),
        find?_cons_of_neg (by simpa using same), total, total, map_cons, sum_cons,
        map_cons, sum_cons]
      have later := induction keys.2
      rw [total, total] at later
      omega

theorem total_setQueue (wellFormed : WellFormed queues) :
    total (setQueue queues key queue) + (queueAt queues key).length =
      total queues + queue.length := by
  have split : total (queues.filter fun entry => entry.1 ≠ key) + (queueAt queues key).length =
      total queues := total_filter wellFormed
  rw [setQueue]
  cases queue with
  | nil => simpa using split
  | cons item rest =>
    rw [if_neg (by simp), total, map_append, sum_append]
    rw [total] at split
    simp only [map_cons, map_nil, sum_cons, sum_nil]
    omega

end Yadorilink.KeyedQueues
