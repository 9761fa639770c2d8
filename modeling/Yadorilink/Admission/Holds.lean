import Yadorilink.Store.Install

/-! The hold queue: deltas that verified but cannot be applied yet. A row keeps
the one dot its delta waits on; the row is found again by that dot, so it is
pointed at another dot when the delta turns out to lack a different one. -/

namespace Yadorilink

open Std

/-- Two deltas signed by one author at one sequence. -/
structure Equivocation where
  author : AuthorId
  seq : Nat
  known : DeltaHash
  found : DeltaHash
deriving DecidableEq

inductive HoldOutcome where
  | held
  | equivocation (evidence : Equivocation)
deriving DecidableEq

def maxHeldPerAuthor : Nat := 1024

def maxHeldPerGroup : Nat := 8192

namespace Store

def holdOf (store : Store) (dot : Dot) : Option HoldRow :=
  store.holds.find? fun row => row.delta.dot = dot

def holdExists (store : Store) (dot : Dot) : Bool := (store.holdOf dot).isSome

/-- The held deltas that wait on `dot`, in row order. -/
def waitersOf (store : Store) (dot : Dot) : List NativeDelta :=
  (store.holds.filter fun row => row.waitingOn = dot).map HoldRow.delta

end Store

/-! ## Making room -/

/-- The earlier of two rows; the first one when both came at the same time. -/
def HoldRow.older (first second : HoldRow) : HoldRow :=
  if second.receivedAt < first.receivedAt then second else first

/-- The selected row received first, the one with the lower row number among
those of one time. -/
def oldestHold (selected : HoldRow → Bool) (holds : List HoldRow) : Option HoldRow :=
  holds.foldl (fun oldest row =>
    if selected row then some (oldest.elim row fun found => found.older row) else oldest) none

/-- Drops the oldest selected rows, as many as asked for. -/
def dropOldest (selected : HoldRow → Bool) : Nat → List HoldRow → List HoldRow
  | 0, holds => holds
  | excess + 1, holds =>
    match oldestHold selected holds with
    | none => holds
    | some oldest =>
      dropOldest selected excess
        (holds.filter fun row => row.delta.dot ≠ oldest.delta.dot)

/-- Drops the oldest selected rows until fewer than `cap` remain. -/
def evictOldestHolds (selected : HoldRow → Bool) (cap : Nat) (holds : List HoldRow) :
    List HoldRow :=
  dropOldest selected (holds.countP selected - (cap - 1)) holds

def makeRoom (author : AuthorId) (holds : List HoldRow) : List HoldRow :=
  evictOldestHolds (fun _ => true) maxHeldPerGroup
    (evictOldestHolds (fun row => row.delta.author = author) maxHeldPerAuthor holds)

theorem dropOldest_sublist (selected : HoldRow → Bool) (excess : Nat) (holds : List HoldRow) :
    (dropOldest selected excess holds).Sublist holds := by
  induction excess generalizing holds with
  | zero => exact List.Sublist.refl holds
  | succ excess induction =>
    unfold dropOldest
    cases oldestHold selected holds with
    | none => exact List.Sublist.refl holds
    | some oldest => exact (induction _).trans List.filter_sublist

theorem makeRoom_sublist (author : AuthorId) (holds : List HoldRow) :
    (makeRoom author holds).Sublist holds :=
  (dropOldest_sublist _ _ _).trans (dropOldest_sublist _ _ _)

theorem makeRoom_subset (author : AuthorId) (holds : List HoldRow) :
    makeRoom author holds ⊆ holds := (makeRoom_sublist author holds).subset

/-! ## Holding -/

/-- Holds `delta` until `waitingOn` is admitted. The same delta held again is
pointed at its new blocker; another delta held at the same position proves
that the author equivocated, and leaves the row alone. -/
def hold (crypto : Crypto) (delta : NativeDelta) (waitingOn : Dot) (now : Int) :
    Db HoldOutcome := fun store =>
  match store.holdOf delta.dot with
  | some existing =>
    if existing.delta.deltaHash crypto = delta.deltaHash crypto then
      .ok .held { store with holds := store.holds.map fun row =>
        if row.delta.dot = delta.dot then { row with waitingOn := waitingOn } else row }
    else
      .ok (.equivocation {
        author := delta.author
        seq := delta.seq
        known := existing.delta.deltaHash crypto
        found := delta.deltaHash crypto }) store
  | none =>
    .ok .held { store with
      holds := makeRoom delta.author store.holds ++ [⟨delta, waitingOn, now⟩] }

end Yadorilink
