import Yadorilink.Store.Tables

/-! Closed authors. A verified closure cuts an author's chain: nothing above
the cutoff is admitted, and what waits on something above it is dropped. -/

namespace Yadorilink

open Std Transaction

/-- The strictest cutoff an author is closed at. -/
structure EffectiveCutoff where
  seq : Option Nat
  tip : Option DeltaHash
  /-- Two valid closures cut the chain at `seq` with different tips. -/
  fork : Bool
deriving DecidableEq

/-- What a cutoff says about one delta. -/
inductive ClosedVerdict where
  | open_
  | beyond (cutoff : Option Nat)
  | fork (seq : Nat)
deriving DecidableEq

def EffectiveCutoff.verdict (cutoff : EffectiveCutoff) (seq : Nat) (hash : DeltaHash) :
    ClosedVerdict :=
  if beyondClosedCutoff cutoff.seq seq then
    .beyond cutoff.seq
  else if !cutoff.fork && cutoff.seq = some seq && cutoff.tip.any (· ≠ hash) then
    .fork seq
  else
    .open_

/-- The strictest of `cutoffs`, and whether two of them fork there. -/
def strictest (cutoffs : List (Option NativeAuthorFrontierEntry)) : Option EffectiveCutoff :=
  let best := cutoffs.foldl (fun best cutoff =>
    match best with
    | none => some (cutoff, false)
    | some (held, fork) =>
      match joinCutoffs cutoff held with
      | .lower => some (cutoff, false)
      | .higher | .identical => some (held, fork)
      | .fork => some (held, true)) none
  best.map fun found => {
    seq := found.1.map NativeAuthorFrontierEntry.seq
    tip := found.1.map NativeAuthorFrontierEntry.tip
    fork := found.2 }

namespace Store

def closureCutoffs (store : Store) (author : AuthorId) :
    List (Option NativeAuthorFrontierEntry) :=
  (store.closures.filter fun row => row.author = author).map ClosureRow.cutoff

/-- The cutoff `author` is closed at, if it is closed at all. -/
def effectiveClosedCutoff (store : Store) (author : AuthorId) : Option EffectiveCutoff :=
  strictest (store.closureCutoffs author ++ store.closed[author]?.toList)

def beyondCutoff (store : Store) (author : AuthorId) (seq : Nat) : Option (Option Nat) :=
  ((store.effectiveClosedCutoff author).filter fun cutoff =>
    beyondClosedCutoff cutoff.seq seq).map EffectiveCutoff.seq

/-- Whether a closure with exactly this cutoff may leave the device. -/
def closureBacked (store : Store) (author : AuthorId)
    (cutoff : Option NativeAuthorFrontierEntry) : Bool :=
  store.closures.any fun row =>
    row.author = author && row.cutoff = cutoff && row.exportable

end Store

/-- Records `author` as closed at `cutoff`, which a closure must back. -/
def installClosedState (author : AuthorId) (cutoff : Option NativeAuthorFrontierEntry) :
    Db Unit := do
  let store ← get
  if !store.closureBacked author cutoff then
    throw (.corruptState (.unbackedClosure author cutoff))
  set { store with closed := store.closed.insert author cutoff }

/-- Closes `author` when the replica stands exactly where its strictest
closure cuts. -/
def closeStateIfReached (author : AuthorId) : Db Unit := do
  let store ← get
  match store.effectiveClosedCutoff author with
  | none => return ()
  | some effective =>
    let cutoff : Option NativeAuthorFrontierEntry := match effective.seq, effective.tip with
      | some seq, some tip => some ⟨seq, tip⟩
      | _, _ => none
    if effective.fork || store.frontier[author]? ≠ cutoff ||
        store.closed[author]? = some cutoff then
      return ()
    else if store.closureBacked author cutoff then
      installClosedState author cutoff
    else
      return ()

theorem closeStateIfReached_ok (author : AuthorId) (store : Store) :
    ∃ closed, closeStateIfReached author store = .ok () { store with closed := closed } ∧
      (store.effectiveClosedCutoff author = none → closed = store.closed) := by
  simp only [closeStateIfReached, bind_apply, get_apply]
  cases store.effectiveClosedCutoff author with
  | none => exact ⟨store.closed, rfl, fun _ => rfl⟩
  | some effective =>
    dsimp only
    -- The cutoff to close at plays no part in whether closing succeeds.
    generalize (match effective.seq, effective.tip with
      | some seq, some tip => some (⟨seq, tip⟩ : NativeAuthorFrontierEntry)
      | _, _ => none) = cutoff
    split
    · exact ⟨store.closed, rfl, fun absent => by cases absent⟩
    · split
      · rename_i backed
        refine ⟨store.closed.insert author cutoff, ?_, fun absent => by cases absent⟩
        simp only [installClosedState, bind_apply, get_apply, backed,
          Bool.not_true, Bool.false_eq_true, if_false]
        rfl
      · exact ⟨store.closed, rfl, fun absent => by cases absent⟩

/-! ## Dropping what can never be released -/

namespace Store

def clearHold (store : Store) (dot : Dot) : Store :=
  { store with holds := store.holds.filter fun row => row.delta.dot ≠ dot }

/-- Drops one doomed hold with its parked evidence. -/
def dropHold (crypto : Crypto) (store : Store) (row : HoldRow) : Store :=
  { store.clearHold row.delta.dot with
    pending := store.pending.erase (row.delta.deltaHash crypto) }

/-- Whether a hold is of, or waits on, `who` at `since` or later. -/
def doomedBy (who : AuthorId) (since : Nat) (row : HoldRow) : Bool :=
  (row.delta.author = who && row.delta.seq ≥ since) ||
    (row.waitingOn.author = who && row.waitingOn.seq ≥ since)

/-- The positions found dead so far, and those still to be followed. -/
structure DeadPositions where
  first : ExtTreeMap AuthorId Nat
  queue : List (AuthorId × Nat)

/-- A dropped hold is itself a delta its author will not have admitted. -/
def DeadPositions.note (dead : DeadPositions) (author : AuthorId) (seq : Nat) : DeadPositions :=
  if (dead.first[author]?).all fun first => seq < first then
    ⟨dead.first.insert author seq, dead.queue ++ [(author, seq)]⟩
  else
    dead

def dropDoomed (crypto : Crypto) :
    List HoldRow → Store → DeadPositions → Store × DeadPositions
  | [], store, dead => (store, dead)
  | row :: rest, store, dead =>
    dropDoomed crypto rest (store.dropHold crypto row)
      (dead.note row.delta.author row.delta.seq)

/-- Follows the dead positions, the latest first. A position is queued once
for each hold dropped, which bounds the turns by the holds there are. -/
def dropLoop (crypto : Crypto) : Nat → Store → DeadPositions → Store
  | 0, store, _ => store
  | turns + 1, store, dead =>
    match dead.queue.getLast? with
    | none => store
    | some (who, since) =>
      let doomed := store.holds.filter (doomedBy who since)
      let (store, dead) := dropDoomed crypto doomed store
        { dead with queue := dead.queue.dropLast }
      dropLoop crypto turns store dead

/-- Drops every hold that can never be released because `author` will never
admit `since` or anything above it. -/
def dropUnservableHolds (crypto : Crypto) (store : Store) (author : AuthorId) (since : Nat) :
    Store :=
  dropLoop crypto (store.holds.length + 1) store
    ⟨ExtTreeMap.insert ∅ author since, [(author, since)]⟩

end Store

end Yadorilink
