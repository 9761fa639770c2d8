import Yadorilink.Domain.Ids

/-! The authenticated position of each author: how far its chain of deltas is
known and which delta is its tip. Everything here is a pure decision on such
positions. -/

namespace Yadorilink

open Option

/-- An author's position: its sequence and the delta at it. -/
structure NativeAuthorFrontierEntry where
  seq : Nat
  tip : DeltaHash
deriving DecidableEq

/-! ## Continuing a chain -/

inductive ChainAdvanceError where
  | wrongFirstSeq (expected found : Nat)
  | wrongNextSeq (current expected found : Nat)
  | seqExhausted (current : Nat)
  | chainBreak (expected found : Option DeltaHash)
deriving DecidableEq

/-- Whether `(claimedPrev, claimedSeq)` continues `current`'s chain, `none`
being an author without a position. -/
def checkChainAdvance (current : Option NativeAuthorFrontierEntry)
    (claimedPrev : Option DeltaHash) (claimedSeq : Nat) : Except ChainAdvanceError Unit :=
  match current with
  | none =>
    if claimedSeq ≠ AuthorSeq.first then
      .error (.wrongFirstSeq AuthorSeq.first claimedSeq)
    else if claimedPrev.isSome then
      .error (.chainBreak none claimedPrev)
    else
      .ok ()
  | some entry =>
    match AuthorSeq.checkedNext entry.seq with
    | none => .error (.seqExhausted entry.seq)
    | some expected =>
      if claimedSeq ≠ expected then
        .error (.wrongNextSeq entry.seq expected claimedSeq)
      else if claimedPrev ≠ some entry.tip then
        .error (.chainBreak (some entry.tip) claimedPrev)
      else
        .ok ()

/-- What a receiver does next with a delta, from its chain position alone. -/
inductive ChainGate where
  | continues
  | equivocation (atSeq : Nat) (expectedPrev foundPrev : Option DeltaHash)
  | needsPredecessor (missingThrough : Nat)
  | needsHistoryLookup (atSeq : Nat)
  | seqExhausted
deriving DecidableEq

def classifyChainAdvance (current : Option NativeAuthorFrontierEntry)
    (claimedPrev : Option DeltaHash) (claimedSeq : Nat) : ChainGate :=
  match checkChainAdvance current claimedPrev claimedSeq with
  | .ok () => .continues
  | .error (.seqExhausted _) => .seqExhausted
  | .error (.wrongFirstSeq _ found) => .needsPredecessor found
  | .error (.chainBreak expected found) => .equivocation claimedSeq expected found
  | .error (.wrongNextSeq _ expected found) =>
    if found > expected then .needsPredecessor found else .needsHistoryLookup found

/-- How far the author's position reaches, zero before its first delta. -/
def positionSeq (current : Option NativeAuthorFrontierEntry) : Nat :=
  (current.map NativeAuthorFrontierEntry.seq).getD 0

section ChainGate

variable {current : Option NativeAuthorFrontierEntry} {prev : Option DeltaHash} {seq : Nat}

theorem checkChainAdvance_eq_ok_iff : checkChainAdvance current prev seq = .ok () ↔
      seq = positionSeq current + 1 ∧ prev = current.map NativeAuthorFrontierEntry.tip ∧
        seq ≤ AuthorSeq.max := by
  cases current with
  | none =>
    simp only [checkChainAdvance, positionSeq, map_none, getD_none]
    by_cases first : seq = AuthorSeq.first
    · cases prev with
      | none => simp [first, AuthorSeq.first, AuthorSeq.max]
      | some hash => simp [first]
    · rw [if_pos first]
      simp only [AuthorSeq.first] at first
      simp [first]
  | some entry =>
    simp only [checkChainAdvance, positionSeq, map_some, getD_some]
    cases advanced : AuthorSeq.checkedNext entry.seq with
    | none =>
      simp only [reduceCtorEq, false_iff]
      intro facts
      have next := AuthorSeq.checkedNext_eq_some_iff.mpr ⟨facts.1, facts.2.2⟩
      rw [advanced] at next
      cases next
    | some expected =>
      have next := AuthorSeq.checkedNext_eq_some_iff.mp advanced
      by_cases sameSeq : seq = expected
      · by_cases samePrev : prev = some entry.tip
        · simp [sameSeq, samePrev, next.1, next.1 ▸ next.2]
        · simp [sameSeq, samePrev]
      · rw [next.1] at sameSeq
        simp [next.1, sameSeq]

theorem classifyChainAdvance_continues : classifyChainAdvance current prev seq = .continues ↔
      checkChainAdvance current prev seq = .ok () := by
  unfold classifyChainAdvance
  cases result : checkChainAdvance current prev seq with
  | ok passed => simp
  | error failure =>
    cases failure with
    | wrongFirstSeq expected found => simp
    | wrongNextSeq position expected found => by_cases ahead : found > expected <;> simp [ahead]
    | seqExhausted position => simp
    | chainBreak expected found => simp

/-- What each verdict says of the position and the claim. -/
def ChainGate.Means (current : Option NativeAuthorFrontierEntry) (prev : Option DeltaHash)
    (seq : Nat) : ChainGate → Prop
  | .continues => checkChainAdvance current prev seq = .ok ()
  | .equivocation _ _ _ =>
    seq = positionSeq current + 1 ∧ prev ≠ current.map NativeAuthorFrontierEntry.tip
  | .needsPredecessor missing =>
    missing = seq ∧ (AuthorSeq.first ≤ seq → positionSeq current + 2 ≤ seq)
  | .needsHistoryLookup atSeq => atSeq = seq ∧ seq ≤ positionSeq current
  | .seqExhausted => AuthorSeq.max ≤ positionSeq current

theorem classifyChainAdvance_means :
    (classifyChainAdvance current prev seq).Means current prev seq := by
  unfold classifyChainAdvance
  cases current with
  | none =>
    by_cases first : seq = AuthorSeq.first
    · cases prev with
      | none => simp [checkChainAdvance, first, ChainGate.Means]
      | some hash => simp [checkChainAdvance, first, ChainGate.Means, positionSeq, AuthorSeq.first]
    · simp [checkChainAdvance, first, ChainGate.Means, positionSeq]
      simp only [AuthorSeq.first] at first ⊢
      omega
  | some entry =>
    cases advanced : AuthorSeq.checkedNext entry.seq with
    | none =>
      simp only [checkChainAdvance, advanced, ChainGate.Means, positionSeq, map_some,
        getD_some]
      unfold AuthorSeq.checkedNext at advanced
      split at advanced
      · cases advanced
      · omega
    | some expected =>
      have next := (AuthorSeq.checkedNext_eq_some_iff.mp advanced).1
      by_cases sameSeq : seq = expected
      · by_cases samePrev : prev = some entry.tip
        · simp [checkChainAdvance, advanced, sameSeq, samePrev, ChainGate.Means]
        · simp [checkChainAdvance, advanced, sameSeq, samePrev, ChainGate.Means, next, positionSeq]
      · by_cases ahead : seq > expected
        · simp [checkChainAdvance, advanced, sameSeq, ahead, ChainGate.Means, positionSeq]
          omega
        · simp [checkChainAdvance, advanced, sameSeq, ahead, ChainGate.Means, positionSeq]
          omega

end ChainGate

/-! ## Redelivery below the log -/

inductive UnloggedHistory where
  | duplicate
  | equivocation (known : DeltaHash)
  | priorHistoryTruncated
  | drift
deriving DecidableEq

/-- Classifies a delta the log has no entry for, given the author's floor. -/
def classifyUnloggedHistory (floor : Option NativeAuthorFrontierEntry) (atSeq : Nat)
    (deltaHash : DeltaHash) : UnloggedHistory :=
  match floor with
  | none => .drift
  | some floor =>
    if atSeq < floor.seq then .priorHistoryTruncated
    else if atSeq = floor.seq then
      (if floor.tip = deltaHash then .duplicate else .equivocation floor.tip)
    else .drift

/-! ## Cutoffs of closed authors -/

/-- Whether a sequence lies beyond a cutoff; `none` closes the author before
its first delta. -/
def beyondClosedCutoff (cutoff : Option Nat) (seq : Nat) : Bool :=
  match cutoff with
  | none => true
  | some cutoff => seq > cutoff

/-- How two cutoffs of one author relate; `none` is the lowest. -/
inductive ClosureJoin where
  | lower
  | higher
  | identical
  | fork
deriving DecidableEq

def joinCutoffs (first second : Option NativeAuthorFrontierEntry) : ClosureJoin :=
  match first, second with
  | none, none => .identical
  | none, some _ => .lower
  | some _, none => .higher
  | some first, some second =>
    if first.seq < second.seq then .lower
    else if second.seq < first.seq then .higher
    else if first.tip = second.tip then .identical
    else .fork

end Yadorilink
