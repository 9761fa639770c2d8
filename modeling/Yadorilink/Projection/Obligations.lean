import Yadorilink.Foundation.History

/-! Projection obligations: per path a row that says its desired state has yet to be
made true on disk, bumped by every admitted change, and closed by a claim whose
token still matches together with a proof published under the live mutation fence.
Rows are deleted on completion and created again by the next bump; the incarnation
of a row comes from a sequence that never repeats. A path here stands for a group's
path, the key of every table. -/

namespace Yadorilink.Obligations

open History

/-! ## Rows -/

inductive ObligationState where
  | pending
  | ignoreBlocked
deriving DecidableEq

inductive ObligationOrigin where
  | ofDevice
  | remote
deriving DecidableEq

/-- What a completion must find unchanged on a row to close it. -/
structure ObligationClaimToken where
  invalidationGeneration : Nat
  obligationIncarnation : Nat
deriving DecidableEq

structure ProjectionObligation where
  invalidationGeneration : Nat
  state : ObligationState
  attemptCount : Nat
  nextAttemptAt : Int
  createdAt : Int
  updatedAt : Int
  obligationIncarnation : Nat
  origin : ObligationOrigin
deriving DecidableEq

def ProjectionObligation.token (row : ProjectionObligation) : ObligationClaimToken :=
  ⟨row.invalidationGeneration, row.obligationIncarnation⟩

/-- A published generation: the hash of what it proves, and the fence it was
published under. -/
structure MaterializedGeneration (H : Type) where
  resolvedPathStateHash : H
  publishedUnder : Nat
deriving DecidableEq

/-- Which durable proof a completion without a published generation rests on. -/
inductive NonExactProofKind where
  | contentNotOwed
  | hazardHeld
  | ignoreExcluded
  | retainedDirectory
deriving DecidableEq

structure Tables (P H : Type) where
  obligations : P → Option ProjectionObligation
  /-- The highest incarnation ever allocated. -/
  lastIncarnation : Nat
  fences : P → Option Nat
  generations : P → Option (MaterializedGeneration H)

def Tables.empty (P H : Type) : Tables P H := ⟨fun _ => none, 0, fun _ => none, fun _ => none⟩

/-- What a step did, for the statements about whole runs. -/
inductive Entry (P H : Type) where
  | bumped (path : P) (token : ObligationClaimToken)
  | advanced (path : P) (fence : Nat)
  | published (path : P) (hash : H) (fence : Nat)
  | closed (path : P) (token : ObligationClaimToken) (hash : H)
deriving DecidableEq

/-- One close of a batch: the claim on a path's obligation and the state the path
must be proven to hold. -/
structure ExactClose (P H : Type) where
  path : P
  token : ObligationClaimToken
  hash : H

section Operations

variable {P H : Type} [DecidableEq P] [DecidableEq H]

namespace Tables

variable (tables : Tables P H)

def setObligation (path : P) (row : Option ProjectionObligation) : Tables P H :=
  { tables with obligations := Function.update tables.obligations path row }

omit [DecidableEq H] in
@[simp]
theorem obligations_setObligation (path : P) (row : Option ProjectionObligation) :
    (tables.setObligation path row).obligations = Function.update tables.obligations path row :=
  rfl

/-! ## Bumps -/

/-- The row a bump leaves: a new one of the allocated incarnation, or the standing
one a generation further. -/
def bumpedRow (now : Int) (origin : ObligationOrigin) (incarnation : Nat) (path : P) :
    ProjectionObligation :=
  match tables.obligations path with
  | none => ⟨1, .pending, 0, now, now, now, incarnation, origin⟩
  | some row =>
    { row with
      invalidationGeneration := row.invalidationGeneration + 1
      state := .pending
      attemptCount := 0
      nextAttemptAt := now
      updatedAt := now
      origin := origin }

/-- The upsert over the touched paths, the first of which is given `incarnation`. -/
def bumpEach (now : Int) (origin : ObligationOrigin) :
    Nat → List P → Tables P H → Tables P H × List (Entry P H)
  | _, [], tables => (tables, [])
  | incarnation, path :: paths, tables =>
    let row := tables.bumpedRow now origin incarnation path
    let rest := bumpEach now origin (incarnation + 1) paths (tables.setObligation path (some row))
    (rest.1, .bumped path row.token :: rest.2)

/-- Allocates one incarnation for every path, used or not, as one block. -/
def bumpProjectionObligations (touched : List P) (now : Int) (origin : ObligationOrigin) :
    Tables P H × List (Entry P H) :=
  if touched.isEmpty then (tables, [])
  else
    let last := tables.lastIncarnation + touched.length
    let first := last - touched.length + 1
    bumpEach now origin first touched { tables with lastIncarnation := last }

/-! ## Attempts -/

/-- The row of a path, if it still carries the token. -/
def claimedRow (path : P) (token : ObligationClaimToken) : Option ProjectionObligation :=
  (tables.obligations path).filter fun row => row.token = token

def markObligationAttemptFailed (path : P) (token : ObligationClaimToken)
    (nextAttemptAt now : Int) : Tables P H :=
  match tables.claimedRow path token with
  | none => tables
  | some row =>
    tables.setObligation path (some { row with
      attemptCount := row.attemptCount + 1
      nextAttemptAt := nextAttemptAt
      updatedAt := now })

def deferObligationWithoutPenalty (path : P) (token : ObligationClaimToken)
    (nextAttemptAt now : Int) : Tables P H :=
  match tables.claimedRow path token with
  | none => tables
  | some row =>
    tables.setObligation path (some { row with
      nextAttemptAt := nextAttemptAt
      updatedAt := now })

/-! ## Completions -/

/-- A generation of the desired state stands, published under the live fence. -/
def exactProofCurrent (path : P) (hash : H) : Bool :=
  (tables.generations path).any fun generation =>
    tables.fences path = some generation.publishedUnder && generation.resolvedPathStateHash = hash

def closable (close : ExactClose P H) : Bool :=
  (tables.claimedRow close.path close.token).isSome && tables.exactProofCurrent close.path close.hash

def completeObligationIfExactProofCurrent (close : ExactClose P H) :
    Tables P H × List (Entry P H) :=
  if tables.closable close then
    (tables.setObligation close.path none, [.closed close.path close.token close.hash])
  else (tables, [])

/-- One statement over a chunk: what it deletes is decided before it deletes. -/
def completeChunk (closes : List (ExactClose P H)) : Tables P H × List (Entry P H) :=
  let closed := closes.filter tables.closable
  (closed.foldl (fun left close => left.setObligation close.path none) tables,
    closed.map fun close => .closed close.path close.token close.hash)

def completeChunks : List (List (ExactClose P H)) → Tables P H → Tables P H × List (Entry P H)
  | [], tables => (tables, [])
  | chunk :: chunks, tables =>
    let first := tables.completeChunk chunk
    let rest := completeChunks chunks first.1
    (rest.1, first.2 ++ rest.2)

def closesPerStatement : Nat := 100

def completeObligationsIfExactProofsCurrent (closes : List (ExactClose P H)) :
    Tables P H × List (Entry P H) :=
  completeChunks (closes.toChunks closesPerStatement) tables

/-- `proven` is what the re-read of the outcome's own proof row says. -/
def completeObligationIfNonExactProofCurrent (path : P) (token : ObligationClaimToken)
    (proof : NonExactProofKind) (proven : Bool) : Tables P H :=
  match tables.claimedRow path token with
  | none => tables
  | some row =>
    match proof with
    | .ignoreExcluded =>
      if row.state = .pending then
        tables.setObligation path (some { row with state := .ignoreBlocked })
      else tables
    | _ => if proven then tables.setObligation path none else tables

def rearmIgnoreBlockedObligation (path : P) (now : Int) : Tables P H :=
  match tables.obligations path with
  | none => tables
  | some row =>
    if row.state = .ignoreBlocked then
      tables.setObligation path (some { row with
        state := .pending
        nextAttemptAt := now
        updatedAt := now })
    else tables

/-! ## Fences and generations -/

def setFence (path : P) (fence : Nat) : Tables P H :=
  { tables with fences := Function.update tables.fences path (some fence) }

omit [DecidableEq H] in
@[simp]
theorem fences_setFence (path : P) (fence : Nat) :
    (tables.setFence path fence).fences = Function.update tables.fences path (some fence) :=
  rfl

def nextFence (path : P) : Nat := (tables.fences path).elim 1 (· + 1)

def bumpMutationFence (frozen : Bool) (path : P) : Tables P H × List (Entry P H) :=
  if frozen then (tables, [])
  else (tables.setFence path (tables.nextFence path), [.advanced path (tables.nextFence path)])

def snapshotMutationFence (path : P) : Tables P H :=
  match tables.fences path with
  | none => tables.setFence path 0
  | some _ => tables

/-- Advances a fence that stands, so that no published generation is usable. -/
def invalidatePublishedGenerations (path : P) : Tables P H × List (Entry P H) :=
  match tables.fences path with
  | none => (tables, [])
  | some fence => (tables.setFence path (fence + 1), [.advanced path (fence + 1)])

def writeGeneration (path : P) (hash : H) (fence : Nat) : Tables P H × List (Entry P H) :=
  ({ tables with generations := Function.update tables.generations path (some ⟨hash, fence⟩) },
    [.published path hash fence])

omit [DecidableEq H] in
@[simp]
theorem generations_writeGeneration (path : P) (hash : H) (fence : Nat) :
    (tables.writeGeneration path hash fence).1.generations =
      Function.update tables.generations path (some ⟨hash, fence⟩) :=
  rfl

def publishMaterializedGenerationIfFenceCurrent (path : P) (hash : H) (expected : Nat) :
    Tables P H × List (Entry P H) :=
  if tables.fences path = some expected then tables.writeGeneration path hash expected
  else (tables, [])

def adoptObservedActualGeneration (frozen : Bool) (path : P) (hash : H) :
    Tables P H × List (Entry P H) :=
  if frozen then (tables, [])
  else
    let fence := tables.nextFence path
    let written := (tables.setFence path fence).writeGeneration path hash fence
    (written.1, .advanced path fence :: written.2)

end Tables

/-! ## Runs -/

inductive Event (P H : Type) where
  | bump (touched : List P) (now : Int) (origin : ObligationOrigin)
  | claim
  | attemptFailed (path : P) (token : ObligationClaimToken) (nextAttemptAt now : Int)
  | deferred (path : P) (token : ObligationClaimToken) (nextAttemptAt now : Int)
  | complete (close : ExactClose P H)
  | completeBatch (closes : List (ExactClose P H))
  | completeNonExact (path : P) (token : ObligationClaimToken) (proof : NonExactProofKind)
      (proven : Bool)
  | rearm (path : P) (now : Int)
  | bumpFence (frozen : Bool) (path : P)
  | snapshotFence (path : P)
  | invalidate (path : P)
  | publish (path : P) (hash : H) (expected : Nat)
  | adopt (frozen : Bool) (path : P) (hash : H)

/-- What one transaction makes of the tables, and what it did. -/
def transact (tables : Tables P H) : Event P H → Tables P H × List (Entry P H)
  | .bump touched now origin => tables.bumpProjectionObligations touched now origin
  | .claim => (tables, [])
  | .attemptFailed path token nextAttemptAt now =>
    (tables.markObligationAttemptFailed path token nextAttemptAt now, [])
  | .deferred path token nextAttemptAt now =>
    (tables.deferObligationWithoutPenalty path token nextAttemptAt now, [])
  | .complete close => tables.completeObligationIfExactProofCurrent close
  | .completeBatch closes => tables.completeObligationsIfExactProofsCurrent closes
  | .completeNonExact path token proof proven =>
    (tables.completeObligationIfNonExactProofCurrent path token proof proven, [])
  | .rearm path now => (tables.rearmIgnoreBlockedObligation path now, [])
  | .bumpFence frozen path => tables.bumpMutationFence frozen path
  | .snapshotFence path => (tables.snapshotMutationFence path, [])
  | .invalidate path => tables.invalidatePublishedGenerations path
  | .publish path hash expected =>
    tables.publishMaterializedGenerationIfFenceCurrent path hash expected
  | .adopt frozen path hash => tables.adoptObservedActualGeneration frozen path hash

/-- The tables and everything done to them so far. -/
structure Run (P H : Type) where
  tables : Tables P H
  log : List (Entry P H)

def Run.step (run : Run P H) (event : Event P H) : Run P H :=
  let done := transact run.tables event
  ⟨done.1, run.log ++ done.2⟩

def runAll (events : List (Event P H)) : Run P H :=
  events.foldl Run.step ⟨.empty P H, []⟩

end Operations

end Yadorilink.Obligations
