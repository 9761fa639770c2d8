import Yadorilink.Domain.ConflictNames
import Yadorilink.Foundation.Independence
import Yadorilink.Foundation.RankedWindow
import Yadorilink.Projection.ObligationClaims
import Yadorilink.Projection.ProviderProjector

/-! The reconcile pass over a set of paths. It plans the levels the paths live on, orders the work,
and settles it in that order; plain entries that do not touch one another are gathered into runs
and settled together. What settling a path does to the disk and the database is a parameter. -/

namespace Yadorilink.Reconcile

open Std Independence RankedWindow Obligations

/-! ## Paths -/

def parentOf (path : SyncPath) : SyncPath :=
  match rsplitOnce '/' path.toList with
  | some (parent, _) => String.ofList parent
  | none => ""

/-- The parents of a path, nearest first. Each is shorter than the one before. -/
def properAncestorsFrom : Nat → List Char → List SyncPath
  | 0, _ => []
  | turns + 1, path =>
    match rsplitOnce '/' path with
    | some (parent, _) => String.ofList parent :: properAncestorsFrom turns parent
    | none => []

def properAncestors (path : SyncPath) : List SyncPath :=
  properAncestorsFrom path.toList.length path.toList

/-! ## Work -/

inductive Work where
  | node (node : NativePlannedNode)
  /-- A seed the plan holds nothing for. -/
  | absent
  deriving DecidableEq

def Work.isDirectory : Work → Bool
  | .node (.entry _ _) => false
  | .node (.explicitDirectory _) => true
  | .node .structuralDirectory => true
  | .absent => false

/-- A file or symlink the plan puts at its own path. -/
def isPlainEntry : Work → Bool
  | .node (.entry _ _) => true
  | .node (.explicitDirectory _) => false
  | .node .structuralDirectory => false
  | .absent => false

abbrev Item := SyncPath × Work

def depth (path : SyncPath) : Nat :=
  path.toList.count '/'

/-- Position in a pass: shallow first; directories, then entries; deletions after everything, deep
first. -/
def rank (item : Item) : Nat × Nat × Nat :=
  match item.2 with
  | .absent => (1, 2 ^ 64 - 1 - depth item.1, 0)
  | .node (.entry _ _) => (0, depth item.1, 1)
  | .node (.explicitDirectory _) => (0, depth item.1, 0)
  | .node .structuralDirectory => (0, depth item.1, 0)

def orderKey (item : Item) : Nat ×ₗ Nat ×ₗ Nat ×ₗ SyncPath :=
  toLex ((rank item).1, toLex ((rank item).2.1, toLex ((rank item).2.2, item.1)))

/-! ## What a pass is given -/

inductive MaterializeResult (ε : Type) where
  | settled (evidence : ε)
  | retryRequired
  | failed

/-- The gates, the claims this attempt holds, how names fold, and what settling does. -/
structure Environment (σ ε : Type) where
  ignored : SyncPath → Bool
  paused : List SyncPath
  frozen : Bool
  claims : SyncPath → Option ObligationClaimToken
  canonicalFold : SyncPath → SyncPath
  settle : σ → Item → Option ObligationClaimToken → MaterializeResult ε × σ
  directoryOnDisk : σ → SyncPath → Bool
  ignoreExcluded : ε

inductive Gate where
  | open_
  | ignored
  | declined

/-- The paths settled and to be tried again, and the directories that could not be shaped. -/
structure Ledger (ε : Type) where
  settled : ExtTreeMap SyncPath ε
  retry : ExtTreeSet SyncPath
  unshaped : ExtTreeSet SyncPath

variable {σ ε : Type}

namespace Environment

variable (env : Environment σ ε)

def passGate (unshaped : ExtTreeSet SyncPath) (path : SyncPath) : Gate :=
  if env.ignored path then
    .ignored
  else if (env.paused.any fun item => ClaimTables.coversPath item path) || env.frozen ||
      (properAncestors path).any fun ancestor => unshaped.contains ancestor then
    .declined
  else
    .open_

/-- The claim a path's write may close: none if a conflict copy of it is to be tried again. -/
def claimFor (retry : ExtTreeSet SyncPath) (path : SyncPath) : Option ObligationClaimToken :=
  if retry.toList.any fun other => isConflictCopyOf other path then none else env.claims path

end Environment

/-- Folds the outcome of settling a path into the pass. -/
def Ledger.record (ledger : Ledger ε) (item : Item) (onDisk : Bool) :
    MaterializeResult ε → Ledger ε
  | .settled evidence => { ledger with settled := ledger.settled.insert item.1 evidence }
  | .retryRequired => { ledger with
      unshaped := if item.2.isDirectory && !onDisk then ledger.unshaped.insert item.1
        else ledger.unshaped
      retry := ledger.retry.insert item.1 }
  | .failed => { ledger with retry := ledger.retry.insert item.1 }

/-! ## Runs -/

structure RunEntry where
  item : Item
  claim : Option ObligationClaimToken
  deriving DecidableEq

/-- The two names could be one file, one could be the directory the other is in, or one is a
conflict copy of the other. -/
def clash (fold : SyncPath → SyncPath) (earlier path : SyncPath) : Bool :=
  fold earlier == fold path ||
    ((properAncestors earlier).map fold).contains (fold path) ||
    ((properAncestors path).map fold).contains (fold earlier) ||
    isConflictCopyOf earlier path || isConflictCopyOf path earlier

def conflictsWithRun (fold : SyncPath → SyncPath) (run : List RunEntry) (path : SyncPath) : Bool :=
  run.any fun entry => clash fold entry.item.1 path

/-- An entry as it is settled, and the ledger when it began. -/
structure Attempt (ε : Type) where
  entry : RunEntry
  ledger : Ledger ε

/-- A pass under way. `attempts` and `runs` are for the record: everything that was settled, and
the entries that were settled together. -/
structure Pass (σ ε : Type) where
  world : σ
  ledger : Ledger ε
  run : List RunEntry
  attempts : List (Attempt ε)
  runs : List (List RunEntry)

namespace Pass

variable (env : Environment σ ε)
  (schedule : List (RunEntry × Nat) → List (RunEntry × Nat))

def settleEntry (world : σ) (entry : RunEntry × Nat) : MaterializeResult ε × σ :=
  env.settle world entry.1.item entry.1.claim

/-- Folds the outcome of a run's entry into the pass. -/
def recordEntry (world : σ) (ledger : Ledger ε)
    (done : (RunEntry × Nat) × MaterializeResult ε) : Ledger ε :=
  ledger.record done.1.1.item (env.directoryOnDisk world done.1.1.item.1) done.2

/-- Settles the run: the entries end in the order of the schedule, and their outcomes are folded
in in the order of the run. -/
def settlePlainRun (pass : Pass σ ε) : Pass σ ε :=
  if pass.run.isEmpty then
    pass
  else
    let finished := execute (settleEntry env) pass.world (schedule pass.run.zipIdx)
    { world := finished.2
      ledger := (ranked (fun done => done.1.2) finished.1).foldl (recordEntry env finished.2)
        pass.ledger
      run := []
      attempts := pass.attempts ++ pass.run.map fun entry => ⟨entry, pass.ledger⟩
      runs := pass.runs ++ [pass.run] }

/-- A plain entry joins the run, which is settled first if the entry clashes with it. -/
def gather (pass : Pass σ ε) (item : Item) : Pass σ ε :=
  let pass := if conflictsWithRun env.canonicalFold pass.run item.1 then
      pass.settlePlainRun env schedule
    else
      pass
  { pass with run := pass.run ++ [⟨item, env.claimFor pass.ledger.retry item.1⟩] }

/-- The claim an item is settled with. An absent path has none. -/
def claimOf (ledger : Ledger ε) (item : Item) : Option ObligationClaimToken :=
  match item.2 with
  | .absent => none
  | .node _ => env.claimFor ledger.retry item.1

def settleAlone (pass : Pass σ ε) (item : Item) : Pass σ ε :=
  let claim := claimOf env pass.ledger item
  let done := env.settle pass.world item claim
  { pass with
    world := done.2
    ledger := pass.ledger.record item (env.directoryOnDisk done.2 item.1) done.1
    attempts := pass.attempts ++ [⟨⟨item, claim⟩, pass.ledger⟩] }

def excluded (pass : Pass σ ε) (path : SyncPath) : Pass σ ε :=
  { pass with ledger.settled := pass.ledger.settled.insert path env.ignoreExcluded }

def declined (pass : Pass σ ε) (path : SyncPath) : Pass σ ε :=
  { pass with ledger.retry := pass.ledger.retry.insert path }

def behindGate (pass : Pass σ ε) (item : Item) : Gate → Pass σ ε
  | .ignored => pass.excluded env item.1
  | .declined => pass.declined item.1
  | .open_ => pass.settleAlone env item

def isOpen : Gate → Bool
  | .open_ => true
  | .ignored => false
  | .declined => false

/-- One item. Its gate is read before the run is settled; anything but a plain entry behind an open
gate waits for the run. -/
def step (pass : Pass σ ε) (item : Item) : Pass σ ε :=
  let gate := env.passGate pass.ledger.unshaped item.1
  if isOpen gate && isPlainEntry item.2 then
    pass.gather env schedule item
  else
    (pass.settlePlainRun env schedule).behindGate env item gate

def settleWork (pass : Pass σ ε) (order : List Item) : Pass σ ε :=
  (order.foldl (step env schedule) pass).settlePlainRun env schedule

def serialStep (pass : Pass σ ε) (item : Item) : Pass σ ε :=
  pass.behindGate env item (env.passGate pass.ledger.unshaped item.1)

def settleSerially (pass : Pass σ ε) (order : List Item) : Pass σ ε :=
  order.foldl (serialStep env) pass

end Pass

/-! ## Planning -/

structure NativeLevelPlan where
  nodes : ExtTreeMap SyncPath NativePlannedNode
  contested : ExtTreeSet SyncPath

/-- What the pass plans with: whether the group's link is live, and the plan of a level for some of
its names, if these can be planned. -/
structure Planner where
  live : Bool
  nativePlanForNames : SyncPath → ExtTreeSet SyncPath → Option NativeLevelPlan

def nativeLevelsOf (seeds : ExtTreeSet SyncPath) : ExtTreeSet SyncPath :=
  seeds.toList.foldl (fun levels path =>
    (properAncestors path).foldl (fun levels ancestor => levels.insert (parentOf ancestor))
      (levels.insert (parentOf path))) ∅

def interesting (seeds : ExtTreeSet SyncPath) : ExtTreeSet SyncPath :=
  seeds.toList.foldl (fun names path =>
    (properAncestors path).foldl (fun names ancestor => names.insert ancestor) (names.insert path)) ∅

structure PlannedWork where
  work : ExtTreeMap SyncPath Work
  retry : ExtTreeSet SyncPath
  contested : ExtTreeSet SyncPath

namespace Planner

variable (planner : Planner) (seeds : ExtTreeSet SyncPath)

def planOf (level : SyncPath) : Option NativeLevelPlan :=
  planner.nativePlanForNames level
    ((interesting seeds).filter fun name => parentOf name == level)

def plans : List NativeLevelPlan :=
  (nativeLevelsOf seeds).toList.filterMap (planner.planOf seeds)

def contested : ExtTreeSet SyncPath :=
  (planner.plans seeds).foldl (fun paths plan =>
    plan.contested.toList.foldl (fun paths path => paths.insert path) paths) ∅

/-- The nodes of the planned levels that a seed or an ancestor of one is. -/
def plannedNodes : ExtTreeMap SyncPath Work :=
  (planner.plans seeds).foldl (fun work plan =>
    plan.nodes.toList.foldl (fun work node =>
      if (interesting seeds).contains node.1 then work.insert node.1 (.node node.2) else work)
      work) ∅

/-- A seed the plan holds nothing for is work, unless it is contested or was not planned. -/
def addSeed (planned : PlannedWork) (path : SyncPath) : PlannedWork :=
  if planned.work.contains path then
    planned
  else if planned.contested.contains path || (planner.planOf seeds (parentOf path)).isNone then
    { planned with retry := planned.retry.insert path }
  else
    { planned with work := planned.work.insert path .absent }

def plan : PlannedWork :=
  seeds.toList.foldl (planner.addSeed seeds)
    ⟨planner.plannedNodes seeds, ∅, planner.contested seeds⟩

end Planner

/-! ## The pass -/

def workOrder (work : ExtTreeMap SyncPath Work) : List Item :=
  ranked orderKey work.toList

structure ProjectionAttempt (ε : Type) where
  settled : ExtTreeMap SyncPath ε
  retry : ExtTreeSet SyncPath

/-- A path that was examined and not recorded is tried again. -/
def recordMissing (ledger : Ledger ε) (path : SyncPath) : Ledger ε :=
  if ledger.settled.contains path || ledger.retry.contains path then ledger
  else { ledger with retry := ledger.retry.insert path }

def attemptOf (planned : PlannedWork) (seeds : ExtTreeSet SyncPath) (ledger : Ledger ε) :
    ProjectionAttempt ε :=
  let complete := (planned.work.keys ++ seeds.toList).foldl recordMissing ledger
  ⟨complete.settled, complete.retry⟩

def Pass.start (world : σ) (planned : PlannedWork) : Pass σ ε :=
  ⟨world, ⟨∅, planned.retry, planned.contested⟩, [], [], []⟩

/-- The pass over the seeds, with what it did on the way. -/
def reconcileGroupPathsNative (env : Environment σ ε)
    (schedule : List (RunEntry × Nat) → List (RunEntry × Nat)) (planner : Planner) (world : σ)
    (seeds : ExtTreeSet SyncPath) : ProjectionAttempt ε × Pass σ ε :=
  if planner.live then
    let planned := planner.plan seeds
    let pass := (Pass.start world planned).settleWork env schedule (workOrder planned.work)
    (attemptOf planned seeds pass.ledger, pass)
  else
    (⟨∅, seeds⟩, Pass.start world ⟨∅, seeds, ∅⟩)

/-- The same pass, with the items settled one at a time. -/
def reconcileSerially (env : Environment σ ε) (planner : Planner) (world : σ)
    (seeds : ExtTreeSet SyncPath) : ProjectionAttempt ε × Pass σ ε :=
  if planner.live then
    let planned := planner.plan seeds
    let pass := (Pass.start world planned).settleSerially env (workOrder planned.work)
    (attemptOf planned seeds pass.ledger, pass)
  else
    (⟨∅, seeds⟩, Pass.start world ⟨∅, seeds, ∅⟩)

end Yadorilink.Reconcile
