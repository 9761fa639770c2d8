import Yadorilink.Projection.ProjectTree
import Yadorilink.Store.Install

/-! The projector of a provider root. Deltas and version records arm the paths they touch; a
batch takes the first armed paths of the group, writes the row of each path's desired node or
retires the row it had, and completes their obligations, all in one transaction. -/

namespace Yadorilink

open Std

/-! ## Winners -/

/-- The heads of a path in the order of `resolve_winner`: by version, then by provenance. -/
def compareHeads (first second : LiveHead) : Ordering :=
  (compare (winKey false first.payload.version) (winKey false second.payload.version)).then
    (compare first.payload.provenance second.payload.provenance)

def resolveWinner : List LiveHead → Option LiveHead
  | [] => none
  | first :: rest => some (rest.foldl (fun best next =>
    if compareHeads best next = .gt then best else next) first)

/-! ## Plans -/

structure NativeLocatedHead where
  sourcePath : SyncPath
  head : LiveHead
deriving DecidableEq

/-- Which head a row shows. -/
structure NativeRowIdentity where
  sourcePath : SyncPath
  dot : Dot
  provenance : DeltaHash
deriving DecidableEq

def NativeRowIdentity.of (located : NativeLocatedHead) : NativeRowIdentity :=
  ⟨located.sourcePath, located.head.dot, located.head.payload.provenance⟩

inductive NativePlannedNode where
  | entry (head : NativeLocatedHead) (kind : RecordKind)
  | explicitDirectory (head : NativeLocatedHead)
  | structuralDirectory
deriving DecidableEq

inductive Planned where
  | absent
  | node (node : NativePlannedNode)
  | contested
deriving DecidableEq

section Plans

variable (kindOf : VersionHash → Option RecordKind)

/-- The head whose metadata an explicit directory carries. -/
def bestDirectoryHead (path : SyncPath) (heads : List LiveHead) : Option NativeLocatedHead :=
  (resolveWinner (heads.filter fun head => kindOf head.payload.version = some .directory)).map
    fun head => ⟨path, head⟩

/-- What a path is planned to be, unless its projection names a head it does not have. -/
def planOne (path : SyncPath) (heads : List LiveHead) (below : Bool) : Option Planned :=
  match projectPath heads kindOf below with
  | .absent => some .absent
  | .pending _ => some .contested
  | .settled (.directory .structural) => some (.node .structuralDirectory)
  | .settled (.directory (.explicit _)) =>
    (bestDirectoryHead kindOf path heads).map fun head => .node (.explicitDirectory head)
  | .settled (.entry kind _ representative) =>
    (heads.find? fun head => decide (head.dot = representative)).map fun head =>
      .node (.entry ⟨path, head⟩ kind)

end Plans

/-! ## The namespace of a group -/

/-- A provider group: its live heads, the kinds of the version records it holds, the head
that each path's live row shows, and the open obligations with their generations. -/
structure ProviderNamespace where
  state : NativeState
  records : VersionHash → Option RecordKind
  rows : SyncPath → Option NativeRowIdentity
  obligations : ExtTreeMap SyncPath Nat

namespace ProviderNamespace

def empty : ProviderNamespace := ⟨.new, fun _ => none, fun _ => none, ∅⟩

/-- `native_has_descendant_head`: some head lies between `path/` and `path0`. -/
def hasDescendantHead (group : ProviderNamespace) (path : SyncPath) : Bool :=
  group.state.heads.keys.any fun key =>
    compare (path ++ "/") key == .lt && compare key (path ++ "0") == .lt

def plan (group : ProviderNamespace) (path : SyncPath) : Option Planned :=
  planOne group.records path (group.state.headsAt path) (group.hasDescendantHead path)

/-- Whether the projection of a path is pending where a batch plans it. -/
def contested (group : ProviderNamespace) (path : SyncPath) : Bool :=
  (projectPath (group.state.headsAt path) group.records (group.hasDescendantHead path)).isPending

section Batches

-- Whether the row written for a version's record shows that version.
variable (shows : VersionHash → Bool)

/-- Writes the row of a head, unless it stands already. The write fails where the record is
missing or the row would show another version than the head it cites. -/
def writeRow (group : ProviderNamespace) (physical : SyncPath) (head : NativeLocatedHead) :
    Option ProviderNamespace :=
  let identity := NativeRowIdentity.of head
  if group.rows physical = some identity then
    some group
  else if (group.records head.head.payload.version).isNone then
    none
  else if !shows head.head.payload.version then
    none
  else
    some { group with rows := Function.update group.rows physical (some identity) }

def tombstoneIfLive (group : ProviderNamespace) (path : SyncPath) : ProviderNamespace :=
  if (group.rows path).isSome then { group with rows := Function.update group.rows path none }
  else group

/-- Writes the row the plan gives for a path, and retires the row of a path that the plan holds
no node for. A level is planned name by name, and the node of a name stands at that name. -/
def projectName (group : ProviderNamespace) (path : SyncPath) : Option ProviderNamespace :=
  (group.plan path).bind fun
    | .node (.entry head _) => group.writeRow shows path head
    | .node (.explicitDirectory head) => group.writeRow shows path head
    | .node .structuralDirectory | .absent | .contested => some (group.tombstoneIfLive path)

/-- The obligations one batch takes, in path order. -/
def batchOf (group : ProviderNamespace) (limit : Nat) : List (SyncPath × Nat) :=
  group.obligations.toList.take limit

/-- An obligation is completed if nothing re-armed it meanwhile. -/
def completeObligation (group : ProviderNamespace) (taken : SyncPath × Nat) : ProviderNamespace :=
  if group.obligations[taken.1]? = some taken.2 then
    { group with obligations := group.obligations.erase taken.1 }
  else
    group

def projectNames : List (SyncPath × Nat) → ProviderNamespace → Option ProviderNamespace
  | [], group => some group
  | taken :: rest, group => (group.projectName shows taken.1).bind (projectNames rest)

/-- One batch in one transaction; a row that cannot be written rolls it back. -/
def projectBatch (group : ProviderNamespace) (limit : Nat) : Option ProviderNamespace :=
  (projectNames shows (group.batchOf limit) group).map fun projected =>
    (group.batchOf limit).foldl completeObligation projected

end Batches

/-! ## Arming -/

def armPath (group : ProviderNamespace) (path : SyncPath) : ProviderNamespace :=
  { group with
    obligations := group.obligations.insert path ((group.obligations[path]?).getD 0 + 1) }

/-- `arm_projection_for_delta`: every path the delta touches, once. -/
def armProjectionForDelta (group : ProviderNamespace) (delta : NativeDelta) : ProviderNamespace :=
  (delta.ops.map DeltaOp.path).dedup.foldl armPath group

/-- Installs a verified delta and arms what it touches. A refused one changes nothing. -/
def install (crypto : Crypto) (group : ProviderNamespace) (delta : NativeDelta) :
    ProviderNamespace :=
  match group.state.receiveVerified delta.author delta.seq (delta.remoteOps crypto) with
  | .error _ => group
  | .ok (_, state) => { group with state }.armProjectionForDelta delta

def pathsNaming (state : NativeState) (version : VersionHash) : List SyncPath :=
  (state.heads.toList.filter fun entry =>
    entry.2.toList.any fun head => decide (head.2.version = version)).map Prod.fst

/-- `arm_projection_for_arrived_version`, for a record that has just been stored. A record
held already stays as it is. -/
def arriveVersion (group : ProviderNamespace) (version : VersionHash) (kind : RecordKind) :
    ProviderNamespace :=
  let records := if (group.records version).isSome then group.records
    else Function.update group.records version (some kind)
  (pathsNaming group.state version).foldl armPath { group with records }

/-! ## Runs -/

inductive Event where
  | install (delta : NativeDelta)
  | arrive (version : VersionHash) (kind : RecordKind)
  | batch (limit : Nat)

/-- A batch that fails is rolled back and leaves its obligations open. -/
def step (crypto : Crypto) (shows : VersionHash → Bool) (group : ProviderNamespace) :
    Event → ProviderNamespace
  | .install delta => group.install crypto delta
  | .arrive version kind => group.arriveVersion version kind
  | .batch limit => (group.projectBatch shows limit).getD group

/-- A batch takes no path whose projection is pending. -/
def TakesSettled (group : ProviderNamespace) : Event → Prop
  | .batch limit => ∀ taken ∈ group.batchOf limit, group.contested taken.1 = false
  | _ => True

instance (group : ProviderNamespace) : DecidablePred group.TakesSettled := fun event => by
  cases event <;> unfold TakesSettled <;> infer_instance

end ProviderNamespace

end Yadorilink
