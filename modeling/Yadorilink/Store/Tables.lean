import Yadorilink.Domain.AuthorizationCheckpoint
import Yadorilink.Domain.FileVersion
import Yadorilink.Domain.NativeFrontier
import Yadorilink.Foundation.Transaction

/-! The rows a replica keeps for one group, table by table. A table with a
primary key is an ordered map; the hold queue is a list in row order, new rows
last. A column that holds the encoding of a delta, a checkpoint, a proof or a
version is modelled by what it encodes. -/

namespace Yadorilink

open Std

/-! ## Rows -/

/-- The primary key of a live head's row. -/
structure HeadKey where
  path : SyncPath
  dot : Dot
deriving DecidableEq

instance : Ord HeadKey := ⟨compareLex (compareOn HeadKey.path) (compareOn HeadKey.dot)⟩

instance : TransOrd HeadKey :=
  inferInstanceAs (TransCmp (compareLex (compareOn HeadKey.path) (compareOn HeadKey.dot)))

instance : LawfulEqOrd HeadKey :=
  OrderedMap.lawfulEqCmp_compareLex_compareOn HeadKey.path HeadKey.dot
    fun left right samePath sameDot => by
      cases left
      cases right
      simp_all

/-- A delta's body row. -/
structure BodyRow where
  deltaHash : DeltaHash
  delta : NativeDelta
deriving DecidableEq

/-- A held delta and the one dot it waits on. -/
structure HoldRow where
  delta : NativeDelta
  waitingOn : Dot
  receivedAt : Int
deriving DecidableEq

/-- A recursive operation is keyed by the device that authored it. -/
structure OperationKey where
  device : DeviceId
  operationId : BitVec 128
deriving DecidableEq

instance : Ord OperationKey :=
  ⟨compareLex (compareOn OperationKey.device) (compareOn OperationKey.operationId)⟩

instance : TransOrd OperationKey :=
  inferInstanceAs (TransCmp
    (compareLex (compareOn OperationKey.device) (compareOn OperationKey.operationId)))

instance : LawfulEqOrd OperationKey :=
  OrderedMap.lawfulEqCmp_compareLex_compareOn OperationKey.device OperationKey.operationId
    fun left right sameDevice sameId => by
      cases left
      cases right
      simp_all

/-- A verified closure of an author; `exportable` when the checkpoint that
replaces its unpublished work is known. -/
structure ClosureRow where
  author : AuthorId
  cutoff : Option NativeAuthorFrontierEntry
  exportable : Bool
deriving DecidableEq

/-- The states of a rebootstrap journal the freeze check tells apart. -/
inductive JournalState where
  | planning
  | blocked
  | capturing
  | preserving
  | preserved
  | quarantining
  | catchingUp
  | replaying
  | unknown (name : String)
deriving DecidableEq

structure JournalRow where
  recoveryId : String
  state : JournalState
  captureHighSeq : Option Nat
deriving DecidableEq

/-- A delta's publication evidence: the checkpoint that covers it, and where. -/
structure DeltaEvidence where
  checkpointHash : BitVec 256
  proof : MerkleProof
deriving DecidableEq

/-- The checkpoint a replica's retained history begins at. -/
structure HistoryFloor where
  checkpointId : BitVec 256
  floorFrontierRoot : BitVec 256
deriving DecidableEq

/-! ## The store -/

structure Store where
  /-- Per author, how far its deltas have been observed. -/
  context : ExtTreeMap AuthorId Nat
  heads : ExtTreeMap HeadKey HeadPayload
  frontier : ExtTreeMap AuthorId NativeAuthorFrontierEntry
  /-- The hash of every delta installed. -/
  log : ExtTreeMap Dot DeltaHash
  bodies : ExtTreeMap Dot BodyRow
  holds : List HoldRow
  /-- Per recursive operation, the parts seen and the count each claims. -/
  parts : ExtTreeMap OperationKey (ExtTreeMap Nat Nat)
  closures : List ClosureRow
  /-- The installed closed states, with the cutoff each is closed at. -/
  closed : ExtTreeMap AuthorId (Option NativeAuthorFrontierEntry)
  /-- Per author, the position of the checkpoint this replica joined from. -/
  floor : ExtTreeMap AuthorId NativeAuthorFrontierEntry
  historyFloor : Option HistoryFloor
  journal : Option JournalRow
  /-- The evidence of verified deltas that wait to be installed. -/
  pending : ExtTreeMap DeltaHash DeltaEvidence
  /-- The evidence of published deltas. -/
  published : ExtTreeMap DeltaHash DeltaEvidence
  checkpoints : ExtTreeMap (BitVec 256) CheckpointEnvelope
  versions : ExtTreeMap VersionHash FileVersion
deriving DecidableEq

def Store.empty : Store where
  context := ∅
  heads := ∅
  frontier := ∅
  log := ∅
  bodies := ∅
  holds := []
  parts := ∅
  closures := []
  closed := ∅
  floor := ∅
  historyFloor := none
  journal := none
  pending := ∅
  published := ∅
  checkpoints := ∅
  versions := ∅

/-! ## Failures -/

/-- What makes an argument structurally invalid for a store operation. -/
inductive InvalidInput where
  | signature
  | otherGroup (signed called : FolderGroupId)
  | chain (failure : ChainAdvanceError)
  | malformed (failure : AuthorError)
  | partCount (part : RecursivePart) (device : DeviceId) (recorded : Nat)
  | invariant (violation : InvariantViolation)
  | authorClosed (cutoff : Option Nat)
  | closureFork (seq : Nat)
  | twoPuts (path : SyncPath)
  | lastSequence (author : AuthorId)
  | authorKey
  | fileVersion (failure : VersionError)
deriving DecidableEq

/-- A stored version that does not decode, or not to the hash it is under. -/
inductive NotFound where
  | corruptVersion
  | versionHash
deriving DecidableEq

inductive CorruptState where
  | journalState (name : String)
  | captureEnded
  | unbackedClosure (author : AuthorId) (cutoff : Option NativeAuthorFrontierEntry)
  | wrongNextDot (claimed found : Nat)
  | otherCheckpoint (checkpointHash : BitVec 256)
  | otherEvidence (deltaHash : DeltaHash)
  | otherPendingEvidence (deltaHash : DeltaHash)
  | otherLoggedHash (dot : Dot)
  | missingEnvelope
deriving DecidableEq

/-- A hard failure: the caller's transaction is rolled back. `fuel` marks a
loop that was given too few turns; no loop here ever is. -/
inductive StoreError where
  | invalidInput (reason : InvalidInput)
  | corruptState (reason : CorruptState)
  | notFound (reason : NotFound)
  | constraint
  | groupFrozen
  /-- The author's own bucket at `path` would hold `count` heads. -/
  | ownBucketOverCap (path : SyncPath) (count : Nat)
  | fuel
deriving DecidableEq

abbrev Db := EStateM StoreError Store

/-! ## Reading the state -/

namespace Store

def addHead (heads : HeadMap) (key : HeadKey) (payload : HeadPayload) : HeadMap :=
  heads.insert key.path (((heads[key.path]?).getD ∅).insert key.dot payload)

def headMapOf (rows : List (HeadKey × HeadPayload)) : HeadMap :=
  rows.foldl (fun heads row => addHead heads row.1 row.2) ∅

def loadState (store : Store) : NativeState := ⟨store.context, headMapOf store.heads.toList⟩

/-- The heads at exactly `paths`. The source reads them some paths at a time;
the maps are ordered, so the order of the reads does not show. -/
def loadHeadsAtPaths (store : Store) (paths : List SyncPath) : HeadMap :=
  headMapOf (store.heads.toList.filter fun row => row.1.path ∈ paths)

/-- Reads one author's context row, if there is one, into `context`. -/
def loadContextOf (store : Store) (context : Context) (author : AuthorId) : Context :=
  match store.context[author]? with
  | some seq => context.insert author seq
  | none => context

/-- The heads at exactly `paths`, and the context of exactly the authors
holding them. -/
def loadPartialState (store : Store) (paths : List SyncPath) : NativeState :=
  let heads := store.loadHeadsAtPaths paths
  let authors := ExtTreeSet.ofList
    (heads.toList.flatMap fun entry => entry.2.keys.map Dot.author) compare
  ⟨authors.toList.foldl store.loadContextOf ∅, heads⟩

end Store

end Yadorilink
