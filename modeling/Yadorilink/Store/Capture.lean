import Yadorilink.Store.RemovalChain

/-! What a local writer was shown, and the edit it then signs. A capture records the
version the disk is guaranteed to hold and the live heads of that version; the commit
supersedes heads of that version, picked from the state at the time of the commit. -/

namespace Yadorilink

open Std

/-! ## The rows beside the native ones -/

/-- A path's current index row: whether it is a deletion, and the version its
columns name. -/
structure CurrentRow where
  deleted : Bool
  versionHash : VersionHash
deriving DecidableEq

/-- What was last written to the disk at a path, and the mutation fence the write
was published under. -/
structure GenerationRow where
  publishedUnder : Nat
  objectKind : MaterializedObjectKind
  version : Option VersionHash
deriving DecidableEq

/-- The tables of a group that describe its files rather than its heads. -/
structure FileIndex where
  current : ExtTreeMap SyncPath CurrentRow
  generations : ExtTreeMap SyncPath GenerationRow
  fences : ExtTreeMap SyncPath Nat

namespace FileIndex

/-- The generation of a path, if its fence has not moved since and, for content, it
names a version. -/
def lookupMaterializedGeneration (index : FileIndex) (path : SyncPath) : Option GenerationRow :=
  match index.generations[path]?, index.fences[path]? with
  | some row, some fence =>
    if row.publishedUnder = fence ∧ (row.objectKind = .absent ∨
        row.objectKind = .structuralDirectory ∨ row.version.isSome) then some row else none
  | _, _ => none

/-- The version the disk is guaranteed to hold at a path the index shows. -/
def guaranteedVersion (index : FileIndex) (path : SyncPath) : Option VersionHash :=
  if index.current[path]?.any fun row => !row.deleted then
    (index.lookupMaterializedGeneration path).bind GenerationRow.version
  else
    none

def rowVersionOf (index : FileIndex) (path : SyncPath) : Option VersionHash :=
  (index.current[path]?.filter fun row => !row.deleted).map CurrentRow.versionHash

end FileIndex

/-! ## Capture -/

/-- What a local writer was shown for the path it is about to act on. -/
structure NativeCaptureWitness where
  path : SyncPath
  shownClass : List Dot
  shownVersion : Option VersionHash
  rowVersion : Option VersionHash
deriving DecidableEq

def Store.nativeHeadsAt (store : Store) (path : SyncPath) : List LiveHead :=
  (store.heads.toList.filter fun row => row.1.path = path).map fun row => ⟨row.1.dot, row.2⟩

/-- Every live head at `path` whose content is `version`, in the order of the dots. -/
def Store.liveClass (store : Store) (path : SyncPath) (version : VersionHash) : List Dot :=
  (((store.nativeHeadsAt path).filter fun head => head.payload.version = version).map
    LiveHead.dot).mergeSort fun left right => (compare left right).isLE

def captureNativeWitness (index : FileIndex) (store : Store) (path : SyncPath) :
    NativeCaptureWitness where
  path := path
  shownClass := (index.guaranteedVersion path).elim [] (store.liveClass path)
  shownVersion := index.guaranteedVersion path
  rowVersion := index.rowVersionOf path

inductive NativeStaleCaptureReason where
  | unexpectedContentAppeared
  | rowGone
  | rowChanged
deriving DecidableEq

inductive NativeStaleCaptureVerdict where
  | fresh
  | stale (reason : NativeStaleCaptureReason)
deriving DecidableEq

/-- Whether the row still shows what the witness captured. -/
def verifyNativeCaptureWitness (index : FileIndex) (store : Store)
    (witness : NativeCaptureWitness) : NativeStaleCaptureVerdict :=
  match witness.rowVersion, (captureNativeWitness index store witness.path).rowVersion with
  | none, none => .fresh
  | none, some _ => .stale .unexpectedContentAppeared
  | some _, none => .stale .rowGone
  | some past, some now => if past = now then .fresh else .stale .rowChanged

inductive CaptureRefusal where
  | otherPath (captured acted : SyncPath)
  | localWriteCaptureStale (path : SyncPath)
deriving DecidableEq

def requireFreshNativeCapture (index : FileIndex) (store : Store) (rowPath : SyncPath)
    (witness : Option NativeCaptureWitness) : Except CaptureRefusal Unit :=
  match witness with
  | none => .ok ()
  | some witness =>
    if witness.path ≠ rowPath then
      .error (.otherPath witness.path rowPath)
    else
      match verifyNativeCaptureWitness index store witness with
      | .fresh => .ok ()
      | .stale _ => .error (.localWriteCaptureStale rowPath)

/-! ## Local operations -/

inductive Op where
  | put (path : SyncPath) (version : VersionHash)
  | delete (path : SyncPath)
  | move (source target : SyncPath) (version : VersionHash)
deriving DecidableEq

namespace Op

def source : Op → SyncPath
  | .put path _ => path
  | .delete path => path
  | .move source _ _ => source

def paths : Op → List SyncPath
  | .put path _ => [path]
  | .delete path => [path]
  | .move source target _ => [source, target]

end Op

/-- What the writer was looking at when it made one op: per path the version shown,
and the heads at one path that its edit may supersede. -/
structure Shown where
  versions : ExtTreeMap SyncPath (Option VersionHash)
  /-- Every live head of the version when absent. -/
  class_ : Option (SyncPath × List Dot)

/-- The captured class for `path`, when there is one for that path. -/
def Shown.classAt (shown : Shown) (path : SyncPath) : Option (List Dot) :=
  (shown.class_.filter fun entry => entry.1 = path).map Prod.snd

def rowVersions (index : FileIndex) (op : Op) : ExtTreeMap SyncPath (Option VersionHash) :=
  op.paths.foldl (fun versions path => versions.insert path (index.rowVersionOf path)) ∅

/-- What one op was shown: what its witness recorded goes before its rows. -/
def shownVersion (index : FileIndex) (store : Store) (own : AuthorId) (op : Op)
    (witness : Option NativeCaptureWitness) : Shown :=
  let versions := rowVersions index op
  match witness with
  | none => ⟨versions, none⟩
  | some witness =>
    if witness.shownVersion.isSome then
      ⟨versions.insert witness.path witness.shownVersion,
        if witness.shownClass.isEmpty then none else some (witness.path, witness.shownClass)⟩
    else
      match versions[witness.path]? with
      | some (some rowVersion) =>
        -- Nothing vouches for the disk: the row stands in for it only when every
        -- live head of its version is the writer's own.
        if ((store.nativeHeadsAt witness.path).filter fun head =>
            head.payload.version = rowVersion).all fun head => head.dot.author = own then
          ⟨versions, none⟩
        else
          ⟨versions.insert witness.path none, none⟩
      | _ => ⟨versions, none⟩

def headsOfShownClass (state : NativeState) (path : SyncPath) (version : VersionHash)
    (class_ : Option (List Dot)) : List Dot :=
  ((((state.headsAt path).filter fun head => head.payload.version = version).filter
    fun head => class_.all fun dots => head.dot ∈ dots).map LiveHead.dot).mergeSort
      fun left right => (compare left right).isLE

def observedTarget (state : NativeState) (path : SyncPath) (shown : Shown) : List Dot :=
  match shown.versions[path]? with
  | some (some version) => headsOfShownClass state path version (shown.classAt path)
  | _ => []

def deleteEdit (state : NativeState) (path : SyncPath) (shown : Shown) : Option PathEdit :=
  let observed := observedTarget state path shown
  if observed.isEmpty then none else some ⟨path, observed, none⟩

def putEdit (state : NativeState) (path : SyncPath) (version : VersionHash) (shown : Shown) :
    PathEdit :=
  ⟨path, observedTarget state path shown, some ⟨version, default⟩⟩

def editsForOp (state : NativeState) (op : Op) (shown : Shown) : List PathEdit :=
  match op with
  | .put path version => [putEdit state path version shown]
  | .delete path => (deleteEdit state path shown).toList
  | .move source target version =>
    (deleteEdit state source shown).toList ++ [putEdit state target version shown]

/-- Signs and installs one op that was captured under `witness`. -/
def authorOpWitnessed (crypto : Crypto) (groupId : FolderGroupId) (signer : Signer)
    (author : AuthorId) (index : FileIndex) (op : Op) (witness : Option NativeCaptureWitness) :
    Db (List NativeDelta) := do
  let store ← get
  let shown := shownVersion index store author op witness
  let state : NativeState := ⟨∅, store.loadHeadsAtPaths op.paths⟩
  authorAndInstall crypto groupId signer author state (editsForOp state op shown) none

end Yadorilink
