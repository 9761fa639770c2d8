import Yadorilink.Domain.ConflictNames
import Yadorilink.Provider.Items

/-! The write path of a provider root: what a create, a modify, a delete and the keeping of
refused bytes do in their transaction. An edit replaces the current version only when the trust
predicate proves where its bytes come from; other bytes are kept in a file of their own. -/

namespace Yadorilink.Provider

open Std

/-! ## Requests and results -/

inductive EntryKind where
  | file
  | directory
  | symlink
deriving DecidableEq

def EntryKind.of : RecordKind → EntryKind
  | .file => .file
  | .directory => .directory
  | .symlink => .symlink

/-- The version the user saw. -/
inductive BaseVersion where
  | unknown
  | opaqueVersion (hash : VersionHash)
deriving DecidableEq

def BaseVersion.hash? : BaseVersion → Option VersionHash
  | .unknown => none
  | .opaqueVersion hash => some hash

/-- Bytes already ingested into the block store. -/
structure ContentInput where
  blocks : List VersionBlock
  size : Nat
deriving DecidableEq

structure MetadataInput where
  unixMode : Option Nat := none
  mtimeUnixNanos : Option Int := none
  xattrs : Option (List (String × List UInt8)) := none
deriving DecidableEq

structure ApplyInput where
  id : OperationId
  fingerprint : BitVec 256
  kind : ChangeKind
  itemId : Option ItemId := none
  /-- Absent for an unchanged parent; the root container has no id. -/
  newParent : Option (Option ItemId) := none
  name : Option String := none
  entryKind : EntryKind := .file
  base : BaseVersion := .unknown
  content : Option ContentInput := none
  /-- The name of the uploaded copy of the content. -/
  upload : String := ""
  symlinkTarget : Option (List UInt8) := none
  metadata : MetadataInput := {}
  recursive : Bool := false
  maxSubtree : Nat := 20000
  baseGeneration : Option Nat := none
  parentGeneration : Option Nat := none
  observedRevision : Option Nat := none
  nowMs : Int := 0
deriving DecidableEq

namespace ApplyInput

def operation (input : ApplyInput) : Operation ApplyInput :=
  ⟨input.id, input.fingerprint, input.kind, input.content.map fun _ => input.upload, input⟩

/-- Bytes, a symlink target, a mode or attributes: what changes what the item is. -/
def carriesSemanticEdit (input : ApplyInput) : Bool :=
  input.content.isSome || input.symlinkTarget.isSome || input.metadata.unixMode.isSome ||
    input.metadata.xattrs.isSome

def moves (input : ApplyInput) : Bool :=
  input.newParent.isSome || input.name.isSome

/-- A rename or move alone acts on the item's identity, whatever the user saw. -/
def structuralOnly (input : ApplyInput) : Bool :=
  input.moves && !input.carriesSemanticEdit

def advisoryMtime (input : ApplyInput) : Bool :=
  input.metadata.mtimeUnixNanos.isSome && !input.carriesSemanticEdit

def hasContent (input : ApplyInput) : Bool :=
  input.content.isSome || input.symlinkTarget.isSome

def hasMetadata (input : ApplyInput) : Bool :=
  input.metadata.unixMode.isSome || input.metadata.mtimeUnixNanos.isSome ||
    input.metadata.xattrs.isSome

def puts (input : ApplyInput) : Bool :=
  input.hasContent || input.hasMetadata

def nowNs (input : ApplyInput) : Int :=
  max (-2 ^ 63) (min (2 ^ 63 - 1) (input.nowMs * 1000000))

def mtimeFor (input : ApplyInput) : Int :=
  (input.metadata.mtimeUnixNanos.filter fun mtime => decide (0 ≤ mtime)).getD input.nowNs

def replicatedMode (input : ApplyInput) : Option Nat :=
  input.metadata.unixMode.map (· % 512)

def withoutMtime (input : ApplyInput) : ApplyInput :=
  { input with metadata := { input.metadata with mtimeUnixNanos := none } }

end ApplyInput

/-- The item as the OS must adopt it. -/
structure AppliedItem where
  itemId : ItemId
  parentItemId : Option ItemId
  name : String
  kind : EntryKind
  contentVersion : VersionHash
  size : Nat
  mtimeUnixNanos : Int
  unixMode : Nat
  current : Bool
  generation : Nat
  parentGeneration : Nat
deriving DecidableEq

inductive OutcomeKind where
  | applied
  | concurrent
  | fileSurvived
  | deleted
deriving DecidableEq

structure Stored where
  outcome : OutcomeKind
  item : Option AppliedItem
deriving DecidableEq

/-! ## The layers below -/

inductive LocalMutation where
  | upsert (path : SyncPath) (version : FileVersion) (shown : Option VersionHash)
  | delete (path : SyncPath) (shown : VersionHash) (atNs : Int)

inductive RecursiveOperationKind where
  | renameTree (source target : SyncPath)
  | rmTree (root : SyncPath)

/-- What the write path calls: the digests, the rules of names and attributes, and the native
layer that authors a delta for the mutations or fails. -/
structure WritePath (N : Type) where
  crypto : Crypto
  /-- `wire_path_admission_refusal` -/
  refusesPath : SyncPath → Bool
  caseFold : SyncPath → String
  canonicalFold : SyncPath → String
  /-- `replicated_xattr_allowed` -/
  replicatedXattr : String → Bool
  commitGroup : N → List LocalMutation → Except String N
  commitRecursive : N → RecursiveOperationKind → List LocalMutation → Except String N
  /-- The version of the winner of a path's live heads. -/
  winner : N → SyncPath → Option VersionHash

def directoryVersion (mode : Option Nat) : FileVersion :=
  ⟨[], 0, ⟨0, mode, none, .directory, []⟩⟩

/-- The version a directory without a row of its own shows. -/
def structuralVersion : FileVersion :=
  directoryVersion (some 0o755)

/-! ## The trust predicate -/

structure ProvenanceInput where
  base : Option VersionHash
  current : VersionHash
  baseContentSig : Option (List Char)
  itemGeneration : Nat
  baseGeneration : Option Nat
  announceInFlight : Bool
  served : Served
deriving DecidableEq

/-- The view is current and the summary is of the base's content alone. -/
def editBaseTrusted (input : ProvenanceInput) : Bool :=
  if input.baseGeneration ≠ some input.itemGeneration ∨ input.base ≠ some input.current ∨
      input.announceInFlight then
    false
  else
    match input.served, input.baseContentSig with
    | .single served, some base => served == base
    | _, _ => false

/-! ## Names -/

def maxNameBytes : Nat := 255

def nameIsValid (name : String) : Bool :=
  !(name == "" || name == "." || name == ".." || name.toList.contains '/' ||
    name.toList.contains '\x00' || decide (maxNameBytes < name.utf8ByteSize))

def validateName (name : String) : Except ApplyError Unit :=
  if nameIsValid name then .ok () else .error (.invalidName "not a single valid path component")

def nativeCopyHashBytes : Nat := 16

def nativeCopyPath (path : SyncPath) (label : List Char) (key : BitVec 256) : SyncPath :=
  let (dir, filename) := match rsplitOnce '/' path.toList with
    | some (dir, name) => (dir ++ ['/'], name)
    | none => ([], path.toList)
  let (rawStem, ext) := match rsplitOnce '.' filename with
    | some (stem, ext) => if stem.isEmpty then (filename, none) else (stem, some ext)
    | none => (filename, none)
  let shown := hexEncode ((beBytes 32 key.toNat).take nativeCopyHashBytes)
  let suffix := " (conflicted copy, ".toList ++ label ++ ", ".toList ++ shown ++ [')']
  let extBytes := ext.elim 0 fun ext => 1 + PathRules.byteLength ext
  let stem := truncateStemToFit (stripConflictSuffix rawStem)
    (PathRules.byteLength suffix + extBytes)
  String.ofList (dir ++ stem ++ suffix ++ ext.elim [] ('.' :: ·))

/-- The conflict names of a path, in the order they are tried. -/
def copyNames (path : SyncPath) (key : BitVec 256) : List SyncPath :=
  nativeCopyPath path "local".toList key :: (List.range' 2 999).map fun n =>
    nativeCopyPath path ("local-".toList ++ Nat.toDigits 10 n) key

/-- The quarantine entries of the bytes, in the order they are tried. -/
def quarantineNames (key : BitVec 256) : List SyncPath :=
  (List.range 10000).map fun n =>
    let folder := if n = 0 then "Kept bytes".toList
      else "Kept bytes (".toList ++ Nat.toDigits 10 n ++ [')']
    String.ofList (folder ++ '/' :: hexEncode (beBytes 32 key.toNat))

namespace ProviderDb

variable {N : Type} (env : WritePath N) (draw : List ProviderItem → ItemId)

/-! ## Checks over the committed rows -/

/-- The live rows at a path and below it, in the order of their paths. -/
def liveRowsUnder (db : ProviderDb N) (path : SyncPath) : List (SyncPath × FileVersion) :=
  db.rows.toList.filter fun row => atOrBelow path row.1

def kindAt (db : ProviderDb N) (path : SyncPath) : Option RecordKind :=
  (db.rows[path]?).map (·.fileMeta.recordKind)

def isDirectory (db : ProviderDb N) (path : SyncPath) : Bool :=
  match db.kindAt path with
  | some kind => kind == .directory
  | none => db.rows.toList.any fun row => below path row.1

def parentPath (db : ProviderDb N) (parent : Option ItemId) : Except ApplyError SyncPath :=
  match parent with
  | none => .ok ""
  | some id =>
    match (db.item? id).filter ProviderItem.live with
    | some item => .ok item.path
    | none => .error (.notFound "the parent is gone")

def insideMoving (moving : Option SyncPath) (path : SyncPath) : Bool :=
  moving.any fun source => path == source || (source.toList ++ ['/']).isPrefixOf path.toList

/-- Live rows of another name that folds like the path. -/
def foldMatches (db : ProviderDb N) (fold : SyncPath → String) (path : SyncPath) :
    List SyncPath :=
  (db.rows.toList.map Prod.fst).filter fun other =>
    decide (fold other = fold path ∧ other ≠ path)

/-- Whether a path is free: nothing live at it or below it, no file above it, and no other name
that folds like it. -/
def checkDestination (db : ProviderDb N) (path : SyncPath) (moving : Option SyncPath) :
    Except ApplyError Unit :=
  if env.refusesPath path then
    .error (.invalidName "a reserved or non-portable name")
  else if (db.liveRowsUnder path).any fun row => !insideMoving moving row.1 then
    .error (.nameCollision (path ++ " is taken"))
  else
    match (foldersAbove path.toList.length path).find? fun folder =>
        (db.kindAt folder).any (· != .directory) && !insideMoving moving folder with
    | some folder => .error (.nameCollision (folder ++ " is not a directory"))
    | none =>
      match (db.foldMatches env.canonicalFold path ++ db.foldMatches env.caseFold path).find?
          fun other => !insideMoving moving other with
      | some other => .error (.nameCollision (other ++ " has the same folded name"))
      | none => .ok ()

/-! ## Commits -/

def applyRows (rows : ExtTreeMap SyncPath FileVersion) (mutations : List LocalMutation) :
    ExtTreeMap SyncPath FileVersion :=
  mutations.foldl (fun rows mutation =>
    match mutation with
    | .upsert path version _ => rows.insert path version
    | .delete path _ _ => rows.erase path) rows

def storeVersions (versions : ExtTreeMap VersionHash FileVersion)
    (mutations : List LocalMutation) : ExtTreeMap VersionHash FileVersion :=
  mutations.foldl (fun versions mutation =>
    match mutation with
    | .upsert _ version _ => versions.insert (version.computeHash env.crypto) version
    | .delete _ _ _ => versions) versions

def committed (db : ProviderDb N) (mutations : List LocalMutation) (native : N) :
    ProviderDb N :=
  { db with
    rows := applyRows db.rows mutations
    versions := storeVersions env db.versions mutations
    native }

def commitOneGroup (db : ProviderDb N) (mutations : List LocalMutation) :
    Except ApplyError (ProviderDb N) :=
  match env.commitGroup db.native mutations with
  | .error text => .error (.db text)
  | .ok native => .ok (db.committed env mutations native)

/-- A rename moves its items before the rows are written. -/
def moveItems (db : ProviderDb N) : RecursiveOperationKind → Except ApplyError (ProviderDb N)
  | .renameTree source target => db.renameTree source target
  | .rmTree _ => .ok db

def commitRecursiveOperation (db : ProviderDb N) (kind : RecursiveOperationKind)
    (mutations : List LocalMutation) : Except ApplyError (ProviderDb N) := do
  let db ← db.moveItems kind
  match env.commitRecursive db.native kind mutations with
  | .error text => .error (.db text)
  | .ok native => .ok (db.committed env mutations native)

/-- The edit just authored is what the OS shows and holds. -/
def setPublished (db : ProviderDb N) (id : ItemId) (version : FileVersion)
    (advanceGeneration : Bool) : ProviderDb N :=
  db.updateItem id fun item =>
    ProviderItem.authored
      { item with
        publishedVersion := some (version.computeHash env.crypto)
        announceVersion := none
        announceSeq := none
        pendingSince := none
        generation := item.generation + advanceGeneration.toNat }
      version.contentSig

/-- The id of the folder above a path, minted where it has none. -/
def mintParent (db : ProviderDb N) (path : SyncPath) :
    Except ApplyError (Option ItemId × ProviderDb N) :=
  let parent := (splitParent path).1
  if parent = "" then
    .ok (none, db)
  else do
    let minted ← db.mintItem draw parent
    return (some minted.1, minted.2)

/-- The item as committed, read back from the rows. -/
def appliedItem (db : ProviderDb N) (id : ItemId) (expect : Option VersionHash) :
    Except ApplyError (AppliedItem × ProviderDb N) :=
  match (db.item? id).filter ProviderItem.live with
  | none => .error (.retry "the item vanished")
  | some item =>
    match db.rows[item.path]? with
    | none => .error (.retry "the item has no current row")
    | some version => do
        let parent ← db.mintParent draw item.path
        let hash := version.computeHash env.crypto
        let contentVersion := expect.getD hash
        return ({
          itemId := id
          parentItemId := parent.1
          name := (splitParent item.path).2
          kind := .of version.fileMeta.recordKind
          contentVersion
          size := version.size
          mtimeUnixNanos := version.fileMeta.mtimeUnixNanos
          unixMode := version.fileMeta.unixMode.getD 0
          current := hash == contentVersion
          generation := item.generation
          parentGeneration := (parent.2.generationAt (splitParent item.path).1).getD 0 },
          parent.2)

/-- A new file at a free path: its row, its item, and the change of its folder. -/
def authorNew (db : ProviderDb N) (path : SyncPath) (version : FileVersion) :
    Except ApplyError (ItemId × ProviderDb N) := do
  let db ← db.commitOneGroup env [.upsert path version none]
  let minted ← db.mintItem draw path
  return (minted.1,
    (minted.2.setPublished env minted.1 version false).noteChildSetChange (splitParent path).1)

/-! ## Create -/

def cleanXattrs (xattrs : List (String × List UInt8)) : List (String × List UInt8) :=
  ((xattrs.filter fun xattr => env.replicatedXattr xattr.1).insertionSort
    fun first second => first.1 ≤ second.1).destutter fun first second => first.1 ≠ second.1

/-- Whether the live row is already what the create asks for. -/
def createIsAlreadySatisfied (input : ApplyInput) (existing : FileVersion) : Bool :=
  match input.entryKind with
  | .directory => existing.fileMeta.recordKind == .directory
  | .file =>
    match input.content with
    | none => false
    | some content =>
      existing.fileMeta.recordKind == .file && existing.size == content.size &&
        existing.blocks == content.blocks &&
        input.replicatedMode.all fun mode => existing.fileMeta.unixMode == some mode
  | .symlink => false

def fileVersion (input : ApplyInput) (content : ContentInput) (mode : Option Nat)
    (xattrs : List (String × List UInt8)) : FileVersion :=
  ⟨content.blocks, content.size, ⟨input.mtimeFor, mode, none, .file, xattrs⟩⟩

def createdVersion (input : ApplyInput) : Except ApplyError FileVersion :=
  match input.entryKind with
  | .directory => .ok (directoryVersion input.replicatedMode)
  | .symlink =>
    match input.symlinkTarget.filter fun target => !target.isEmpty with
    | none => .error (.invalidName "a symlink needs a target")
    | some target =>
      .ok ⟨[], target.length, ⟨input.mtimeFor, input.replicatedMode, some target, .symlink, []⟩⟩
  | .file =>
    .ok (fileVersion input (input.content.getD ⟨[], 0⟩) input.replicatedMode
      (cleanXattrs env (input.metadata.xattrs.getD [])))

def createPath (db : ProviderDb N) (input : ApplyInput) : Except ApplyError SyncPath :=
  match input.name with
  | none => .error (.invalidName "no name")
  | some name => do
      validateName name
      let parent ← db.parentPath (input.newParent.getD none)
      if parent ≠ "" ∧ (db.kindAt parent).any (· != .directory) then
        .error (.notFound "the parent is not a directory")
      else
        return join parent name

def create (db : ProviderDb N) (input : ApplyInput) :
    Except ApplyError (Stored × ProviderDb N) := do
  let path ← db.createPath input
  if (db.rows[path]?).any (createIsAlreadySatisfied input) then
    let minted ← db.mintItem draw path
    let applied ← minted.2.appliedItem env draw minted.1 none
    return (⟨.applied, some applied.1⟩, applied.2)
  else
    db.checkDestination env path none
    let version ← createdVersion env input
    let authored ← db.authorNew env draw path version
    let applied ← authored.2.appliedItem env draw authored.1
      (some (version.computeHash env.crypto))
    return (⟨.applied, some applied.1⟩, applied.2)

/-! ## Kept bytes -/

/-- Where a copy goes: to where it already is, or to a free name. -/
inductive CopyPlace where
  | kept (path : SyncPath)
  | free (path : SyncPath)
deriving DecidableEq

def findPlace (db : ProviderDb N) (sig : List Char) : List SyncPath → Option CopyPlace
  | [] => none
  | candidate :: rest =>
    match db.rows[candidate]? with
    | some existing =>
      if existing.keptEditSemanticKey = sig then
        some (.kept candidate)
      else
        findPlace db sig rest
    | none =>
      if (db.checkDestination env candidate none).isOk then
        some (.free candidate)
      else
        findPlace db sig rest

/-- `author_copy`: the bytes become a file under the first name that is free or already holds
them. -/
def authorCopy (db : ProviderDb N) (source : SyncPath) (version : FileVersion) :
    Except ApplyError (ItemId × ProviderDb N) :=
  let sig := version.keptEditSemanticKey
  let key := env.crypto.sha256 (utf8Bytes (String.ofList sig) ++ utf8Bytes source)
  match (db.findPlace env sig (copyNames source key)).or
      (db.findPlace env sig (quarantineNames key)) with
  | none => .error (.retry "no free quarantine entry")
  | some (.kept path) => db.mintItem draw path
  | some (.free path) => do
      let authored ← db.authorNew env draw path version
      let parent ← authored.2.mintParent draw path
      return (authored.1, parent.2)

/-- What the current version already is needs no copy. -/
def copyUnlessSame (db : ProviderDb N) (source : SyncPath) (version current : FileVersion) :
    Except ApplyError (ProviderDb N) :=
  if version.keptEditSemanticKey = current.keptEditSemanticKey then
    .ok db
  else do
    let copied ← db.authorCopy env draw source version
    return copied.2

/-- `keep_beside`: the current version stays, and the bytes become a file of their own. -/
def keepBeside (db : ProviderDb N) (input : ApplyInput) (id : ItemId) (source : SyncPath)
    (current : FileVersion) : Except ApplyError (Stored × ProviderDb N) :=
  match input.content.filter fun _ => current.fileMeta.recordKind == .file with
  | none => .error (.keepLocal (some source))
  | some content => do
      let version := fileVersion input content
        (input.replicatedMode.or current.fileMeta.unixMode)
        ((input.metadata.xattrs.map (cleanXattrs env)).getD current.fileMeta.xattrs)
      let db ← db.copyUnlessSame env draw source version current
      let applied ← db.appliedItem env draw id none
      return (⟨.concurrent, some applied.1⟩, applied.2)

def modifiedItem (db : ProviderDb N) (input : ApplyInput) : Option ProviderItem :=
  if input.kind = .modify then
    (input.itemId.bind db.item?).filter ProviderItem.live
  else
    none

def modifiedFile (db : ProviderDb N) (input : ApplyInput) :
    Option (ProviderItem × FileVersion) := do
  let item ← db.modifiedItem input
  let current ← (db.rows[item.path]?).filter fun current => current.fileMeta.recordKind == .file
  return (item, current)

/-- Where the user put the bytes: the requested place or the old path. -/
def requestedPath (db : ProviderDb N) (input : ApplyInput) : SyncPath :=
  match input.kind with
  | .create =>
    let parent := (db.parentPath (input.newParent.getD none)).toOption.getD ""
    join parent ((input.name.filter nameIsValid).getD "file")
  | _ => (input.itemId.bind db.item?).elim "file" ProviderItem.path

/-- `keep_refused_bytes`: the second decision of an operation that carries bytes. -/
def keepRefusedBytes (db : ProviderDb N) (input : ApplyInput) :
    Except ApplyError (Stored × ProviderDb N) :=
  match input.content with
  | none => .error (.notFound "no bytes to keep")
  | some content =>
    match db.modifiedFile input with
    | some file => db.keepBeside env draw input file.1.id file.1.path file.2
    | none => do
        let requested := db.requestedPath input
        let version := fileVersion input content input.replicatedMode
          (cleanXattrs env (input.metadata.xattrs.getD []))
        let source :=
          if (db.rows[requested]?).isSome || (db.checkDestination env requested none).isOk then
            requested
          else
            join "" (splitParent requested).2
        let kept ← db.authorCopy env draw source version
        let applied ← kept.2.appliedItem env draw kept.1 none
        return (⟨.concurrent, some applied.1⟩, applied.2)

/-! ## Modify -/

/-- The generations of the view an operation was made against. An absent one is unknown, and
bytes alone are never refused for their view. -/
def checkView (db : ProviderDb N) (input : ApplyInput) : Except ApplyError Unit :=
  match input.kind with
  | .create | .delete => .ok ()
  | .modify =>
    match input.itemId with
    | none => .error (.notFound "no item")
    | some id =>
      match (db.item? id).filter ProviderItem.live with
      | none => .ok ()
      | some item =>
        if input.structuralOnly || input.advisoryMtime then
          .ok ()
        else if input.hasContent && !input.moves then
          .ok ()
        else if input.baseGeneration ≠ some item.generation then
          .error (.staleView "the item is at another generation")
        else if item.announceSeq.any fun announced =>
            input.observedRevision.any (· < announced) then
          .error (.staleView "the operation observed a revision before the announcement")
        else if input.moves && (db.generationAt (splitParent item.path).1).any fun place =>
            decide (input.parentGeneration ≠ some place) then
          .error (.staleView "the folder it leaves is at another generation")
        else
          .ok ()

def modifyPath (db : ProviderDb N) (input : ApplyInput) (source : SyncPath)
    (validateOldName : Bool) : Except ApplyError SyncPath := do
  let parent ← match input.newParent with
    | none => .ok (splitParent source).1
    | some target => db.parentPath target
  let name := input.name.getD (splitParent source).2
  if input.name.isSome || validateOldName then
    validateName name
  return join parent name

def checkRename (db : ProviderDb N) (source target : SyncPath) : Except ApplyError Unit :=
  if target = source then
    .ok ()
  else if (source.toList ++ ['/']).isPrefixOf target.toList then
    .error (.invalidName "a directory cannot move into itself")
  else
    db.checkDestination env target (some source)

/-- Whether an mtime was set on the content that is still current. -/
def sameContent (db : ProviderDb N) (input : ApplyInput) (current : FileVersion) : Bool :=
  input.advisoryMtime &&
    match input.base with
    | .unknown => false
    | .opaqueVersion hash =>
      hash == current.computeHash env.crypto ||
        (db.versions[hash]?).any fun saw => saw.contentSig == current.contentSig

/-- The base of the edit, once an mtime over the same content stands on the current version. -/
def editBase (db : ProviderDb N) (input : ApplyInput) (current : FileVersion) :
    Option VersionHash :=
  if db.sameContent env input current then
    some (current.computeHash env.crypto)
  else
    input.base.hash?

/-- An mtime over content that has changed since is dropped. -/
def effectiveInput (db : ProviderDb N) (input : ApplyInput) (current : FileVersion) :
    ApplyInput :=
  if input.advisoryMtime && !db.sameContent env input current then input.withoutMtime else input

/-- What the trust decision on an edit of the item is made from. -/
def provenance (db : ProviderDb N) (input : ApplyInput) (item : ProviderItem)
    (current : FileVersion) : ProvenanceInput :=
  let hash := current.computeHash env.crypto
  let base := db.editBase env input current
  { base
    current := hash
    baseContentSig := base.bind fun base =>
      if base = hash then some current.contentSig
      else (db.versions[base]?).map FileVersion.contentSig
    itemGeneration := item.generation
    baseGeneration := input.baseGeneration
    announceInFlight := item.announceVersion.isSome
    served := item.served }

/-- The version an edit leaves, over the base that the user edited. -/
def editedVersion (db : ProviderDb N) (input : ApplyInput) (base : VersionHash)
    (current : FileVersion) : Except ApplyError FileVersion :=
  let kind := current.fileMeta.recordKind
  let basis := if base = current.computeHash env.crypto then some current else db.versions[base]?
  match input.content.orElse fun _ =>
      basis.map fun basis => ContentInput.mk basis.blocks basis.size with
  | none => .error (.retry "the base version is unknown")
  | some content =>
    let metaFrom := (basis.getD current).fileMeta
    let mode := input.replicatedMode.or metaFrom.unixMode
    let target := input.symlinkTarget.or metaFrom.symlinkTarget
    let mtime := (input.metadata.mtimeUnixNanos.filter fun mtime => decide (0 ≤ mtime)).getD
      (if input.hasContent then input.nowNs else metaFrom.mtimeUnixNanos)
    let xattrs := (input.metadata.xattrs.map (cleanXattrs env)).getD metaFrom.xattrs
    match kind with
    | .directory => .ok (directoryVersion mode)
    | .symlink => .ok ⟨[], (target.map List.length).getD 0, ⟨mtime, mode, target, kind, xattrs⟩⟩
    | .file => .ok ⟨content.blocks, content.size, ⟨mtime, mode, target, kind, xattrs⟩⟩

/-- The version a modify leaves, where it puts one. -/
def editOf (db : ProviderDb N) (input : ApplyInput) (base : VersionHash) (current : FileVersion) :
    Except ApplyError (Option FileVersion) :=
  if input.puts then do
    let version ← db.editedVersion env input base current
    return some version
  else
    .ok none

/-- The mutations of a rename: each row is deleted and put at its new path. The item's own row
may change its version on the way. -/
def renameMutations (db : ProviderDb N) (input : ApplyInput) (source target : SyncPath)
    (edited : Option (FileVersion × VersionHash)) : List LocalMutation :=
  (db.liveRowsUnder source).flatMap fun row =>
    let hash := row.2.computeHash env.crypto
    let put := if row.1 = source then edited.getD (row.2, hash) else (row.2, hash)
    [.delete row.1 put.2 input.nowNs, .upsert (moved source target row.1) put.1 none]

/-- Authors the edit of a modify, in place or together with its rename. An edit that does not
win its path is refused whole. -/
def authorEdit (db : ProviderDb N) (input : ApplyInput) (id : ItemId) (source target : SyncPath)
    (base : VersionHash) (edited : Option FileVersion) : Except ApplyError (ProviderDb N) :=
  if target = source then
    match edited with
    | none => .ok db
    | some version => do
        let db ← db.commitOneGroup env [.upsert source version (some base)]
        if env.winner db.native source ≠ some (version.computeHash env.crypto) then
          .error (.keepLocal (some source))
        else
          return db.setPublished env id version true
  else do
    let db ← db.commitRecursiveOperation env (.renameTree source target)
      (db.renameMutations env input source target (edited.map fun version => (version, base)))
    match edited with
    | none => return db
    | some version =>
      if env.winner db.native target ≠ some (version.computeHash env.crypto) then
        .error (.keepLocal (some source))
      else
        return db.setPublished env id version true

def modifyRow (db : ProviderDb N) (input : ApplyInput) (item : ProviderItem)
    (current : FileVersion) : Except ApplyError (Stored × ProviderDb N) := do
  let source := item.path
  let hash := current.computeHash env.crypto
  let target ← db.modifyPath input source false
  db.checkRename env source target
  let base := db.editBase env input current
  let effective := db.effectiveInput env input current
  if !effective.puts && !input.advisoryMtime && !effective.structuralOnly && base != some hash then
    .error (.staleView "the version the user saw is not the current version")
  else if effective.puts && !input.advisoryMtime &&
      !editBaseTrusted (db.provenance env input item current) then
    db.keepBeside env draw effective item.id source current
  else do
    let base := base.getD hash
    let edited ← db.editOf env effective base current
    let authored ← db.authorEdit env effective item.id source target base edited
    let applied ← authored.appliedItem env draw item.id
      (edited.map (·.computeHash env.crypto))
    return (⟨if edited.isSome && base != hash then .concurrent else .applied, some applied.1⟩,
      applied.2)

def appliedStructural (db : ProviderDb N) (item : ProviderItem) (path : SyncPath) :
    Except ApplyError (AppliedItem × ProviderDb N) := do
  let parent ← db.mintParent draw path
  return ({
    itemId := item.id
    parentItemId := parent.1
    name := (splitParent path).2
    kind := .directory
    contentVersion := (directoryVersion none).computeHash env.crypto
    size := 0
    mtimeUnixNanos := 0
    unixMode := 0
    current := true
    generation := ((parent.2.item? item.id).map ProviderItem.generation).getD item.generation
    parentGeneration := (parent.2.generationAt (splitParent path).1).getD 0 }, parent.2)

/-- `modify_structural`: a directory without a row of its own is only renamed. -/
def modifyStructural (db : ProviderDb N) (input : ApplyInput) (item : ProviderItem) :
    Except ApplyError (Stored × ProviderDb N) := do
  let source := item.path
  if !input.structuralOnly && !input.advisoryMtime &&
      input.base != .opaqueVersion (structuralVersion.computeHash env.crypto) then
    .error (.staleView "the directory the user saw is not the current directory")
  else if input.maxSubtree < (db.rows.toList.filter fun row => below source row.1).length then
    .error (.directoryNotEmpty "the directory holds too many entries; move it in parts")
  else if (db.liveRowsUnder source).isEmpty then
    .error (.keepLocal (some source))
  else do
    let target ← db.modifyPath input source true
    if target = source then
      let applied ← db.appliedStructural env draw item source
      return (⟨.applied, some applied.1⟩, applied.2)
    else
      db.checkRename env source target
      let renamed ← db.commitRecursiveOperation env (.renameTree source target)
        (db.renameMutations env input source target none)
      let applied ← renamed.appliedStructural env draw item target
      return (⟨.applied, some applied.1⟩, applied.2)

def modify (db : ProviderDb N) (input : ApplyInput) : Except ApplyError (Stored × ProviderDb N) :=
  match input.itemId with
  | none => .error (.notFound "no item")
  | some id =>
    match db.item? id with
    | none => .error (.keepLocal none)
    | some item =>
      if item.live then
        match db.rows[item.path]? with
        | none => db.modifyStructural env draw input item
        | some current => db.modifyRow env draw input item current
      else
        .error (.keepLocal (some item.path))

/-! ## Delete -/

/-- A delete destroys only what the user could have seen. -/
def deleteIsUnambiguous (item : ProviderItem) (current : FileVersion) : Bool :=
  item.announceVersion.isNone &&
    match item.served with
    | .never => true
    | .single sig => sig == current.contentSig
    | .mixed => false

/-- A delete of a file, or of a symlink. A file that may have changed survives, and its item is
retired. -/
def deleteFile (db : ProviderDb N) (input : ApplyInput) (item : ProviderItem)
    (current : FileVersion) : Except ApplyError (Stored × ProviderDb N) :=
  let hash := current.computeHash env.crypto
  if input.baseGeneration = some item.generation ∧ input.base.hash? = some hash ∧
      deleteIsUnambiguous item current then do
    let db ← db.commitOneGroup env [.delete item.path hash input.nowNs]
    return (⟨.deleted, none⟩, db)
  else
    .ok (⟨.fileSurvived, none⟩,
      db.updateItem item.id ({ · with live := false, publishedVersion := none }))

/-- A recursive delete of the directory the user saw. -/
def deleteDirectory (db : ProviderDb N) (input : ApplyInput) (item : ProviderItem) :
    Except ApplyError (Stored × ProviderDb N) :=
  let path := item.path
  let rows := db.liveRowsUnder path
  let shown := ((db.rows[path]?).getD structuralVersion).computeHash env.crypto
  if input.base.hash? ≠ some shown ∨ input.baseGeneration ≠ some item.generation then
    .error (.staleView "the directory the user saw is not the current directory")
  else if input.maxSubtree < rows.length then
    .error (.directoryNotEmpty "the directory holds too many entries; delete it in parts")
  else if (rows.any fun row => row.1 != path) && !input.recursive then
    .error (.directoryNotEmpty "the directory is not empty")
  else if rows.isEmpty then
    .ok (⟨.deleted, none⟩, db)
  else do
    let db ← db.commitRecursiveOperation env (.rmTree path) (rows.reverse.map fun row =>
      .delete row.1 (row.2.computeHash env.crypto) input.nowNs)
    return (⟨.deleted, none⟩, db)

def delete (db : ProviderDb N) (input : ApplyInput) : Except ApplyError (Stored × ProviderDb N) :=
  match input.itemId with
  | none => .error (.notFound "no item")
  | some id =>
    match (db.item? id).filter ProviderItem.live with
    | none => .ok (⟨.deleted, none⟩, db)
    | some item =>
      if db.isDirectory item.path then
        db.deleteDirectory env input item
      else
        match db.rows[item.path]? with
        | none => .ok (⟨.deleted, none⟩, db)
        | some current => db.deleteFile env input item current

/-! ## A transaction -/

def decideChange (db : ProviderDb N) (input : ApplyInput) (keepRefused : Bool) :
    Except ApplyError (Stored × ProviderDb N) :=
  if keepRefused then
    db.keepRefusedBytes env draw input
  else do
    db.checkView input
    match input.kind with
    | .create => db.create env draw input
    | .modify => db.modify env draw input
    | .delete => db.delete env input

/-- What one transaction of `apply_change` decides, up to the reconciliation of its commit. -/
def changeInTx (db : ProviderDb N) (input : ApplyInput) (keepRefused : Bool) :
    Except ApplyError (Stored × ProviderDb N) := do
  let result ← db.decideChange env draw input keepRefused
  return (result.1, result.2.reconcile)

/-- The write path as the operation tables call it. -/
def decision : OperationTables.Decision ApplyInput Stored (ProviderDb N) where
  reconcile := reconcile
  change := fun db op keepRefused => db.changeInTx env draw op.change keepRefused

end ProviderDb

end Yadorilink.Provider
