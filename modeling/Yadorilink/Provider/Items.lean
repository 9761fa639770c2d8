import Yadorilink.Provider.Contents
import Yadorilink.Provider.Operations

/-! The items of a provider root: the identities under which the OS knows the paths of a group.
An item follows its path, is retired with it, and keeps a summary of the contents that may have
been handed to the OS under its id. -/

namespace Yadorilink.Provider

open Std

/-! ## Paths -/

/-- `other` lies below `path`, as the range of the path index has it. -/
def below (path other : SyncPath) : Bool :=
  (path.toList ++ ['/']).isPrefixOf other.toList && other != path ++ "/"

def atOrBelow (path other : SyncPath) : Bool :=
  other == path || below path other

def splitParent (path : SyncPath) : SyncPath × String :=
  match rsplitOnce '/' path.toList with
  | some (parent, name) => (String.ofList parent, String.ofList name)
  | none => ("", path)

def join (parent : SyncPath) (name : String) : SyncPath :=
  if parent = "" then name else parent ++ "/" ++ name

/-- The path that takes the place of `path` when `source` becomes `target`. -/
def moved (source target path : SyncPath) : SyncPath :=
  target ++ String.ofList (path.toList.drop source.toList.length)

/-- The folders above a path, the nearest first. Each turn takes a separator out. -/
def foldersAbove : (turns : Nat) → SyncPath → List SyncPath
  | 0, _ => []
  | turns + 1, path =>
    match rsplitOnce '/' path.toList with
    | some (parent, _) => String.ofList parent :: foldersAbove turns (String.ofList parent)
    | none => []

/-! ## Items -/

abbrev ItemId := BitVec 128

inductive Served where
  /-- Nothing was ever served, which is never positive evidence. -/
  | never
  | single (sig : List Char)
  | mixed
deriving DecidableEq

structure ProviderItem where
  id : ItemId
  path : SyncPath
  live : Bool := true
  publishedVersion : Option VersionHash := none
  announceVersion : Option VersionHash := none
  announceSeq : Option Nat := none
  pendingSince : Option Int := none
  generation : Nat := 1
  /-- The advances of the generation that were only a change of the child set. -/
  childBumps : Nat := 0
  servedContentSig : Option (List Char) := none
  servedMixed : Bool := false
deriving DecidableEq

namespace ProviderItem

def served (item : ProviderItem) : Served :=
  if item.servedMixed then
    .mixed
  else
    match item.servedContentSig with
    | some sig => .single sig
    | none => .never

/-- `serve_in_tx`: the monotone transition of the summary. -/
def serve (item : ProviderItem) (sig : List Char) : ProviderItem :=
  { item with
    servedMixed := item.servedMixed ||
      match item.servedContentSig with
      | none => false
      | some known => known != sig
    servedContentSig :=
      if item.servedMixed then
        item.servedContentSig
      else
        match item.servedContentSig with
        | none => some sig
        | some known => some known }

/-- `authored_in_tx`: an epoch starts, but never on a mixed item. -/
def authored (item : ProviderItem) (sig : List Char) : ProviderItem :=
  if item.servedMixed then item else { item with servedContentSig := some sig }

/-- The place of a folder: its generation without the changes of its child set. -/
def placeGeneration (item : ProviderItem) : Nat :=
  item.generation - item.childBumps

end ProviderItem

/-! ## The database of a root -/

/-- What the write path reads and writes: the live current rows of the group by path, the
version store, the items of the root, and the native layer below the rows. -/
structure ProviderDb (N : Type) where
  rows : ExtTreeMap SyncPath FileVersion
  versions : ExtTreeMap VersionHash FileVersion
  items : List ProviderItem
  native : N

namespace ProviderDb

variable {N : Type}

def item? (db : ProviderDb N) (id : ItemId) : Option ProviderItem :=
  db.items.find? fun item => decide (item.id = id)

def liveItemAt (db : ProviderDb N) (path : SyncPath) : Option ProviderItem :=
  db.items.find? fun item => item.live && decide (item.path = path)

def updateItem (db : ProviderDb N) (id : ItemId) (change : ProviderItem → ProviderItem) :
    ProviderDb N :=
  { db with items := db.items.map fun item => if item.id = id then change item else item }

/-- A path is live through its own row or through one below it. -/
def pathLive (db : ProviderDb N) (path : SyncPath) : Bool :=
  db.rows.toList.any fun row => atOrBelow path row.1

/-- `reconcile_provider_liveness`: an item goes with its path. -/
def reconcile (db : ProviderDb N) : ProviderDb N :=
  { db with items := db.items.map fun item =>
      if item.live && !db.pathLive item.path then
        { item with live := false, publishedVersion := none }
      else
        item }

/-- The place generation of the folder at a path, which the root container has none of. -/
def generationAt (db : ProviderDb N) (path : SyncPath) : Option Nat :=
  if path = "" then none else (db.liveItemAt path).map ProviderItem.placeGeneration

def noteChildSetChange (db : ProviderDb N) (folder : SyncPath) : ProviderDb N :=
  if folder = "" then
    db
  else
    { db with items := db.items.map fun item =>
        if item.live && decide (item.path = folder) then
          { item with generation := item.generation + 1, childBumps := item.childBumps + 1 }
        else
          item }

/-- `mint_item_in_tx`: the live item of a path, or a new one under a random id. -/
def mintItem (draw : List ProviderItem → ItemId) (db : ProviderDb N) (path : SyncPath) :
    Except ApplyError (ItemId × ProviderDb N) :=
  match db.liveItemAt path with
  | some item => .ok (item.id, db)
  | none =>
    let id := draw db.items
    if db.items.any fun item => decide (item.id = id) then
      .error (.db "UNIQUE constraint failed")
    else
      .ok (id, { db with items := db.items ++ [{ id, path }] })

/-- `rename_tree_in_tx`: the items of a subtree keep their ids. Only the top changes its name,
its parent and its generation; both its folders change their child sets. -/
def renameTree (db : ProviderDb N) (source target : SyncPath) :
    Except ApplyError (ProviderDb N) :=
  let moves := fun item : ProviderItem => item.live && atOrBelow source item.path
  if !db.items.any moves then
    .ok db
  else if db.items.any fun item => item.live && atOrBelow target item.path then
    .error (.db "the destination holds live provider items; a rename never replaces them")
  else
    let hasTop := (db.liveItemAt source).isSome
    let renamed : ProviderDb N := { db with
      items := db.items.map fun item =>
        if moves item then
          { item with
            path := moved source target item.path
            generation := item.generation + if item.path = source then 1 else 0 }
        else
          item }
    if hasTop then
      .ok ((renamed.noteChildSetChange (splitParent target).1).noteChildSetChange
        (splitParent source).1)
    else
      .ok renamed

/-! ## What the OS is told and handed -/

/-- The content that the bytes of a version have, while it is what the item shows. -/
def contentToServe (crypto : Crypto) (db : ProviderDb N) (id : ItemId) (version : VersionHash) :
    Option (List Char) := do
  let item ← (db.item? id).filter ProviderItem.live
  let current ← (db.rows[item.path]?).filter fun current =>
    decide (current.computeHash crypto = version)
  return current.contentSig

/-- `record_may_serve`, before any bytes of the version reach the OS. -/
def recordMayServe (crypto : Crypto) (db : ProviderDb N) (id : ItemId) (version : VersionHash) :
    ProviderDb N :=
  match db.reconcile.contentToServe crypto id version with
  | none => db.reconcile
  | some sig =>
    db.reconcile.updateItem id fun item =>
      let served := item.serve sig
      if served.announceVersion = some version then
        { served with
          publishedVersion := some version
          announceVersion := none
          announceSeq := none
          pendingSince := none }
      else
        served

/-- `announce_version`, with the sequence of the event it appends. -/
def announceVersion (crypto : Crypto) (db : ProviderDb N) (id : ItemId) (version : VersionHash)
    (seq : Nat) (nowMs : Int) : ProviderDb N :=
  let db := db.reconcile
  match (db.item? id).filter ProviderItem.live with
  | none => db
  | some item =>
    if (db.rows[item.path]?).map (·.computeHash crypto) ≠ some version then
      db
    else if item.publishedVersion = some version then
      db
    else if item.announceVersion = some version ∧ item.announceSeq.isSome then
      db
    else
      db.updateItem id fun item =>
        { item with
          announceVersion := some version
          announceSeq := some seq
          generation := item.generation + 1
          pendingSince := item.pendingSince.or (some nowMs) }

/-- `release_expired`: the announced version is published by our own timer. -/
def releaseExpired (db : ProviderDb N) (id : ItemId) (nowMs releaseAfterMs : Int) :
    ProviderDb N :=
  db.updateItem id fun item =>
    if item.live && item.announceVersion.isSome &&
        item.pendingSince.any fun since => decide (since + releaseAfterMs ≤ nowMs) then
      { item with
        publishedVersion := item.announceVersion
        announceVersion := none
        announceSeq := none
        pendingSince := none }
    else
      item

/-- `publish_first`: an item is published when it is first listed. -/
def publishFirst (crypto : Crypto) (db : ProviderDb N) (id : ItemId) (version : VersionHash) :
    ProviderDb N :=
  let db := db.reconcile
  match (db.item? id).filter ProviderItem.live with
  | none => db
  | some item =>
    if item.publishedVersion.isNone ∧
        (db.rows[item.path]?).map (·.computeHash crypto) = some version then
      db.updateItem id ({ · with publishedVersion := some version })
    else
      db

def retireItem (db : ProviderDb N) (id : ItemId) : ProviderDb N :=
  db.updateItem id fun item =>
    if item.live then { item with live := false, publishedVersion := none } else item

end ProviderDb

end Yadorilink.Provider
