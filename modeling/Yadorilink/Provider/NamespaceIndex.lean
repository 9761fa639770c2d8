import Yadorilink.Reconcile.Contests

/-! The namespace of a provider root, kept beside the file rows of its group: the items the OS may
know, the directories above the rows, and the log of changes. Triggers record the paths of the rows
a transaction writes; before it commits, what these paths and their ancestors show is judged anew. -/

namespace Yadorilink.ProviderIndex

open Std

/-! ## Paths, as the queries compute them -/

/-- `rtrim(text, set)`: takes the characters of the set off the end. -/
def rtrim (text set : List Char) : List Char := text.rdropWhile fun char => decide (char ∈ set)

def parentPath (path : SyncPath) : SyncPath :=
  String.ofList (rtrim (rtrim path.toList (path.toList.filter fun char => char ≠ '/')) ['/'])

/-- The name behind the parent's path and its separator. -/
def nameOf (path : SyncPath) : String :=
  String.ofList (path.toList.drop ((parentPath path).toList.length +
    if parentPath path = "" then 0 else 1))

/-- The range of an index that lies below the path. -/
def inRangeBelow (path key : SyncPath) : Bool :=
  decide (path ++ "/" < key ∧ key < path ++ "0")

/-- The recursive query for the ancestors of a path, the path included. Each parent is shorter. -/
def ancestorsFrom : Nat → SyncPath → List SyncPath
  | 0, path => [path]
  | turns + 1, path =>
    path :: if '/' ∈ path.toList then ancestorsFrom turns (parentPath path) else []

/-! ## Tables -/

inductive RowState where
  | current
  | superseded
  | trashed
deriving DecidableEq

/-- A row of `files`. The signature stands for the columns of its content. -/
structure FileRow where
  path : SyncPath
  state : RowState
  deleted : Bool
  versionSeq : Int
  contentSig : String
deriving DecidableEq

def FileRow.live (row : FileRow) : Bool := row.state = .current && !row.deleted

/-- A scaffold row, with sequence zero, is never part of a namespace. -/
def FileRow.shown (row : FileRow) : Bool := row.live && decide (0 < row.versionSeq)

abbrev ItemId := List UInt8

structure ProviderItem where
  itemId : ItemId
  path : SyncPath
  parentPath : SyncPath
  name : String
  live : Bool
  publishedVersionHash : Option (List UInt8)
  generation : Nat
  childBumps : Nat
deriving DecidableEq

inductive ChangeKind where
  | upsert
  | move
  | delete
deriving DecidableEq

structure ChangeEvent where
  seq : Nat
  kind : ChangeKind
  itemId : ItemId
  parentItemId : ItemId
  oldParentItemId : Option ItemId
deriving DecidableEq

/-- The tables of one group and its root. The empty id is the root container. -/
structure Index where
  files : List FileRow
  items : List ProviderItem
  dirs : ExtTreeMap SyncPath SyncPath
  dirtyPaths : ExtTreeSet SyncPath
  events : List ChangeEvent
  namespaceRevision : Nat
  changeSeq : Nat
  enumeratedParents : List ItemId
  downloadFailures : List ItemId
  handoffs : List (ItemId × String)

/-- A root as it is declared over the rows of its group. -/
def declared (files : List FileRow) : Index := ⟨files, [], ∅, ∅, [], 0, 0, [], [], []⟩

def liveAt (files : List FileRow) (path : SyncPath) : Bool :=
  files.any fun row => row.live && row.path = path

def liveBelow (files : List FileRow) (path : SyncPath) : Bool :=
  files.any fun row => row.live && inRangeBelow path row.path

def shownAt (files : List FileRow) (path : SyncPath) : Bool :=
  files.any fun row => row.shown && row.path = path

def shownBelow (files : List FileRow) (path : SyncPath) : Bool :=
  files.any fun row => row.shown && inRangeBelow path row.path

/-! ## What a transaction writes -/

inductive TxStep where
  | insert (row : FileRow)
  /-- A statement that sets `path`, `state` or `deleted`, among others. -/
  | update (place : Nat) (row : FileRow)
  /-- A statement that sets none of these three, but maybe `version_seq`. -/
  | amend (place : Nat) (contentSig : String) (versionSeq : Option Int)
  | delete (place : Nat)
  /-- The OS opens a folder. -/
  | enumerate (parent : ItemId)
  | publish (item : ItemId) (version : Option (List UInt8))

namespace Index

def write (index : Index) : TxStep → Index
  | .insert row =>
    { index with files := index.files ++ [row], dirtyPaths := index.dirtyPaths.insert row.path }
  | .update place row =>
    match index.files[place]? with
    | none => index
    | some old =>
      { index with
        files := index.files.set place row
        dirtyPaths := (index.dirtyPaths.insert row.path).insert old.path }
  | .amend place contentSig versionSeq =>
    match index.files[place]? with
    | none => index
    | some old =>
      let row := { old with contentSig, versionSeq := versionSeq.getD old.versionSeq }
      { index with files := index.files.set place row }
  | .delete place =>
    match index.files[place]? with
    | none => index
    | some old =>
      { index with
        files := index.files.eraseIdx place
        dirtyPaths := index.dirtyPaths.insert old.path }
  | .enumerate parent =>
    { index with enumeratedParents := parent :: index.enumeratedParents }
  | .publish item version =>
    { index with items := index.items.map fun known =>
        if known.itemId = item then { known with publishedVersionHash := version } else known }

/-! ## The reconcile -/

/-- `provider_anc`: the recorded paths and their ancestors. -/
def ancestors (index : Index) : ExtTreeSet SyncPath :=
  (∅ : ExtTreeSet SyncPath).insertMany
    (index.dirtyPaths.toList.flatMap fun path => ancestorsFrom path.toList.length path)

/-- `provider_retiring`: the live items with no row left at or below them. -/
def retires (index : Index) (item : ProviderItem) : Bool :=
  item.live && index.ancestors.contains item.path && !liveAt index.files item.path &&
    !liveBelow index.files item.path

def retire (index : Index) : Index :=
  { index with items := index.items.map fun item =>
      if index.retires item then { item with live := false, publishedVersionHash := none }
      else item }

def hasLiveItem (index : Index) (path : SyncPath) : Bool :=
  index.items.any fun item => item.live && item.path = path

/-- The failures of retired items go, and a change is counted. -/
def settleRetired (index : Index) (retired : Nat) : Index :=
  let created := index.dirtyPaths.toList.any fun path =>
    liveAt index.files path && !index.hasLiveItem path
  { index with
    downloadFailures := if retired = 0 then index.downloadFailures
      else index.downloadFailures.filter fun failed =>
        !index.items.any fun item => item.itemId = failed && !item.live
    changeSeq := if retired = 0 ∧ created = false then index.changeSeq else index.changeSeq + 1 }

/-- The directories that have their first row below them. -/
def newDirs (index : Index) : List SyncPath :=
  index.ancestors.toList.filter fun path =>
    path ≠ "" && !index.dirs.contains path && shownBelow index.files path

/-- The paths looked at that have nothing below them. -/
def vanished (index : Index) : List SyncPath :=
  index.ancestors.toList.filter fun path => !shownBelow index.files path

def withNewDirs (index : Index) : ExtTreeMap SyncPath SyncPath :=
  index.newDirs.foldl (fun dirs path => dirs.insert path (parentPath path)) index.dirs

def updateDirs (index : Index) : Index :=
  { index with dirs := index.vanished.foldl (fun dirs path => dirs.erase path) index.withNewDirs }

def childChanges (index : Index) : List SyncPath :=
  ((index.dirtyPaths.toList.filter fun path =>
      (shownAt index.files path && !index.hasLiveItem path) ||
        !(shownAt index.files path || shownBelow index.files path)).map parentPath) ++
    index.newDirs.map parentPath ++
    (index.withNewDirs.toList.filter fun entry => index.vanished.contains entry.1).map Prod.snd

def parentEnumerated (index : Index) (parent : SyncPath) : Bool :=
  if parent = "" then index.enumeratedParents.contains []
  else index.items.any fun item =>
    item.live && item.path = parent && index.enumeratedParents.contains item.itemId

/-- The id of the live item at the parent's path; the root container has the empty one. -/
def parentItemId (index : Index) (parent : SyncPath) : ItemId :=
  if parent = "" then []
  else ((index.items.find? fun item => item.live && item.path = parent).map (·.itemId)).getD []

/-- Appends an event under the number that follows the last one used. -/
def logEvent (kind : ChangeKind) (logged : Index × Nat) (told : ItemId × SyncPath) : Index × Nat :=
  ({ logged.1 with events := logged.1.events ++
      [⟨logged.2 + 1, kind, told.1, logged.1.parentItemId told.2, none⟩] }, logged.2 + 1)

/-- The paths that may need an item: recorded ones that are shown, and new directories. -/
def newPaths (index : Index) (newDirs : List SyncPath) : List SyncPath :=
  ((∅ : ExtTreeSet SyncPath).insertMany
    ((index.dirtyPaths.toList.filter fun path => shownAt index.files path) ++ newDirs)).toList

def mintable (index : Index) (newDirs : List SyncPath) : List SyncPath :=
  (index.newPaths newDirs).filter fun path =>
    !index.hasLiveItem path && index.parentEnumerated (parentPath path)

def mintItem (path : SyncPath) (itemId : ItemId) : ProviderItem :=
  ⟨itemId, path, parentPath path, nameOf path, true, none, 1, 0⟩

/-- Items for the paths, with random ids; an id that is taken fails the statement. -/
def mint (index : Index) (newDirs : List SyncPath) (randomblob : Nat → ItemId) :
    Option (List ProviderItem) :=
  let minted := (index.mintable newDirs).zipIdx.map fun place =>
    mintItem place.1 (randomblob place.2)
  if ((index.items ++ minted).map (·.itemId)).Nodup then some minted else none

def bumpAt (index : Index) (childSet : Bool) (folder : SyncPath) : Index :=
  { index with items := index.items.map fun known =>
      if known.live && known.path = folder then
        { known with
          generation := known.generation + 1
          childBumps := known.childBumps + if childSet then 1 else 0 }
      else known }

/-- `bump_item`: a folder whose children changed gets a new generation, which the OS is told of
when the folder is published. -/
def bumpItem (childSet : Bool) (logged : Index × Nat) (folder : SyncPath) : Index × Nat :=
  if folder = "" then logged
  else
    match logged.1.items.find? fun item => item.live && item.path = folder with
    | none => logged
    | some item =>
      if item.publishedVersionHash.isSome then
        logEvent .upsert (logged.1.bumpAt childSet folder, logged.2)
          (item.itemId, item.parentPath)
      else (logged.1.bumpAt childSet folder, logged.2)

/-- The trigger on the revision: it advances only over numbers that have an event. -/
def storeRevision (index : Index) (next : Nat) : Option Index :=
  if index.namespaceRevision < next ∧
      (index.events.filter fun event =>
        index.namespaceRevision < event.seq && event.seq ≤ next).length ≠
          next - index.namespaceRevision then none
  else some { index with namespaceRevision := next }

/-- The events of the retired items the OS knew, in the order of their ids. -/
def retiredTold (index : Index) (retiring : List ProviderItem) : List (ItemId × SyncPath) :=
  let known := retiring.filter fun item =>
    item.publishedVersionHash.isSome || index.parentEnumerated item.parentPath
  (known.map fun item => (item.itemId, item.parentPath)).insertionSort fun left right =>
    left.1 ≤ right.1

def reconcileNamespace (index : Index) (retiring : List ProviderItem)
    (randomblob : Nat → ItemId) : Option Index := do
  let newDirs := index.newDirs
  let folders := index.childChanges.dedup
  let shown := index.updateDirs
  let minted ← shown.mint newDirs randomblob
  let withItems := { shown with items := shown.items ++ minted }
  let created := (minted.map fun item => (item.itemId, item.parentPath)).foldl (logEvent .upsert)
    (withItems, index.namespaceRevision)
  let removed := (created.1.retiredTold retiring).foldl (logEvent .delete) created
  let bumped := folders.foldl (bumpItem true) removed
  bumped.1.storeRevision bumped.2

/-- A handoff of a changed path is dropped unless the live row has the content handed over. -/
def demote (index : Index) : Index :=
  { index with handoffs := index.handoffs.filter fun handoff =>
      !(index.items.any fun item =>
          item.itemId = handoff.1 && index.dirtyPaths.contains item.path) ||
        index.items.any fun item => item.itemId = handoff.1 &&
          index.files.any fun row =>
            row.path = item.path && row.live && row.contentSig = handoff.2 }

def reconcileLiveness (index : Index) (randomblob : Nat → ItemId) : Option Index :=
  if index.dirtyPaths.isEmpty then some index
  else do
    let retiring := index.items.filter index.retires
    let settled := index.retire.settleRetired retiring.length
    let reconciled ← settled.reconcileNamespace retiring randomblob
    pure { reconciled.demote with dirtyPaths := ∅ }

/-- A transaction writes, reconciles and commits, or rolls back. -/
def transact (index : Index) (steps : List TxStep) (randomblob : Nat → ItemId) : Index :=
  ((steps.foldl write index).reconcileLiveness randomblob).getD index

end Index

/-- A transaction: its statements, and the ids it draws. -/
structure Transaction where
  steps : List TxStep
  randomblob : Nat → ItemId

def runAll (index : Index) (transactions : List Transaction) : Index :=
  transactions.foldl (fun index transaction =>
    index.transact transaction.steps transaction.randomblob) index

end Yadorilink.ProviderIndex
