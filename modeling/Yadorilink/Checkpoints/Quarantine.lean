import Yadorilink.Domain.Ids
import Yadorilink.Foundation.Machine

/-! The quarantine of a rebootstrap: the originals of changes this device may no longer author leave
the root, each after its copy is in the recovery area. A call can end at any point and is resumed
from the table; the user goes on editing meanwhile. -/

namespace Yadorilink.Quarantine

open Std Machine

abbrev Bytes := List UInt8

abbrev Digest := BitVec 256

/-! ## The manifest -/

/-- One operation of an own delta that the target does not cover. -/
structure ManifestItem where
  path : SyncPath
  putVersion : Option VersionHash
  unit : Nat

structure ManifestVersion where
  version : VersionHash
  hasBytes : Bool
  sha256 : Digest
  symlinkTarget : Option Bytes

structure Manifest where
  items : List ManifestItem
  versions : List ManifestVersion

/-- The paths the changes touch, each marked if any change to it may be authored again. -/
def protectedPaths (manifest : Manifest) (replayable : Nat → Bool) : ExtTreeMap SyncPath Bool :=
  manifest.items.foldl
    (fun paths item =>
      paths.insert item.path (paths.getD item.path false || replayable item.unit)) ∅

/-- The versions the preserved changes put at a path. -/
def quarantinedVersions (manifest : Manifest) (path : SyncPath) : ExtTreeSet VersionHash :=
  ExtTreeSet.ofList
    ((manifest.items.filter fun item => item.path == path).filterMap ManifestItem.putVersion)

def versionsAt (manifest : Manifest) (path : SyncPath) : List ManifestVersion :=
  (quarantinedVersions manifest path).toList.filterMap fun version =>
    manifest.versions.find? fun named => named.version == version

/-! ## The root, the area and the table -/

inductive Content where
  | file (bytes : Bytes)
  | symlink (target : Bytes)
  deriving DecidableEq

def Content.bytes : Content → Bytes
  | .file bytes => bytes
  | .symlink target => target

/-- What stands at a path of the root. -/
inductive Standing where
  | absent
  | content (content : Content)
  | directory
  | other
  deriving DecidableEq

inductive Observed where
  | absent
  | file (size : Nat) (sha256 : Digest)
  | symlink (target : Bytes)
  | directory
  | other
  deriving DecidableEq

structure RecoveryArea where
  versions : VersionHash → Option Bytes
  late : Digest → Option Bytes

/-- The `status` column of `native_rebootstrap_quarantine`. -/
inductive RowStatus where
  | pending
  | removing
  | removed
  | removedLateEdit
  | alreadyAbsent
  | leftInPlace
  deriving DecidableEq

structure Row where
  status : RowStatus
  lateSha256 : Option Digest
  deriving DecidableEq

abbrev Table := ExtTreeMap SyncPath Row

/-- What became of an original. -/
inductive QuarantineStatus where
  | pending
  | removed
  | removedLateEdit (sha256 : Digest)
  | alreadyAbsent
  | leftInPlace
  deriving DecidableEq

def statusRow : QuarantineStatus → Row
  | .pending => ⟨.pending, none⟩
  | .removed => ⟨.removed, none⟩
  | .removedLateEdit sha256 => ⟨.removedLateEdit, some sha256⟩
  | .alreadyAbsent => ⟨.alreadyAbsent, none⟩
  | .leftInPlace => ⟨.leftInPlace, none⟩

def updateRow (table : Table) (path : SyncPath) (row : Row) : Table :=
  if path ∈ table then table.insert path row else table

/-- The rows of the paths none of whose changes may be authored again. -/
def beginQuarantine (manifest : Manifest) (replayable : Nat → Bool) : Table :=
  (protectedPaths manifest replayable).toList.foldl (fun table entry =>
    if !entry.2 && manifest.items.any (fun item =>
        item.path == entry.1 && !replayable item.unit && item.putVersion.isSome) then
      table.insertIfNew entry.1 ⟨.pending, none⟩
    else
      table) ∅

/-- The rows that are not finished, with the digests they reference. -/
def pendingRows (table : Table) : List (SyncPath × Option Digest) :=
  table.toList.filterMap fun entry =>
    if entry.2.status = .pending ∨ entry.2.status = .removing then
      some (entry.1, entry.2.lateSha256)
    else
      none

/-! ## One call -/

/-- Where a call is with the path it works on. -/
inductive Phase where
  /-- Every copy the original could be is read back. -/
  | check
  | look
  /-- The removal happened and its record did not: the copy is read back. -/
  | keepPresent (digest : Digest)
  | readFile (observed : Observed) (digest : Digest)
  /-- The bytes are written to the area, and read back. -/
  | keep (observed : Observed) (digest : Digest) (bytes : Bytes)
  | reference (observed : Observed) (digest : Digest)
  | remove (observed : Observed) (status : QuarantineStatus)
  | record (status : QuarantineStatus)
  deriving DecidableEq

structure Call where
  path : SyncPath
  /-- The digest the path's row had when the call began. -/
  recorded : Option Digest
  rest : List (SyncPath × Option Digest)
  phase : Phase

/-- `removed` is for the record: what the quarantine took from the root. -/
structure State where
  root : SyncPath → Standing
  area : RecoveryArea
  table : Table
  call : Option Call
  removed : List (SyncPath × Content)

inductive Event where
  /-- The user puts something at a path, or takes it away. -/
  | edit (path : SyncPath) (standing : Standing)
  /-- The quarantine is called, for the first time or to resume. -/
  | call
  /-- The call takes its next step. -/
  | advance
  /-- The call ends where it is: a crash, or a step that fails. -/
  | crash

/-- A call that goes on with the next of these rows. -/
def nextCall : List (SyncPath × Option Digest) → Option Call
  | [] => none
  | (path, recorded) :: rest => some ⟨path, recorded, rest, .check⟩

section Machine

variable (sha256 : Bytes → Digest) (manifest : Manifest)

def observe : Standing → Observed
  | .absent => .absent
  | .content (.file bytes) => .file bytes.length (sha256 bytes)
  | .content (.symlink target) => .symlink target
  | .directory => .directory
  | .other => .other

/-- Every copy with bytes is in the area and hashes to what the manifest says. -/
def copiesVerify (area : RecoveryArea) (path : SyncPath) : Bool :=
  ((versionsAt manifest path).filter ManifestVersion.hasBytes).all fun version =>
    (area.versions version.version).any fun bytes => sha256 bytes == version.sha256

/-- What is to be done about what stands at the path. -/
def decidePhase (path : SyncPath) (recorded : Option Digest) (observed : Observed) : Phase :=
  match observed with
  | .absent =>
    match recorded with
    | some digest => .keepPresent digest
    | none => .record .alreadyAbsent
  | .directory => .record .leftInPlace
  | .other => .record .leftInPlace
  | .file size digest =>
    if recorded.isNone && (versionsAt manifest path).any (fun version =>
        version.hasBytes && version.sha256 == digest) then
      .remove (.file size digest) .removed
    else
      -- An edit nobody has captured goes into the area, and is referenced, before it leaves.
      .readFile (.file size digest) digest
  | .symlink target =>
    if recorded.isNone && (versionsAt manifest path).any (fun version =>
        version.symlinkTarget == some target) then
      .remove (.symlink target) .removed
    else
      .keep (.symlink target) (sha256 target) target

namespace State

def inPhase (state : State) (call : Call) (phase : Phase) : State :=
  { state with call := some { call with phase } }

def stopped (state : State) : State :=
  { state with call := none }

/-- The object at the path is removed if it is still what was observed. -/
def remove (state : State) (call : Call) (observed : Observed) (status : QuarantineStatus) :
    State :=
  match state.root call.path with
  | .absent => state.inPhase call (.record status)
  | .content content =>
    if observe sha256 (.content content) = observed then
      { state.inPhase call (.record status) with
        root := Function.update state.root call.path .absent
        removed := (call.path, content) :: state.removed }
    else
      state.stopped
  | .directory => state.stopped
  | .other => state.stopped

def readFile (state : State) (call : Call) (observed : Observed) (digest : Digest) : State :=
  match state.root call.path with
  | .content (.file bytes) =>
    if sha256 bytes = digest then
      state.inPhase call (.keep observed digest bytes)
    else
      state.stopped
  | _ => state.stopped

def advance (state : State) (call : Call) : State :=
  match call.phase with
  | .check =>
    if copiesVerify sha256 manifest state.area call.path then
      state.inPhase call .look
    else
      state.stopped
  | .look => state.inPhase call
      (decidePhase sha256 manifest call.path call.recorded (observe sha256 (state.root call.path)))
  | .keepPresent digest =>
    if (state.area.late digest).any fun bytes => sha256 bytes == digest then
      state.inPhase call (.record (.removedLateEdit digest))
    else
      state.stopped
  | .readFile observed digest => state.readFile sha256 call observed digest
  | .keep observed digest bytes =>
    { state.inPhase call (.reference observed digest) with
      area := { state.area with late := Function.update state.area.late digest (some bytes) } }
  | .reference observed digest =>
    { state.inPhase call (.remove observed (.removedLateEdit digest)) with
      table := updateRow state.table call.path ⟨.removing, some digest⟩ }
  | .remove observed status => state.remove sha256 call observed status
  | .record status =>
    { state with
      table := updateRow state.table call.path (statusRow status)
      call := nextCall call.rest }

def step (state : State) : Event → Option State
  | .edit path standing => some { state with root := Function.update state.root path standing }
  | .call =>
    if state.call.isNone then
      some { state with call := nextCall (pendingRows state.table) }
    else
      none
  | .advance => state.call.map (state.advance sha256 manifest)
  | .crash => some state.stopped

def start (replayable : Nat → Bool) (root : SyncPath → Standing) (area : RecoveryArea) : State :=
  ⟨root, area, beginQuarantine manifest replayable, none, []⟩

end State

/-! ## What is kept -/

/-- A copy the manifest names for the path and the area holds. The copy of a symlink is its target
in the manifest. -/
def isVersionCopy (area : RecoveryArea) (path : SyncPath) (content : Content) : Bool :=
  (versionsAt manifest path).any fun version =>
    match content with
    | .file bytes => version.hasBytes && area.versions version.version == some bytes
    | .symlink target => version.symlinkTarget == some target

def lateOf (table : Table) (path : SyncPath) : Option Digest :=
  table[path]?.bind Row.lateSha256

/-- A late edit in the area whose digest the path's row records. -/
def IsLateCopy (state : State) (path : SyncPath) (content : Content) : Prop :=
  lateOf state.table path = some (sha256 content.bytes) ∧
    state.area.late (sha256 content.bytes) = some content.bytes

/-- Everything the quarantine removed is a version copy or a recorded late edit. -/
def Reachable (state : State) : Prop :=
  ∀ removal ∈ state.removed, isVersionCopy manifest state.area removal.1 removal.2 = true ∨
    IsLateCopy sha256 state removal.1 removal.2

/-! ## The condition -/

def standingDigest : Standing → Option Digest
  | .content content => some (sha256 content.bytes)
  | _ => none

/-- A late edit with this digest has left the path, and there is no other copy of it. -/
def hasLeft (state : State) (path : SyncPath) (digest : Digest) : Bool :=
  state.removed.any fun removal => removal.1 == path && sha256 removal.2.bytes == digest &&
    !isVersionCopy manifest state.area path removal.2

/-- A call that looks at a path whose row references a late edit that has left finds nothing there,
or that edit again. -/
def findsSame (state : State) : Event → Bool
  | .advance => state.call.all fun call => call.phase != .look ||
      call.recorded.all fun digest => !hasLeft sha256 manifest state call.path digest ||
        state.root call.path == .absent ||
        standingDigest sha256 (state.root call.path) == some digest
  | _ => true

end Machine

end Yadorilink.Quarantine
