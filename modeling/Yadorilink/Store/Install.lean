import Yadorilink.Store.Closure

/-! Installing a verified delta: the one place every delta passes through to
become part of the replica's rows. The install reads and rewrites the touched
paths only; `installVerifiedDeltaFullState` is the plain version that loads
and replaces the whole group's state. -/

namespace Yadorilink

open Std

/-! ## The freeze of a rebootstrap -/

/-- How a delta reaches the install, with the capability of the rebootstrap
pass it belongs to. -/
inductive Admission where
  | remote
  | local_
  | rebootstrapCapture (group : FolderGroupId) (device : DeviceId) (recoveryId : String)
  | rebootstrapInstall (group : FolderGroupId) (recoveryId : String)
deriving DecidableEq

inductive FreezeVerdict where
  | open_
  | capture (recoveryId : String)
  | frozen
deriving DecidableEq

def JournalRow.installVerdict (row : JournalRow) (groupId : FolderGroupId) :
    Admission → FreezeVerdict
  | .rebootstrapInstall group recoveryId =>
    if group = groupId && recoveryId = row.recoveryId then .open_ else .frozen
  | .remote => if row.state = .replaying then .open_ else .frozen
  | _ => .frozen

/-- The freeze check, from the journal's state alone. -/
def checkFreeze (store : Store) (groupId : FolderGroupId) (author : AuthorId) (seq : Nat)
    (admission : Admission) : Except StoreError FreezeVerdict :=
  match store.journal with
  | none => .ok .open_
  | some row =>
    match row.state with
    | .planning | .blocked => .ok .open_
    | .capturing =>
      match admission with
      | .rebootstrapCapture group device recoveryId =>
        if group = groupId && recoveryId = row.recoveryId && device = author.device &&
            row.captureHighSeq.all (fun high => seq > high) then
          .ok (.capture row.recoveryId)
        else
          .ok .frozen
      | _ => .ok .frozen
    | .preserving | .preserved => .ok .frozen
    | .quarantining | .replaying => .ok (row.installVerdict groupId admission)
    | .catchingUp => .ok (if admission = .remote then .open_ else .frozen)
    | .unknown name => .error (.corruptState (.journalState name))

/-- A remote delta is let in, frozen out, or stopped by a state no version
knows; which one depends on the journal alone. -/
theorem checkFreeze_remote_cases (store : Store) (groupId : FolderGroupId) (author : AuthorId)
    (seq : Nat) :
    checkFreeze store groupId author seq .remote = .ok .open_ ∨
      checkFreeze store groupId author seq .remote = .ok .frozen ∨
      ∃ name, checkFreeze store groupId author seq .remote =
        .error (.corruptState (.journalState name)) := by
  unfold checkFreeze
  cases store.journal with
  | none => exact Or.inl rfl
  | some row =>
    rcases row with ⟨recoveryId, state, captureHighSeq⟩
    cases state with
    | planning => exact Or.inl rfl
    | blocked => exact Or.inl rfl
    | catchingUp => exact Or.inl rfl
    | replaying => exact Or.inl rfl
    | unknown name => exact Or.inr (Or.inr ⟨name, rfl⟩)
    | _ => exact Or.inr (Or.inl rfl)

theorem checkFreeze_remote (store : Store) (groupId : FolderGroupId) (first second : AuthorId)
    (firstSeq secondSeq : Nat) :
    checkFreeze store groupId first firstSeq .remote =
      checkFreeze store groupId second secondSeq .remote := by
  unfold checkFreeze
  split
  · rfl
  · split <;> rfl

/-- Records that the capture pass committed a delta. -/
def recordCapture (recoveryId : String) (seq : Nat) : Db Unit := fun store =>
  match store.journal with
  | some row =>
    if row.recoveryId = recoveryId && row.state = .capturing then
      .ok () { store with journal := some { row with captureHighSeq := some seq } }
    else
      .error (.corruptState .captureEnded) store
  | none => .error (.corruptState .captureEnded) store

/-! ## Rows of the heads -/

def deleteHead (key : HeadKey) : Db Unit := fun store =>
  .ok () { store with heads := store.heads.erase key }

def insertHead (key : HeadKey) (payload : HeadPayload) : Db Unit := fun store =>
  if store.heads.contains key then
    .error .constraint store
  else
    .ok () { store with heads := store.heads.insert key payload }

/-- Brings the rows of one path from `old` to `new`: deletes those that went
away or changed and inserts those that are new. -/
def installPathHeads (path : SyncPath) (old new : PathHeads) : Db Unit := do
  (old.toList.filter fun entry => new[entry.1]? ≠ some entry.2).forM fun entry =>
    deleteHead ⟨path, entry.1⟩
  (new.toList.filter fun entry => old[entry.1]? ≠ some entry.2).forM fun entry =>
    insertHead ⟨path, entry.1⟩ entry.2

def installTouchedHeads (touched : List SyncPath) (before after : HeadMap) : Db Unit :=
  touched.forM fun path =>
    installPathHeads path ((before[path]?).getD ∅) ((after[path]?).getD ∅)

/-! ## What an install records beside the heads -/

def authorContextUpsert (author : AuthorId) (seq : Nat) : Db Unit := fun store =>
  .ok () { store with context := store.context.insert author seq }

def frontierEntryUpsert (author : AuthorId) (entry : NativeAuthorFrontierEntry) : Db Unit :=
  fun store => .ok () { store with frontier := store.frontier.insert author entry }

def recordDeltaLog (dot : Dot) (hash : DeltaHash) : Db Unit := fun store =>
  if store.log.contains dot then
    .error .constraint store
  else
    .ok () { store with log := store.log.insert dot hash }

/-- Keeps the body already recorded, if there is one. -/
def recordDeltaBody (dot : Dot) (row : BodyRow) : Db Unit := fun store =>
  if store.bodies.contains dot then
    .ok () store
  else
    .ok () { store with bodies := store.bodies.insert dot row }

/-- The part count an earlier part of the delta's operation recorded. -/
def Store.recordedPartCount (store : Store) (device : DeviceId) (operationId : BitVec 128) :
    Option Nat :=
  (store.parts[(⟨device, operationId⟩ : OperationKey)]?).bind fun parts =>
    parts.toList.head?.map Prod.snd

/-- The recorded part count when it differs from the one the delta claims. -/
def Store.conflictingPartCount (store : Store) (delta : NativeDelta) : Option Nat :=
  match delta.recursivePart with
  | none => none
  | some part =>
    (store.recordedPartCount delta.author.device part.operationId).filter
      fun count => count ≠ part.partCount

/-- Records what the delta says about its recursive operation. -/
def recordRecursivePart (delta : NativeDelta) : Db Unit := fun store =>
  match delta.recursivePart with
  | none => .ok () store
  | some part =>
    match store.conflictingPartCount delta with
    | some recorded =>
      .error (.invalidInput (.partCount part delta.author.device recorded)) store
    | none =>
      let key : OperationKey := ⟨delta.author.device, part.operationId⟩
      let seen := (store.parts[key]?).getD ∅
      .ok () { store with
        parts := store.parts.insert key (seen.insertIfNew part.partIndex part.partCount) }

def recordInstalledDelta (crypto : Crypto) (delta : NativeDelta) : Db Unit := do
  let hash := delta.deltaHash crypto
  frontierEntryUpsert delta.author ⟨delta.seq, hash⟩
  recordDeltaLog delta.dot hash
  recordDeltaBody delta.dot ⟨hash, delta⟩
  recordRecursivePart delta

/-! ## The delta's ops by path -/

/-- Adds one op to those already collected for its path. -/
def mergeOp (hash : DeltaHash) (merged : ExtTreeMap SyncPath RemoteOp) (op : DeltaOp) :
    ExtTreeMap SyncPath RemoteOp :=
  merged.insert op.path {
    path := op.path
    removes := ((merged[op.path]?).map RemoteOp.removes).getD [] ++ op.removes
    put := op.put.map fun put => ⟨put.version, hash⟩ }

/-- The ops as the state applies them, one for each path, in path order. -/
def NativeDelta.remoteOps (crypto : Crypto) (delta : NativeDelta) : List RemoteOp :=
  (delta.ops.foldl (mergeOp (delta.deltaHash crypto)) ∅).toList.map Prod.snd

/-! ## The install -/

/-- What installing a verified delta found. A refusal writes nothing. -/
inductive InstallOutcome where
  | installed (dot : Dot)
  | authorClosed (cutoff : Option Nat)
  | closureFork (seq : Nat)
  | groupFrozen
  | wouldViolateInvariant (violation : InvariantViolation)
deriving DecidableEq

/-- The heads at each path a delta touched, as the install left them. -/
abbrev InstalledHeads := ExtTreeMap SyncPath PathHeads

def installedHeads (touched : List SyncPath) (after : HeadMap) : InstalledHeads :=
  touched.foldl (fun installed path => installed.insert path ((after[path]?).getD ∅)) ∅

/-- The cutoff's word on a delta, open for an author that is not closed. -/
def Store.closedVerdict (crypto : Crypto) (store : Store) (delta : NativeDelta) : ClosedVerdict :=
  match store.effectiveClosedCutoff delta.author with
  | none => .open_
  | some cutoff => cutoff.verdict delta.seq (delta.deltaHash crypto)

/-- The end of an install: the state is known to be valid, and is written. -/
def writeInstalled (crypto : Crypto) (delta : NativeDelta) (capture : Option String)
    (touched : List SyncPath) (before : HeadMap) (after : NativeState) : Db Unit := do
  let closedAt := (← get).effectiveClosedCutoff delta.author
  installTouchedHeads touched before after.heads
  authorContextUpsert delta.author delta.seq
  recordInstalledDelta crypto delta
  if closedAt.isSome then
    closeStateIfReached delta.author
  match capture with
  | some recoveryId => recordCapture recoveryId delta.seq
  | none => return ()

/-- The install past its gates: applies the ops to the touched paths, checks
the resulting state, and writes it. -/
def applyAndWrite (crypto : Crypto) (delta : NativeDelta) (capture : Option String) :
    Db (InstallOutcome × InstalledHeads) := do
  let ops := delta.remoteOps crypto
  let touched := ops.map RemoteOp.path
  let state := (← get).loadPartialState touched
  match state.receiveVerified delta.author delta.seq ops with
  | .error failure => throw (.invalidInput (.malformed failure))
  | .ok (dot, after) =>
    if dot.seq ≠ delta.seq then
      throw (.corruptState (.wrongNextDot delta.seq dot.seq))
    match after.checkInvariants with
    | .error violation => return (.wouldViolateInvariant violation, ∅)
    | .ok () =>
      writeInstalled crypto delta capture touched state.heads after
      return (.installed dot, installedHeads touched after.heads)

/-- Installs a verified delta, reporting the heads it left at the paths it
touched. -/
def installVerifiedDeltaReporting (crypto : Crypto) (groupId : FolderGroupId)
    (delta : NativeDelta) (key : VerifyingKey) (admission : Admission) :
    Db (InstallOutcome × InstalledHeads) := do
  let store ← get
  if !delta.verifySignature crypto key then
    throw (.invalidInput .signature)
  else if delta.groupId ≠ groupId then
    throw (.invalidInput (.otherGroup delta.groupId groupId))
  else
    match checkFreeze store groupId delta.author delta.seq admission with
    | .error failure => throw failure
    | .ok .frozen => return (.groupFrozen, ∅)
    | .ok freeze =>
      match store.closedVerdict crypto delta with
      | .beyond cutoff => return (.authorClosed cutoff, ∅)
      | .fork seq => return (.closureFork seq, ∅)
      | .open_ =>
        match checkChainAdvance store.frontier[delta.author]? delta.prev delta.seq with
        | .error failure => throw (.invalidInput (.chain failure))
        | .ok () =>
          applyAndWrite crypto delta (match freeze with
            | .capture recoveryId => some recoveryId
            | _ => none)

def installVerifiedDeltaInner (crypto : Crypto) (groupId : FolderGroupId)
    (delta : NativeDelta) (key : VerifyingKey) : Db InstallOutcome := do
  let (outcome, _) ← installVerifiedDeltaReporting crypto groupId delta key .remote
  return outcome

/-! ## The reference install -/

def insertContext (author : AuthorId) (seq : Nat) : Db Unit := fun store =>
  if store.context.contains author then
    .error .constraint store
  else
    .ok () { store with context := store.context.insert author seq }

/-- Replaces every context and head row of the group. -/
def installState (state : NativeState) : Db Unit := do
  modify fun store => { store with context := ∅, heads := ∅ }
  state.context.toList.forM fun entry => insertContext entry.1 entry.2
  state.heads.toList.forM fun entry =>
    entry.2.toList.forM fun head => insertHead ⟨entry.1, head.1⟩ head.2

def installVerifiedDeltaFullState (crypto : Crypto) (groupId : FolderGroupId)
    (delta : NativeDelta) (key : VerifyingKey) : Db InstallOutcome := do
  let store ← get
  if !delta.verifySignature crypto key then
    throw (.invalidInput .signature)
  else if delta.groupId ≠ groupId then
    throw (.invalidInput (.otherGroup delta.groupId groupId))
  else
    match checkChainAdvance store.frontier[delta.author]? delta.prev delta.seq with
    | .error failure => throw (.invalidInput (.chain failure))
    | .ok () =>
      match store.loadState.receiveVerified delta.author delta.seq (delta.remoteOps crypto) with
      | .error failure => throw (.invalidInput (.malformed failure))
      | .ok (dot, after) =>
        if dot.seq ≠ delta.seq then
          throw (.corruptState (.wrongNextDot delta.seq dot.seq))
        match after.checkInvariants with
        | .error violation => return .wouldViolateInvariant violation
        | .ok () =>
          installState after
          recordInstalledDelta crypto delta
          return .installed dot

end Yadorilink
