import Yadorilink.Admission.Holds

/-! Admission of one remote delta. Two gates run before a delta's ops touch the
state: it must continue its author's chain, and every dot its removals name
must have been observed. A delta that fails a gate for something that may
still arrive is held; an admitted delta releases those that waited on it. -/

namespace Yadorilink

open Std

/-! ## Verdicts -/

/-- A path no replica may ever store. -/
inductive PathRefusal where
  | reservedNamespaceCollision (path : SyncPath)
  | nonPortablePath (path : SyncPath)
deriving DecidableEq

/-- Why a delta is structurally invalid whoever sent it. -/
inductive MalformedReason where
  | firstSeqZero (author : AuthorId)
  | logDrift (author : AuthorId) (seq : Nat)
  | seqExhausted (author : AuthorId)
  | partCount (author : AuthorId) (claimed recorded : Nat)
deriving DecidableEq

/-- One attempt's outcome, before anything is released. -/
inductive Step where
  | admitted (dot : Dot)
  | held (waitingOn : Dot)
  | duplicate
  | equivocation (evidence : Equivocation)
  | badSignature
  | malformed (reason : MalformedReason)
  | priorHistoryTruncated (atSeq : Nat)
  | invalidPath (refusal : PathRefusal)
  | wouldViolateInvariant (violation : InvariantViolation)
  | authorClosed (cutoff : Option Nat)
  | closureFork (seq : Nat)
  | unservableDependency (dependency : Dot)
  | groupFrozen
deriving DecidableEq

/-- What admitting one remote delta did. -/
inductive NativeAdmission where
  | admitted (dot : Dot) (released : List Dot)
  | duplicate
  | held (waitingOn : Dot)
  | equivocation (evidence : Equivocation)
  | badSignature
  | unknownAuthor
  | unauthorized (error : DeltaProofVerificationError)
  | malformed (reason : MalformedReason)
  | priorHistoryTruncated (atSeq : Nat)
  | invalidPath (refusal : PathRefusal)
  | wouldViolateInvariant (violation : InvariantViolation)
  | authorClosed (author : AuthorId) (cutoff : Option Nat)
  | closureFork (author : AuthorId) (seq : Nat)
  | unservableDependency (dependency : Dot)
  | groupFrozen
deriving DecidableEq

/-! ## One attempt -/

/-- The first path the delta names that no replica may store. -/
def pathRefusal (delta : NativeDelta) : Option PathRefusal :=
  delta.ops.findSome? fun op =>
    (wirePathAdmissionRefusal op.path).map fun refusal =>
      match refusal with
      | .reservedNamespace => .reservedNamespaceCollision op.path
      | .nonPortable => .nonPortablePath op.path

def holdFor (crypto : Crypto) (delta : NativeDelta) (waitingOn : Dot) (now : Int) :
    Db Step := do
  match ← hold crypto delta waitingOn now with
  | .held => return .held waitingOn
  | .equivocation evidence => return .equivocation evidence

/-- A delta at or below its author's position: the log tells a redelivery from
a fork, and the history floor speaks for what the log no longer holds. -/
def redelivered (crypto : Crypto) (store : Store) (delta : NativeDelta) (atSeq : Nat) : Step :=
  let found := delta.deltaHash crypto
  match store.log[(⟨delta.author, atSeq⟩ : Dot)]? with
  | some known =>
    if known = found then .duplicate
    else .equivocation ⟨delta.author, atSeq, known, found⟩
  | none =>
    match classifyUnloggedHistory store.floor[delta.author]? atSeq found with
    | .duplicate => .duplicate
    | .equivocation known => .equivocation ⟨delta.author, atSeq, known, found⟩
    | .priorHistoryTruncated => .priorHistoryTruncated atSeq
    | .drift => .malformed (.logDrift delta.author atSeq)

/-- The first dot the delta's removals name that has not been observed. -/
def Store.firstUnobserved (store : Store) (delta : NativeDelta) : Option Dot :=
  delta.namedDots.find? fun dot => !observedBy store.context dot

/-- Installs a delta that passed both gates and clears its hold. -/
def installAdmitted (crypto : Crypto) (groupId : FolderGroupId) (delta : NativeDelta)
    (key : VerifyingKey) : Db Step := do
  match ← installVerifiedDeltaInner crypto groupId delta key with
  | .installed dot =>
    modify fun store => store.clearHold delta.dot
    return .admitted dot
  | .authorClosed cutoff => return .authorClosed cutoff
  | .closureFork seq => return .closureFork seq
  | .groupFrozen => return .groupFrozen
  | .wouldViolateInvariant violation => return .wouldViolateInvariant violation

/-- The context gate, for a delta that continues its author's chain. -/
def gateContext (crypto : Crypto) (groupId : FolderGroupId) (delta : NativeDelta)
    (key : VerifyingKey) (now : Int) : Db Step := do
  let store ← get
  match store.firstUnobserved delta with
  | some dot =>
    if (store.beyondCutoff dot.author dot.seq).isSome then
      return .unservableDependency dot
    else
      holdFor crypto delta dot now
  | none =>
    match store.conflictingPartCount delta with
    | some recorded =>
      return .malformed (.partCount delta.author
        ((delta.recursivePart.map RecursivePart.partCount).getD 0) recorded)
    | none => installAdmitted crypto groupId delta key

def gateChain (crypto : Crypto) (groupId : FolderGroupId) (delta : NativeDelta)
    (key : VerifyingKey) (now : Int) : Db Step := do
  let store ← get
  match classifyChainAdvance store.frontier[delta.author]? delta.prev delta.seq with
  | .continues => gateContext crypto groupId delta key now
  | .equivocation atSeq expectedPrev foundPrev =>
    return .equivocation ⟨delta.author, atSeq, expectedPrev.getD default, foundPrev.getD default⟩
  | .needsPredecessor missingThrough =>
    if missingThrough = 0 then
      return .malformed (.firstSeqZero delta.author)
    else
      holdFor crypto delta ⟨delta.author, missingThrough - 1⟩ now
  | .needsHistoryLookup atSeq => return redelivered crypto store delta atSeq
  | .seqExhausted => return .malformed (.seqExhausted delta.author)

def applyOrHold (crypto : Crypto) (groupId : FolderGroupId) (delta : NativeDelta)
    (key : VerifyingKey) (now : Int) : Db Step := do
  let store ← get
  if !delta.verifySignature crypto key then
    return .badSignature
  else
    match pathRefusal delta with
    | some refusal => return .invalidPath refusal
    | none =>
      match store.closedVerdict crypto delta with
      | .beyond cutoff => return .authorClosed cutoff
      | .fork seq => return .closureFork seq
      | .open_ => gateChain crypto groupId delta key now

/-! ## Releasing -/

abbrev KeyFor := AuthorId → Option VerifyingKey

/-- A held delta's own key: the one its parked evidence carries, else the live
lookup. A stored key that is malformed counts as none. -/
def heldDeltaKey (crypto : Crypto) (store : Store) (held : NativeDelta) (keyFor : KeyFor) :
    Option VerifyingKey :=
  match (store.pending[held.deltaHash crypto]?).bind fun evidence =>
      (store.checkpoints[evidence.checkpointHash]?.map
        CheckpointEnvelope.authorSigningPublicKey).filter crypto.validKey with
  | some key => some key
  | none => keyFor held.author

/-- What one turn of the cascade adds: the dot it admitted, if any, and the
deltas that waited on it. -/
structure Released where
  admitted : List Dot
  waiters : List NativeDelta

/-- What the verdict on a retried delta does to the cascade. -/
def afterRetry (crypto : Crypto) (held : NativeDelta) : Step → Db Released
  | .admitted dot => do
      return ⟨[dot], (← get).waitersOf dot⟩
  | .authorClosed _ | .closureFork _ | .unservableDependency _ => do
      modify fun store => store.dropUnservableHolds crypto held.author held.seq
      return ⟨[], []⟩
  | _ => return ⟨[], []⟩

/-- Retries one queued delta, unless its hold is gone or no key is known. -/
def retryHeld (crypto : Crypto) (groupId : FolderGroupId) (keyFor : KeyFor) (now : Int)
    (held : NativeDelta) : Db Released := do
  let store ← get
  if !store.holdExists held.dot then
    return ⟨[], []⟩
  else
    match heldDeltaKey crypto store held keyFor with
    | none => return ⟨[], []⟩
    | some key => do
        let step ← applyOrHold crypto groupId held key now
        afterRetry crypto held step

def releaseLoop (crypto : Crypto) (groupId : FolderGroupId) (keyFor : KeyFor) (now : Int) :
    Nat → List NativeDelta → List Dot → Db (List Dot)
  | 0, _, _ => throw .fuel
  | turns + 1, queue, released =>
    match queue.getLast? with
    | none => return released
    | some held => do
        let turn ← retryHeld crypto groupId keyFor now held
        releaseLoop crypto groupId keyFor now turns (queue.dropLast ++ turn.waiters)
          (released ++ turn.admitted)

/-- Turns enough for any cascade over `holds` rows: every admission takes a row
away, and queues at most as many deltas as there are rows. -/
def cascadeTurns (holds : Nat) : Nat := (holds + 1) * (holds + 1)

/-- Retries every held delta waiting on `dot`, now admitted, and whatever they
release in turn. -/
def releaseWaiters (crypto : Crypto) (groupId : FolderGroupId) (keyFor : KeyFor) (now : Int)
    (dot : Dot) : Db (List Dot) := do
  let store ← get
  releaseLoop crypto groupId keyFor now (cascadeTurns store.holds.length)
    (store.waitersOf dot) []

/-! ## Admission -/

/-- What a verdict means to the caller, once an admission has released what
waited on it. -/
def reportStep (crypto : Crypto) (groupId : FolderGroupId) (delta : NativeDelta)
    (keyFor : KeyFor) (now : Int) : Step → Db NativeAdmission
  | .admitted dot => do
      let released ← releaseWaiters crypto groupId keyFor now dot
      return .admitted dot released
  | .held waitingOn => return .held waitingOn
  | .duplicate => return .duplicate
  | .equivocation evidence => return .equivocation evidence
  | .badSignature => return .badSignature
  | .malformed reason => return .malformed reason
  | .priorHistoryTruncated atSeq => return .priorHistoryTruncated atSeq
  | .invalidPath refusal => return .invalidPath refusal
  | .wouldViolateInvariant violation => return .wouldViolateInvariant violation
  | .authorClosed cutoff => return .authorClosed delta.author cutoff
  | .closureFork seq => return .closureFork delta.author seq
  | .unservableDependency dependency => return .unservableDependency dependency
  | .groupFrozen => return .groupFrozen

def admitNativeDeltaWithKey (crypto : Crypto) (groupId : FolderGroupId) (delta : NativeDelta)
    (key : VerifyingKey) (keyFor : KeyFor) (now : Int) : Db NativeAdmission := do
  let step ← applyOrHold crypto groupId delta key now
  reportStep crypto groupId delta keyFor now step

def admitNativeDelta (crypto : Crypto) (groupId : FolderGroupId) (delta : NativeDelta)
    (keyFor : KeyFor) (now : Int) : Db NativeAdmission :=
  match keyFor delta.author with
  | none => return .unknownAuthor
  | some key => admitNativeDeltaWithKey crypto groupId delta key keyFor now

end Yadorilink
