import Yadorilink.Domain.FileVersion

/-! Resolving a contested path: the author of a losing head renames it. The plan is
an ordered chain of deltas of one author, computed from the replicated state alone:
each removes the losing heads of a path and puts their versions at copy paths. -/

namespace Yadorilink

open Std

/-! ## Copy paths -/

/-- How many leading bytes of the copy id a copy name shows. -/
def copyIdBytes : Nat := 16

def copyIdDomain : List UInt8 := utf8Bytes "ylnk-copy-2"

def maxComponentBytes : Nat := 255

def stemTruncationMarker : List Char := ['~']

def hexDigit (value : Nat) : Char :=
  Char.ofNat (if value < 10 then '0'.toNat + value else 'a'.toNat + (value - 10))

def hexEncode (bytes : List UInt8) : List Char :=
  bytes.flatMap fun byte => [hexDigit (byte.toNat / 16), hexDigit (byte.toNat % 16)]

def rsplitOnce (separator : Char) (text : List Char) : Option (List Char × List Char) :=
  if separator ∈ text then
    let last := (text.reverse.takeWhile fun char => char ≠ separator).reverse
    some (text.take (text.length - last.length - 1), last)
  else
    none

/-- The longest start of `text` that takes at most `budget` bytes. -/
def takeBytes (budget : Nat) : List Char → List Char
  | [] => []
  | char :: rest =>
    if char.utf8Size ≤ budget then char :: takeBytes (budget - char.utf8Size) rest else []

/-- Shortens the stem on a character boundary so that it and the fixed bytes fit one
path component. -/
def truncateStemToFit (stem : List Char) (fixedBytes : Nat) : List Char :=
  if PathRules.byteLength stem + fixedBytes ≤ maxComponentBytes then
    stem
  else
    takeBytes (maxComponentBytes - fixedBytes - PathRules.byteLength stemTruncationMarker) stem ++
      stemTruncationMarker

/-- The name of the copy of `version` that lost `path`: a function of the whole path
and version alone. -/
def copyPath (crypto : Crypto) (path : SyncPath) (version : VersionHash) : SyncPath :=
  let digest := crypto.sha256
    (copyIdDomain ++ putStr path ++ beBytes 32 version.bits.toNat)
  let id := hexEncode ((beBytes 32 digest.toNat).take copyIdBytes)
  let (dir, filename) := match rsplitOnce '/' path.toList with
    | some (dir, name) => (dir ++ ['/'], name)
    | none => ([], path.toList)
  let suffix := " (conflicted copy, ".toList ++ id ++ [')']
  let (stem, ext) := match rsplitOnce '.' filename with
    | some (stem, ext) =>
      -- An extension that leaves no room for the suffix is part of the stem.
      if !stem.isEmpty && PathRules.byteLength suffix + 1 + PathRules.byteLength ext <
          maxComponentBytes / 2 then
        (stem, some ext)
      else
        (filename, none)
    | none => (filename, none)
  let extBytes := match ext with
    | some ext => 1 + PathRules.byteLength ext
    | none => 0
  let stem := truncateStemToFit stem (PathRules.byteLength suffix + extBytes)
  match ext with
  | some ext => String.ofList (dir ++ stem ++ suffix ++ ['.'] ++ ext)
  | none => String.ofList (dir ++ stem ++ suffix)

/-! ## Losing heads -/

/-- What decides which of several concurrent heads keeps the name: the maximum
wins, directories before versions. -/
structure WinKey where
  isDirectory : Bool
  version : VersionHash
deriving DecidableEq

instance : Ord WinKey := ⟨compareLex (compareOn WinKey.isDirectory) (compareOn WinKey.version)⟩

def winKey (isDirectory : Bool) (version : VersionHash) : WinKey := ⟨isDirectory, version⟩

def WinKey.larger (first second : WinKey) : WinKey :=
  if compare first second = .gt then first else second

/-- The largest key of `own` and the heads, unless some head's record is missing. -/
def largestKey (kindOf : VersionHash → Option RecordKind) (own : WinKey) :
    List (Dot × HeadPayload) → Option WinKey
  | [] => some own
  | (_, payload) :: rest => do
      let kind ← kindOf payload.version
      largestKey kindOf (own.larger (winKey (kind = .directory) payload.version)) rest

/-- Whether the author of `head` has to move it: it is file-like, and the path has to
be a directory or another version holds it. -/
def loses (head : LiveHead) (kindOf : VersionHash → Option RecordKind) (headsAtPath : PathHeads)
    (hasLiveDescendant : Bool) : Option Bool := do
  let kind ← kindOf head.payload.version
  if kind = .directory then
    return false
  if hasLiveDescendant then
    return true
  let own := winKey false head.payload.version
  let largest ← largestKey kindOf own headsAtPath.toList
  return compare own largest = .lt

/-! ## Plans -/

structure ForkOp where
  path : SyncPath
  removes : List HeadRef
  put : Option DeltaPut
deriving DecidableEq

/-- The ops of one delta the author signs. -/
structure ForkDelta where
  ops : List ForkOp
deriving DecidableEq

/-- Why a plan could not be made. -/
inductive ForkError where
  | opBudgetTooSmall
  | destinationCollision (path : SyncPath)
  | bucketFull (path : SyncPath)
  | cycle (path : SyncPath)
  | destinationTooLong (path : SyncPath)
  | seqExhausted
  /-- A loop of the model ran out of turns; the source has no such bound. -/
  | outOfTurns
deriving DecidableEq

/-- An ordered chain of deltas of one author, the paths that wait for a record and
the paths that cannot be forked. -/
structure ForkPlan where
  deltas : List ForkDelta
  waitingForRecords : List SyncPath
  refused : List (SyncPath × ForkError)
deriving DecidableEq

structure ForkLimits where
  maxOpsPerDelta : Nat
  maxBytesPerDelta : Nat

def minOpsPerDelta : Nat := 1 + maxSelfHeads

/-- The bytes an op takes on the wire, estimated from above. -/
def forkOpBytes (op : ForkOp) : Nat :=
  PathRules.byteLength op.path.toList + 64 +
    (op.removes.map fun removal => 60 + PathRules.byteLength removal.dot.author.device.toList).sum

/-- The losing heads of one path and where their versions go. -/
structure ForkGroup where
  source : SyncPath
  removes : List HeadRef
  puts : List (SyncPath × VersionHash)
deriving DecidableEq

/-- What the plan makes of one path. -/
inductive PathVerdict where
  | settled
  | waiting
  | refused (error : ForkError)
  | fork (group : ForkGroup)

section Judging

variable (crypto : Crypto) (state : NativeState) (owner : AuthorId)
  (kindOf : VersionHash → Option RecordKind)

/-- Whether some path lies below `path`: the first path from `path/` on starts so. -/
def hasDescendant (path : SyncPath) : Bool :=
  let dir := path ++ "/"
  (state.heads.keys.find? fun key => compare key dir ≠ .lt).any fun key =>
    dir.toList.isPrefixOf key.toList

/-- The heads of `owner` that lose, unless one of them cannot be judged. -/
def losingHeads (heads : PathHeads) (descendant : Bool) :
    List (Dot × HeadPayload) → Option (List (Dot × HeadPayload))
  | [] => some []
  | (dot, payload) :: rest =>
    if dot.author ≠ owner then
      losingHeads heads descendant rest
    else
      match loses ⟨dot, payload⟩ kindOf heads descendant with
      | none => none
      | some true => (losingHeads heads descendant rest).map ((dot, payload) :: ·)
      | some false => losingHeads heads descendant rest

def judgePath (path : SyncPath) (heads : PathHeads) : PathVerdict :=
  if !heads.keys.any fun dot => dot.author = owner then
    .settled
  else
    match losingHeads owner kindOf heads (hasDescendant state path) heads.toList with
    | none => .waiting
    | some [] => .settled
    | some losers =>
      let versions := ExtTreeSet.ofList (losers.map fun head => head.2.version) compare
      let puts := versions.toList.map fun version => (copyPath crypto path version, version)
      match puts.find? fun put => PathRules.byteLength put.1.toList > maxPathBytes with
      | some (destination, _) => .refused (.destinationTooLong destination)
      | none => .fork ⟨path, losers.map fun head => ⟨head.1, head.2.provenance⟩, puts⟩

end Judging

def checkDestinations : List SyncPath → List SyncPath → Except ForkError Unit
  | _, [] => .ok ()
  | seen, destination :: rest =>
    if destination ∈ seen then
      .error (.destinationCollision destination)
    else
      checkDestinations (destination :: seen) rest

/-! ## Ordering the groups -/

inductive Mark where
  | unvisited
  | onStack
  | done
deriving DecidableEq

/-- The groups whose source is one of each group's destinations. -/
def groupsBefore (groups : List ForkGroup) : List (List Nat) :=
  groups.map fun group => group.puts.filterMap fun put =>
    groups.findIdx? fun other => other.source = put.1

/-- The depth-first walk: the groups on the stack with the next edge of each, the
marks, and the groups that are finished. -/
structure Walk where
  stack : List (Nat × Nat)
  marks : List Mark
  order : List Nat

section Walking

variable (sources : List SyncPath) (before : List (List Nat))

/-- Follows the edge `next` of `node`, or finishes the group after its last edge. -/
def followEdge (node next : Nat) (walk : Walk) : Except ForkError Walk :=
  match (before.getD node [])[next]? with
  | some earlier =>
    match walk.marks.getD earlier .done with
    | .onStack => .error (.cycle (sources.getD earlier ""))
    | .unvisited =>
      .ok { walk with stack := (earlier, 0) :: (node, next + 1) :: walk.stack }
    | .done => .ok { walk with stack := (node, next + 1) :: walk.stack }
  | none => .ok ⟨walk.stack, walk.marks.set node .done, walk.order ++ [node]⟩

/-- One turn, with `node` already taken from the stack. -/
def walkStep (node next : Nat) (walk : Walk) : Except ForkError Walk :=
  if next = 0 then
    match walk.marks.getD node .done with
    | .done => .ok walk
    | .onStack => .error (.cycle (sources.getD node ""))
    | .unvisited =>
      followEdge sources before node next { walk with marks := walk.marks.set node .onStack }
  else
    followEdge sources before node next walk

def walkGroups : Nat → Walk → Except ForkError Walk
  | 0, walk => if walk.stack.isEmpty then .ok walk else .error .outOfTurns
  | turns + 1, walk =>
    match walk.stack with
    | [] => .ok walk
    | (node, next) :: stack => do
        let after ← walkStep sources before node next { walk with stack }
        walkGroups turns after

/-- More turns than a walk over these groups takes. -/
def walkTurns : Nat := (before.map fun earlier => 2 * earlier.length + 2).sum + 1

def walkAll : List Nat → Walk → Except ForkError Walk
  | [], walk => .ok walk
  | start :: rest, walk => do
      let after ← walkGroups sources before (walkTurns before)
        { walk with stack := [(start, 0)] }
      walkAll rest after

end Walking

/-- Orders groups so that a group whose source is another group's destination goes
before that group. -/
def orderGroups (groups : List ForkGroup) : Except ForkError (List ForkGroup) := do
  let walk ← walkAll (groups.map ForkGroup.source) (groupsBefore groups)
    (List.range groups.length) ⟨[], List.replicate groups.length .unvisited, []⟩
  return walk.order.filterMap fun index => groups[index]?

/-! ## Emitting the chain -/

/-- The chain built so far, against a simulation of the signer's own state. -/
structure Emission where
  sim : NativeState
  current : List ForkOp
  touched : List SyncPath
  currentBytes : Nat
  deltas : List ForkDelta
  refused : List (SyncPath × ForkError)

/-- The op that puts `version` at `destination`. A full bucket gives up only heads of
that very version. -/
def putOp (sim : NativeState) (author : AuthorId) (destination : SyncPath) (version : VersionHash) :
    Except ForkError ForkOp :=
  let own := (sim.pathHeads destination).toList.filter fun head => head.1.author = author
  let need := own.length + 1 - maxSelfHeads
  let same := own.filter fun head => head.2.version = version
  if own.length + 1 > maxSelfHeads then
    if same.length < need then
      .error (.bucketFull destination)
    else
      .ok ⟨destination, (same.take need).map fun head => ⟨head.1, head.2.provenance⟩,
        some ⟨version⟩⟩
  else
    .ok ⟨destination, [], some ⟨version⟩⟩

def groupOps (sim : NativeState) (author : AuthorId) (group : ForkGroup) :
    Except ForkError (List ForkOp) := do
  let puts ← group.puts.mapM fun put => putOp sim author put.1 put.2
  return ⟨group.source, group.removes, none⟩ :: puts

/-- The ops as the state takes them, their puts under `provenance`. -/
def remoteOps (provenance : DeltaHash) (ops : List ForkOp) : List RemoteOp :=
  ops.map fun op => ⟨op.path, op.removes, op.put.map fun put => ⟨put.version, provenance⟩⟩

/-- The stand-in for the provenance of a delta that is not signed yet. -/
def placeholder (seq : Nat) : DeltaHash := ⟨BitVec.ofNat 256 (seq * 2 ^ 192)⟩

namespace Emission

def flush (signer : AuthorId) (emission : Emission) : Except ForkError Emission :=
  match emission.sim.nextDot signer with
  | .error _ => .error .seqExhausted
  | .ok dot =>
    match emission.sim.receiveVerified signer dot.seq
      (remoteOps (placeholder dot.seq) emission.current) with
    | .error _ => .error .seqExhausted
    | .ok (_, sim) =>
      match sim.checkInvariants with
      | .error (.selfHeadBound path _) => .error (.bucketFull path)
      | .error _ => .error .seqExhausted
      | .ok _ => .ok {
          sim
          current := []
          touched := []
          currentBytes := 0
          deltas := emission.deltas ++ [⟨emission.current⟩]
          refused := emission.refused }

/-- The loop that adds one group to the delta being built, which is flushed first
when the group does not fit it. -/
def addGroup (signer : AuthorId) (limits : ForkLimits) (group : ForkGroup) :
    Nat → Emission → Except ForkError Emission
  | 0, _ => .error .outOfTurns
  | turns + 1, emission =>
    match groupOps emission.sim signer group with
    | .error (.bucketFull path) =>
      if emission.current.isEmpty then
        .ok { emission with
          refused := emission.refused ++ [(group.source, .bucketFull path)] }
      else do
        let flushed ← emission.flush signer
        addGroup signer limits group turns flushed
    | .error failure => .error failure
    | .ok ops =>
      let overlaps := ops.any fun op => op.path ∈ emission.touched
      let bytes := (ops.map forkOpBytes).sum
      let tooBig := decide (emission.current.length + ops.length > limits.maxOpsPerDelta) ||
        decide (emission.currentBytes + bytes > limits.maxBytesPerDelta)
      if (overlaps || tooBig) && !emission.current.isEmpty then do
        let flushed ← emission.flush signer
        addGroup signer limits group turns flushed
      else
        .ok { emission with
          current := emission.current ++ ops
          touched := emission.touched ++ ops.map ForkOp.path
          currentBytes := emission.currentBytes + bytes }

/-- A flush leaves nothing to flush, so a group is tried at most twice. -/
def addGroups (signer : AuthorId) (limits : ForkLimits) :
    List ForkGroup → Emission → Except ForkError Emission
  | [], emission => .ok emission
  | group :: rest, emission => do
      let added ← emission.addGroup signer limits group 2
      addGroups signer limits rest added

end Emission

section Planning

variable (crypto : Crypto) (state : NativeState) (owner signer : AuthorId)
  (kindOf : VersionHash → Option RecordKind) (limits : ForkLimits)

/-- Each stored path with what the plan makes of it. -/
def pathVerdicts : List (SyncPath × PathVerdict) :=
  state.heads.toList.map fun entry =>
    (entry.1, judgePath crypto state owner kindOf entry.1 entry.2)

def forkGroups (verdicts : List (SyncPath × PathVerdict)) : List ForkGroup :=
  verdicts.filterMap fun verdict => match verdict.2 with
    | .fork group => some group
    | _ => none

/-- The emission before any group: paths whose copies cannot be named are refused. -/
def Emission.start (verdicts : List (SyncPath × PathVerdict)) : Emission where
  sim := state
  current := []
  touched := []
  currentBytes := 0
  deltas := []
  refused := verdicts.filterMap fun verdict => match verdict.2 with
    | .refused error => some (verdict.1, error)
    | _ => none

def Emission.finish (emission : Emission) : Except ForkError Emission :=
  if emission.current.isEmpty then .ok emission else emission.flush signer

/-- The deltas by which `signer` moves the losing heads of `owner`: the removals name
only heads of `owner` or copies they supersede, and the puts land in the signer's own
buckets at the copy paths. -/
def planForks : Except ForkError ForkPlan :=
  if limits.maxOpsPerDelta < minOpsPerDelta then
    .error .opBudgetTooSmall
  else do
    let verdicts := pathVerdicts crypto state owner kindOf
    let groups := forkGroups verdicts
    checkDestinations [] (groups.flatMap fun group => group.puts.map Prod.fst)
    let ordered ← orderGroups groups
    let emission ← Emission.addGroups signer limits ordered (Emission.start state verdicts)
    let emission ← emission.finish signer
    return {
      deltas := emission.deltas
      waitingForRecords := verdicts.filterMap fun verdict => match verdict.2 with
        | .waiting => some verdict.1
        | _ => none
      refused := emission.refused }

end Planning

/-- Every distinct version live anywhere in the state. -/
def liveVersions (state : NativeState) : ExtTreeSet VersionHash :=
  ExtTreeSet.ofList
    (state.heads.toList.flatMap fun entry => entry.2.toList.map fun head => head.2.version) compare

end Yadorilink
