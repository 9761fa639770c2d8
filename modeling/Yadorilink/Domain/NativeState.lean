import Yadorilink.Domain.Ids

/-! The native causal state of one replica: per path the live heads, and per
author the highest sequence observed. Deleted heads are forgotten; the memory
of a deletion is the context alone. -/

namespace Yadorilink

open Std

/-! ## Data model -/

/-- What a live head carries besides its dot. -/
structure HeadPayload where
  version : VersionHash
  provenance : DeltaHash
deriving DecidableEq

/-- A head named inside an op: the dot that created it and the header hash of
the delta that did so. -/
structure HeadRef where
  dot : Dot
  provenance : DeltaHash
deriving DecidableEq

abbrev PathHeads := ExtTreeMap Dot HeadPayload

abbrev Context := ExtTreeMap AuthorId Nat

abbrev HeadMap := ExtTreeMap SyncPath PathHeads

/-- A replica state. An absent author has no prior sequence; an absent path
has no heads. -/
structure NativeState where
  context : Context
  heads : HeadMap
deriving DecidableEq

/-- One path of a local mutation: the heads it supersedes and what it lands. -/
structure PathEdit where
  path : SyncPath
  observed : List Dot
  put : Option HeadPayload
deriving DecidableEq

/-- One path of an already-admitted remote delta. -/
structure RemoteOp where
  path : SyncPath
  removes : List HeadRef
  put : Option HeadPayload
deriving DecidableEq

/-- A live head at one path. -/
structure LiveHead where
  dot : Dot
  payload : HeadPayload
deriving DecidableEq

/-- Why a mutation was refused. -/
inductive AuthorError where
  | empty
  | duplicatePath (path : SyncPath)
  | duplicateObserved (path : SyncPath) (dot : Dot)
  | observedNotCurrentHead (path : SyncPath) (dot : Dot)
  | selfHeadBound (path : SyncPath)
deriving DecidableEq

/-- The same dot carries two different payloads at one path. -/
structure Fork where
  path : SyncPath
  dot : Dot
  left : HeadPayload
  right : HeadPayload
deriving DecidableEq

inductive InvariantViolation where
  | zeroSeq (path : SyncPath) (dot : Dot)
  | headBeyondContext (path : SyncPath) (dot : Dot) (context : Option Nat)
  | emptyPath (path : SyncPath)
  | selfHeadBound (path : SyncPath) (author : AuthorId)
deriving DecidableEq

/-! ## Reading a state -/

def observedBy (context : Context) (dot : Dot) : Bool :=
  match context[dot.author]? with
  | some seq => dot.seq ≤ seq
  | none => false

namespace NativeState

def new : NativeState := ⟨∅, ∅⟩

def contextOf (state : NativeState) (author : AuthorId) : Option Nat :=
  state.context[author]?

/-- The heads stored at `path`, none when the path is absent. -/
def pathHeads (state : NativeState) (path : SyncPath) : PathHeads :=
  (state.heads[path]?).getD ∅

def headsAt (state : NativeState) (path : SyncPath) : List LiveHead :=
  (state.pathHeads path).toList.map fun entry => ⟨entry.1, entry.2⟩

def dotsAt (state : NativeState) (path : SyncPath) : List Dot :=
  (state.pathHeads path).keys

def nextDot (state : NativeState) (author : AuthorId) : Except AuthorError Dot :=
  match state.contextOf author with
  | none => .ok ⟨author, AuthorSeq.first⟩
  | some previous =>
    match AuthorSeq.checkedNext previous with
    | some seq => .ok ⟨author, seq⟩
    | none => .error (.selfHeadBound "")

end NativeState

/-- Takes the heads at `path` out, changes them and puts the result back,
storing no path without heads. -/
def changeHeads (heads : HeadMap) (path : SyncPath)
    (change : PathHeads → PathHeads) : HeadMap :=
  let changed := change ((heads[path]?).getD ∅)
  if changed.isEmpty then heads.erase path else (heads.erase path).insert path changed

def landAt (dot : Dot) (put : Option HeadPayload) (heads : PathHeads) : PathHeads :=
  match put with
  | some payload => heads.insert dot payload
  | none => heads

namespace NativeState

/-! ## Local authoring -/

/-- The loop over one edit's observed dots: each is named once and is a
current head. `seen` holds the dots already visited. -/
def checkObserved (path : SyncPath) (current : Option PathHeads) :
    List Dot → List Dot → Except AuthorError Unit
  | _, [] => .ok ()
  | seen, dot :: rest =>
    if dot ∈ seen then
      .error (.duplicateObserved path dot)
    else if !(current.any fun heads => heads.contains dot) then
      .error (.observedNotCurrentHead path dot)
    else
      checkObserved path current (dot :: seen) rest

/-- The loop over a mutation's edits. `paths` holds the paths already
visited. -/
def checkEditsFrom (state : NativeState) (author : AuthorId) :
    List SyncPath → List PathEdit → Except AuthorError Unit
  | _, [] => .ok ()
  | paths, edit :: rest =>
    if edit.path ∈ paths then
      .error (.duplicatePath edit.path)
    else do
      let current := state.heads[edit.path]?
      checkObserved edit.path current [] edit.observed
      let keptOwn := (current.getD ∅).keys.countP fun dot =>
        dot.author = author ∧ dot ∉ edit.observed
      if keptOwn + edit.put.isSome.toNat > maxSelfHeads then
        .error (.selfHeadBound edit.path)
      else
        checkEditsFrom state author (edit.path :: paths) rest

/-- The author-side discipline: distinct paths, observed heads distinct and
current, and at most `maxSelfHeads` heads of `author` left at each edited
path. -/
def checkEdits (state : NativeState) (author : AuthorId) (edits : List PathEdit) :
    Except AuthorError Unit :=
  if edits.isEmpty then .error .empty else state.checkEditsFrom author [] edits

def applyEdit (dot : Dot) (heads : HeadMap) (edit : PathEdit) : HeadMap :=
  changeHeads heads edit.path fun current =>
    landAt dot edit.put (edit.observed.foldl ExtTreeMap.erase current)

/-- Applies a local mutation of `author`: one new dot; per edited path the
observed heads go and the landed content comes. A refused mutation leaves the
state unchanged. -/
def author (state : NativeState) (author : AuthorId) (edits : List PathEdit) :
    Except AuthorError (Dot × NativeState) := do
  state.checkEdits author edits
  let dot ← state.nextDot author
  return (dot, {
    context := state.context.insert author dot.seq
    heads := edits.foldl (applyEdit dot) state.heads })

/-! ## Remote admission -/

/-- A removal applies only to a head that is live with exactly the provenance
it names; anything else is skipped. -/
def applyRemoval (heads : PathHeads) (removal : HeadRef) : PathHeads :=
  if heads[removal.dot]?.any fun live => live.provenance = removal.provenance then
    heads.erase removal.dot
  else
    heads

def checkRemovals (path : SyncPath) : List Dot → List HeadRef → Except AuthorError Unit
  | _, [] => .ok ()
  | seen, removal :: rest =>
    if removal.dot ∈ seen then
      .error (.duplicateObserved path removal.dot)
    else
      checkRemovals path (removal.dot :: seen) rest

def checkOps : List SyncPath → List RemoteOp → Except AuthorError Unit
  | _, [] => .ok ()
  | paths, op :: rest =>
    if op.path ∈ paths then
      .error (.duplicatePath op.path)
    else do
      checkRemovals op.path [] op.removes
      checkOps (op.path :: paths) rest

def applyOp (dot : Dot) (heads : HeadMap) (op : RemoteOp) : HeadMap :=
  changeHeads heads op.path fun current =>
    landAt dot op.put (op.removes.foldl applyRemoval current)

/-- Applies the ops of a remote delta whose chain and context the caller has
verified. -/
def receiveVerified (state : NativeState) (author : AuthorId) (seq : Nat)
    (ops : List RemoteOp) : Except AuthorError (Dot × NativeState) := do
  checkOps [] ops
  let dot : Dot := ⟨author, seq⟩
  return (dot, {
    context := state.context.insert author seq
    heads := ops.foldl (applyOp dot) state.heads })

/-! ## Invariants -/

def perAuthor (dots : List Dot) : ExtTreeMap AuthorId Nat :=
  dots.foldl (fun counts dot =>
    counts.insert dot.author ((counts[dot.author]?).getD 0 + 1)) ∅

def checkDot (context : Context) (path : SyncPath) (dot : Dot) :
    Except InvariantViolation Unit :=
  if dot.seq = 0 then
    .error (.zeroSeq path dot)
  else
    let bound := context[dot.author]?
    if bound.all fun seq => dot.seq > seq then
      .error (.headBeyondContext path dot bound)
    else
      .ok ()

/-- The checks `checkInvariants` makes at one path. -/
def checkPath (context : Context) (path : SyncPath) (heads : PathHeads) :
    Except InvariantViolation Unit :=
  if heads.isEmpty then
    .error (.emptyPath path)
  else
    match (perAuthor heads.keys).toList.find? fun entry => entry.2 > maxSelfHeads with
    | some (author, _) => .error (.selfHeadBound path author)
    | none => heads.keys.forM (checkDot context path)

/-- Every head's dot is observed by the context, no path is stored without
heads and no author has more than `maxSelfHeads` heads at a path. -/
def checkInvariants (state : NativeState) : Except InvariantViolation Unit :=
  state.heads.toList.forM fun entry => checkPath state.context entry.1 entry.2

end NativeState

/-! ## Join -/

/-- What the loop over the left heads keeps of `dot`. -/
def joinLeft (path : SyncPath) (left right : PathHeads) (rightContext : Context)
    (dot : Dot) : Except Fork (Option HeadPayload) :=
  match left[dot]? with
  | none => .ok none
  | some payload =>
    match right[dot]? with
    | some other =>
      if other ≠ payload then .error ⟨path, dot, payload, other⟩ else .ok (some payload)
    | none => if !observedBy rightContext dot then .ok (some payload) else .ok none

/-- What the loop over the right heads keeps of `dot`. -/
def joinRight (left right : PathHeads) (leftContext : Context) (dot : Dot) :
    Except Fork (Option HeadPayload) :=
  if !left.contains dot && !observedBy leftContext dot then .ok right[dot]? else .ok none

/-- Joins the heads of one path: a left head survives when the right side
holds it too or has not observed its dot, and symmetrically. -/
def joinPath (path : SyncPath) (left right : Option PathHeads)
    (leftContext rightContext : Context) : Except Fork PathHeads := do
  let left := left.getD ∅
  let right := right.getD ∅
  let joined ← OrderedMap.insertEach (joinLeft path left right rightContext) left.keys ∅
  OrderedMap.insertEach (joinRight left right leftContext) right.keys joined

/-- Raises `author`'s entry to `seq` when that is higher. -/
def raiseContext (context : Context) (author : AuthorId) (seq : Nat) : Context :=
  context.insert author (max ((context[author]?).getD seq) seq)

/-- Joins two states: the context is the componentwise maximum, and each path
is joined by `joinPath`. -/
def join (left right : NativeState) : Except Fork NativeState := do
  let context := right.context.toList.foldl
    (fun context entry => raiseContext context entry.1 entry.2) left.context
  let paths := ExtTreeSet.ofList (left.heads.keys ++ right.heads.keys) compare
  let heads ← OrderedMap.insertEach (fun path => do
    let joined ← joinPath path left.heads[path]? right.heads[path]?
      left.context right.context
    return if joined.isEmpty then none else some joined) paths.toList ∅
  return ⟨context, heads⟩

end Yadorilink
