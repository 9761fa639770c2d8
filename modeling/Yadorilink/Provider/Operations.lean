import Yadorilink.Foundation.Fallible
import Yadorilink.Foundation.Machine

/-! The identity of a provider operation, and the tables that remember it: the log of stored
results (pruned by age and by count), the processed sequences of each session (a floor and
what lies above it), and the journal of uploads whose operation is not decided yet. Requests
reach the tables in separate steps, so any number of them may be under way at once. -/

namespace Yadorilink.Provider

/-! ## Operations and their errors -/

inductive ApplyError where
  | notFound (text : String)
  | invalidName (text : String)
  | nameCollision (text : String)
  | directoryNotEmpty (text : String)
  | keepLocal (path : Option String)
  | staleOperation
  | operationMismatch
  | staleView (text : String)
  | notAuthorized
  | tooManySessions
  | retry (text : String)
  | db (text : String)
deriving DecidableEq

/-- The refusals that are decided a second time, to keep the bytes they carry. -/
def ApplyError.keepsBytes : ApplyError → Bool
  | .staleView _ | .keepLocal _ | .nameCollision _ | .notFound _ | .invalidName _
  | .directoryNotEmpty _ => true
  | _ => false

inductive ChangeKind where
  | create
  | modify
  | delete
deriving DecidableEq

structure OperationId where
  rootId : String
  sessionId : List UInt8
  operationSeq : UInt64
deriving DecidableEq

/-- A session is named by 1 to 64 bytes, and sequences start at 1. -/
def OperationId.valid (id : OperationId) : Bool :=
  !id.sessionId.isEmpty && decide (id.sessionId.length ≤ 64) && id.operationSeq != 0

/-- A request as it arrives. Its `change` is everything the decision itself reads. -/
structure Operation (C : Type) where
  id : OperationId
  fingerprint : BitVec 256
  kind : ChangeKind
  /-- The name of the uploaded copy, of a request that carries bytes. -/
  content : Option String
  change : C

/-- Whether the bytes of the request outlive a refusal. -/
def Operation.carriesBytes {C : Type} (op : Operation C) : Bool :=
  op.content.isSome && op.kind != .delete

structure ApplyResult (R : Type) where
  stored : R
  replayed : Bool
deriving DecidableEq

/-! ## Sessions -/

structure Session where
  floor : UInt64
  above : List UInt64
deriving DecidableEq

namespace Session

def maxAbove : Nat := 1024

def maxAbovePinned : Nat := 65536

def processed (session : Session) (seq : UInt64) : Bool :=
  decide (seq ≤ session.floor) || session.above.contains seq

/-- The floor takes in the sequences that follow it. -/
def catchUp : (turns : Nat) → Session → Session
  | 0, session => session
  | turns + 1, session =>
    if session.above.contains (session.floor + 1) then
      catchUp turns ⟨session.floor + 1, session.above.filter (· != session.floor + 1)⟩
    else
      session

/-- The lowest gaps are given up, but not one below an undecided upload while there is room. -/
def abandonGaps (undecidedMin : Option UInt64) : (turns : Nat) → Session → Session
  | 0, session => session
  | turns + 1, session =>
    if maxAbove < session.above.length then
      match session.above.min? with
      | none => session
      | some lowest =>
        if undecidedMin.any (· < lowest) && decide (session.above.length ≤ maxAbovePinned) then
          session
        else
          abandonGaps undecidedMin turns
            ⟨max session.floor lowest, session.above.filter (· != lowest)⟩
    else
      session

def note (session : Session) (seq : UInt64) : Session :=
  if session.floor < seq then { session with above := session.above.insert seq } else session

/-- `Session::with`: the session that has also processed a sequence. Each turn of a loop takes
one sequence out, so the length bounds the turns. -/
def withSeq (session : Session) (seq : UInt64) (undecidedMin : Option UInt64) : Session :=
  let noted := session.note seq
  let caught := noted.catchUp noted.above.length
  caught.abandonGaps undecidedMin caught.above.length

end Session

/-! ## Tables -/

structure ApplyLogRow (R : Type) where
  id : OperationId
  fingerprint : BitVec 256
  result : R
  createdMs : Int
deriving DecidableEq

structure SessionRow where
  rootId : String
  sessionId : List UInt8
  session : Session
deriving DecidableEq

structure PendingIngest where
  id : OperationId
  ingestName : String
deriving DecidableEq

/-- The tables of an operation's identity. The `world` is the rest of the database, which
only a decision and the reconciliation before it read or write. -/
structure OperationTables (R W : Type) where
  roots : List String
  applyLog : List (ApplyLogRow R)
  sessions : List SessionRow
  pendingIngest : List PendingIngest
  world : W
deriving DecidableEq

namespace OperationTables

variable {C R W : Type}

def applyLogMaxEntries : Nat := 4096

def applyLogMaxAgeMs : Int := 24 * 3600 * 1000

def maxSessionsPerRoot : Nat := 64

def stored (tables : OperationTables R W) (id : OperationId) : Option (ApplyLogRow R) :=
  tables.applyLog.find? fun row => decide (row.id = id)

def journaled (tables : OperationTables R W) (id : OperationId) : Option PendingIngest :=
  tables.pendingIngest.find? fun row => decide (row.id = id)

def sessionRow (tables : OperationTables R W) (rootId : String) (sessionId : List UInt8) :
    Option SessionRow :=
  tables.sessions.find? fun row => decide (row.rootId = rootId ∧ row.sessionId = sessionId)

def loadSession (tables : OperationTables R W) (rootId : String) (sessionId : List UInt8) :
    Session :=
  match tables.sessionRow rootId sessionId with
  | none => ⟨0, []⟩
  | some row => ⟨row.session.floor, row.session.above.filter fun seq => row.session.floor < seq⟩

def saveSession (tables : OperationTables R W) (rootId : String) (sessionId : List UInt8)
    (session : Session) : Except ApplyError (OperationTables R W) :=
  if (tables.sessionRow rootId sessionId).isNone
      && decide (maxSessionsPerRoot ≤ (tables.sessions.filter (·.rootId = rootId)).length) then
    .error .tooManySessions
  else
    .ok { tables with
      sessions := ⟨rootId, sessionId, session⟩ :: tables.sessions.filter fun row =>
        decide ¬(row.rootId = rootId ∧ row.sessionId = sessionId) }

/-- `operation_seq as i64`, the order of the stored column. -/
def storedSeq (seq : UInt64) : Int :=
  seq.toBitVec.toInt

def newerFirst (row other : ApplyLogRow R) : Prop :=
  other.createdMs < row.createdMs ∨ (row.createdMs = other.createdMs ∧
      storedSeq other.id.operationSeq ≤ storedSeq row.id.operationSeq)

instance : DecidableRel (newerFirst (R := R)) := fun _ _ => inferInstanceAs (Decidable (_ ∨ _))

/-- Results too old, and those beyond the count a root keeps, are dropped. -/
def pruneLog (tables : OperationTables R W) (rootId : String) (nowMs : Int) :
    OperationTables R W :=
  let young := tables.applyLog.filter fun row =>
    decide ¬(row.id.rootId = rootId ∧ row.createdMs < nowMs - applyLogMaxAgeMs)
  let beyond := (((young.filter (·.id.rootId = rootId)).insertionSort newerFirst).drop
    applyLogMaxEntries).map (·.id)
  { tables with applyLog := young.filter fun row => decide (row.id ∉ beyond) }

def clearPendingIngest (tables : OperationTables R W) (id : OperationId) : OperationTables R W :=
  { tables with pendingIngest := tables.pendingIngest.filter fun row => decide (row.id ≠ id) }

def journalPendingIngest (tables : OperationTables R W) (id : OperationId) (name : String) :
    OperationTables R W :=
  { tables with pendingIngest := ⟨id, name⟩ :: (tables.clearPendingIngest id).pendingIngest }

/-- The lowest sequence of the session with a journaled upload, in the column's own order. -/
def undecidedMin (tables : OperationTables R W) (rootId : String) (sessionId : List UInt8) :
    Option UInt64 :=
  let seqs := (tables.pendingIngest.filter fun row =>
    decide (row.id.rootId = rootId ∧ row.id.sessionId = sessionId)).map (·.id.operationSeq)
  seqs.foldl (fun least seq =>
    if least.any fun other => decide (storedSeq other ≤ storedSeq seq) then least else some seq)
    none

/-- Whether the operation was decided before: its stored result, a mismatch, or, where the
result has expired, a stale operation. A journaled upload says that it was not. -/
def replayIn (tables : OperationTables R W) (id : OperationId) (fingerprint : BitVec 256) :
    Except ApplyError (Option (ApplyResult R)) :=
  match tables.stored id with
  | some row =>
    if row.fingerprint ≠ fingerprint then
      .error .operationMismatch
    else
      .ok (some ⟨row.result, true⟩)
  | none =>
    if (tables.loadSession id.rootId id.sessionId).processed id.operationSeq
        && (tables.journaled id).isNone then
      .error .staleOperation
    else
      .ok none

/-- What a decision is made of: the reconciliation that starts each transaction, and the
change itself, as first asked or as the keeping of refused bytes. -/
structure Decision (C R W : Type) where
  reconcile : W → W
  change : W → Operation C → (keepRefused : Bool) → Except ApplyError (R × W)

/-- The operation is recorded in the same transaction as its change: its result is logged,
its upload is no longer pending, and its sequence is processed. -/
def recordOperation (tables : OperationTables R W) (op : Operation C) (result : R)
    (nowMs : Int) : Except ApplyError (OperationTables R W) :=
  let session := tables.loadSession op.id.rootId op.id.sessionId
  let logged : OperationTables R W := { tables with
    applyLog := tables.applyLog ++ [⟨op.id, op.fingerprint, result, nowMs⟩] }
  let cleared := logged.clearPendingIngest op.id
  let undecided := cleared.undecidedMin op.id.rootId op.id.sessionId
  do
    let saved ← cleared.saveSession op.id.rootId op.id.sessionId
      (session.withSeq op.id.operationSeq undecided)
    return saved.pruneLog op.id.rootId nowMs

/-- One transaction of `apply_change`; an error rolls it back whole. -/
def applyInTx (decision : Decision C R W) (tables : OperationTables R W) (op : Operation C)
    (nowMs : Int) (keepRefused : Bool) :
    Except ApplyError (ApplyResult R × OperationTables R W) :=
  let tables := { tables with world := decision.reconcile tables.world }
  if op.id.rootId ∉ tables.roots then
    .error (.notFound "unknown provider root")
  else
    match tables.replayIn op.id op.fingerprint with
    | .error error => .error error
    | .ok (some replayed) => .ok (replayed, tables)
    | .ok none =>
      match decision.change tables.world op keepRefused with
      | .error error => .error error
      | .ok (result, world) => do
          let recorded ← recordOperation { tables with world } op result nowMs
          return (⟨result, false⟩, recorded)

end OperationTables

/-! ## Requests -/

/-- What the journal finds of an uploaded copy: whether it is there, and whether it is exactly
the declared upload. -/
inductive UploadFile where
  | missing
  | broken
  | verified
deriving DecidableEq

/-- `journal_upload`: the copy the operation goes on with, or none where neither copy can be
verified. A request without bytes or without an identity journals nothing. -/
def journalUpload {C R W : Type} (tables : OperationTables R W) (op : Operation C)
    (files : String → UploadFile) : Option (Option String × OperationTables R W) :=
  match op.content with
  | none => some (none, tables)
  | some source =>
    if !op.carriesBytes || !op.id.valid then
      some (none, tables)
    else
      match ((tables.journaled op.id).map (·.ingestName)).filter fun name =>
          name != source && files name != .missing with
      | none => some (some source, tables.journalPendingIngest op.id source)
      | some prior =>
        if files prior = .verified then
          some (some prior, tables.journalPendingIngest op.id prior)
        else if files source = .verified then
          some (some source, tables.journalPendingIngest op.id source)
        else
          none

/-- How far a request has come. -/
inductive Stage where
  | arrived
  | journaled (upload : Option String)
  /-- Answered from its record; the journal row it wrote is cleared next. -/
  | replayed
  | checked
  | ingested (nowMs : Int)
  /-- Refused by the first transaction, with bytes that a second one keeps. -/
  | refused (nowMs : Int)
  | ended
deriving DecidableEq

structure Request (C : Type) where
  op : Operation C
  stage : Stage

/-- What the replay checks and the transactions of all requests answered, in order. -/
inductive Entry (R : Type) where
  | proceeded (id : OperationId)
  | replayed (id : OperationId) (result : R)
  | refused (id : OperationId) (error : ApplyError)
  | decided (id : OperationId) (fingerprint : BitVec 256) (result : R)
deriving DecidableEq

namespace Entry

variable {R : Type}

def id : Entry R → OperationId
  | proceeded id | replayed id _ | refused id _ | decided id _ _ => id

/-- Whether the entry is the decision of the operation. -/
def decides (entry : Entry R) (id : OperationId) : Bool :=
  match entry with
  | decided other _ _ => decide (other = id)
  | _ => false

end Entry

structure System (C R W : Type) where
  tables : OperationTables R W
  requests : List (Request C)
  history : List (Entry R)

/-- One step of one request. A request may fail at any point (a crash, a cancellation, a
refusal for readiness or authorization, an error of the database): what it had under way in a
transaction is rolled back, what it had committed stays. -/
inductive Event (C : Type) where
  | arrive (op : Operation C)
  | journal (request : Nat) (files : String → UploadFile)
  | check (request : Nat)
  | clear (request : Nat)
  | ingest (request : Nat) (nowMs : Int)
  | apply (request : Nat)
  | keep (request : Nat)
  | fail (request : Nat)

namespace System

variable {C R W : Type}

def start (roots : List String) (world : W) : System C R W :=
  ⟨⟨roots, [], [], [], world⟩, [], []⟩

def setStage (system : System C R W) (request : Nat) (stage : Stage) : System C R W :=
  { system with requests := system.requests.modify request ({ · with stage }) }

def record (system : System C R W) (entry : Entry R) : System C R W :=
  { system with history := system.history ++ [entry] }

def check (system : System C R W) (request : Nat) (op : Operation C) (upload : Option String) :
    System C R W :=
  if !op.id.valid then
    (system.record (.refused op.id .staleOperation)).setStage request .ended
  else
    match system.tables.replayIn op.id op.fingerprint with
    | .error error => (system.record (.refused op.id error)).setStage request .ended
    | .ok (some result) =>
      (system.record (.replayed op.id result.stored)).setStage request
        (if upload.isSome then .replayed else .ended)
    | .ok none => (system.record (.proceeded op.id)).setStage request .checked

def transact (decision : OperationTables.Decision C R W) (system : System C R W) (request : Nat)
    (op : Operation C) (nowMs : Int) (keepRefused : Bool) : System C R W :=
  match OperationTables.applyInTx decision system.tables op nowMs keepRefused with
  | .ok (result, tables) =>
    ({ system with tables }.record
      (if result.replayed then .replayed op.id result.stored
        else .decided op.id op.fingerprint result.stored)).setStage request .ended
  | .error error =>
    (system.record (.refused op.id error)).setStage request
      (if !keepRefused && error.keepsBytes && op.carriesBytes then .refused nowMs else .ended)

def step (decision : OperationTables.Decision C R W) (system : System C R W) :
    Event C → Option (System C R W)
  | .arrive op => some { system with requests := system.requests ++ [⟨op, .arrived⟩] }
  | .journal request files =>
    match system.requests[request]? with
    | some ⟨op, .arrived⟩ =>
      match journalUpload system.tables op files with
      | none => some (system.setStage request .ended)
      | some (upload, tables) =>
        some ({ system with tables }.setStage request (.journaled upload))
    | _ => none
  | .check request =>
    match system.requests[request]? with
    | some ⟨op, .journaled upload⟩ => some (system.check request op upload)
    | _ => none
  | .clear request =>
    match system.requests[request]? with
    | some ⟨op, .replayed⟩ =>
      some ({ system with tables := system.tables.clearPendingIngest op.id }.setStage request
        .ended)
    | _ => none
  | .ingest request nowMs =>
    match system.requests[request]? with
    | some ⟨_, .checked⟩ => some (system.setStage request (.ingested nowMs))
    | _ => none
  | .apply request =>
    match system.requests[request]? with
    | some ⟨op, .ingested nowMs⟩ => some (transact decision system request op nowMs false)
    | _ => none
  | .keep request =>
    match system.requests[request]? with
    | some ⟨op, .refused nowMs⟩ => some (transact decision system request op nowMs true)
    | _ => none
  | .fail request => some (system.setStage request .ended)

/-- The operation was decided, its result has been pruned, and yet a journal row says that it
is not decided. -/
def forgotten (system : System C R W) (id : OperationId) : Bool :=
  system.history.any (·.decides id) && (system.tables.stored id).isNone
    && (system.tables.journaled id).isSome

/-- No replay check of a request comes upon a forgotten decision. -/
def Remembered (system : System C R W) : Event C → Prop
  | .check request | .apply request | .keep request =>
    (system.requests[request]?).all fun found => !system.forgotten found.op.id
  | _ => True

instance (system : System C R W) : DecidablePred system.Remembered := fun event => by
  cases event <;> unfold Remembered <;> infer_instance

end System

end Yadorilink.Provider
