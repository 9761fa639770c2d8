import Yadorilink.Provider.Operations

/-! A provider operation takes effect at most once. What was decided stays processed: the floor
of a session never goes back, and a sequence it no longer lists is below the floor. So an
operation decided before is answered from the log or refused as stale, unless its result has
been pruned and a journal row passes it for undecided. -/

namespace Yadorilink.Provider

open List

/-! ## Processed sequences -/

variable {session : Session} {seq : UInt64}

namespace Session

theorem processed_iff :
    session.processed seq = true ↔ seq ≤ session.floor ∨ seq ∈ session.above := by
  rw [processed, Bool.or_eq_true, decide_eq_true_iff, contains_iff_mem]

/-- A session that lists only what its floor does not cover, as every loaded one. -/
def Tidy (session : Session) : Prop :=
  ∀ seq ∈ session.above, session.floor < seq

theorem processed_raise {floor lowest : UInt64} (raised : session.floor ≤ floor)
    (covered : lowest ≤ floor) (before : session.processed seq = true) :
    processed ⟨floor, session.above.filter (· != lowest)⟩ seq = true := by
  rw [processed_iff] at before ⊢
  rcases before with below | listed
  · exact .inl (UInt64.le_trans below raised)
  · by_cases same : seq = lowest
    · rw [same]
      exact .inl covered
    · exact .inr (mem_filter.mpr ⟨listed, bne_iff_ne.mpr same⟩)

theorem succ_lt {floor : UInt64} (room : floor < floor + 1) (above : floor < seq)
    (other : seq ≠ floor + 1) : floor + 1 < seq := by
  rw [UInt64.lt_iff_toNat_lt] at *
  have distinct : seq.toNat ≠ (floor + 1).toNat := fun same => other (UInt64.toNat_inj.mp same)
  have sum := UInt64.toNat_add floor 1
  have one : (1 : UInt64).toNat = 1 := rfl
  grind

theorem processed_catchUp (turns : Nat) (tidy : session.Tidy)
    (before : session.processed seq = true) : (session.catchUp turns).processed seq = true := by
  induction turns generalizing session with
  | zero => exact before
  | succ turns induction =>
    rw [catchUp]
    split
    · rename_i next
      have room := tidy _ (contains_iff_mem.mp next)
      apply induction
      · intro other listed
        rcases mem_filter.mp listed with ⟨member, distinct⟩
        exact succ_lt room (tidy other member) (bne_iff_ne.mp distinct)
      · exact processed_raise (UInt64.le_of_lt room) (UInt64.le_refl _) before
    · exact before

theorem processed_abandonGaps (undecidedMin : Option UInt64) (turns : Nat)
    (before : session.processed seq = true) :
    (session.abandonGaps undecidedMin turns).processed seq = true := by
  induction turns generalizing session with
  | zero => exact before
  | succ turns induction =>
    rw [abandonGaps]
    split
    · split
      · exact before
      · rename_i lowest _
        split
        · exact before
        · apply induction
          have raised : session.floor ≤ max session.floor lowest ∧
              lowest ≤ max session.floor lowest := by
            change session.floor ≤ (if session.floor ≤ lowest then lowest else session.floor) ∧
              lowest ≤ (if session.floor ≤ lowest then lowest else session.floor)
            split
            · exact ⟨by assumption, UInt64.le_refl _⟩
            · rename_i higher
              exact ⟨UInt64.le_refl _, UInt64.le_of_lt (UInt64.not_le.mp higher)⟩
          exact processed_raise raised.1 raised.2 before
    · exact before

theorem processed_note {other : UInt64} (before : session.processed other = true ∨ other = seq) :
    (session.note seq).processed other = true := by
  rw [note]
  split
  · rw [processed_iff]
    rcases before with before | rfl
    · rcases processed_iff.mp before with below | listed
      · exact .inl below
      · exact .inr (mem_insert_of_mem listed)
    · exact .inr mem_insert_self
  · rename_i covered
    rcases before with before | rfl
    · exact before
    · exact processed_iff.mpr (.inl (UInt64.not_lt.mp covered))

theorem Tidy.note (tidy : session.Tidy) (seq : UInt64) : (session.note seq).Tidy := by
  rw [Session.note]
  split
  · intro other listed
    rcases mem_insert_iff.mp listed with rfl | member
    · assumption
    · exact tidy other member
  · exact tidy

theorem processed_withSeq (tidy : session.Tidy) {other : UInt64} (undecidedMin : Option UInt64)
    (before : session.processed other = true ∨ other = seq) :
    (session.withSeq seq undecidedMin).processed other = true := by
  apply processed_abandonGaps
  apply processed_catchUp _ (tidy.note seq)
  exact processed_note before

end Session

/-! ## What the tables remember -/

namespace OperationTables

variable {C R W : Type} {tables : OperationTables R W}

theorem stored_eq_some {id : OperationId} {row : ApplyLogRow R}
    (found : tables.stored id = some row) : row ∈ tables.applyLog ∧ row.id = id := by
  have matched := find?_some found
  exact ⟨mem_of_find?_eq_some found, of_decide_eq_true matched⟩

/-- The operation is among the processed ones of its session. -/
def Processed (tables : OperationTables R W) (id : OperationId) : Prop :=
  (tables.loadSession id.rootId id.sessionId).processed id.operationSeq = true

theorem tidy_loadSession (tables : OperationTables R W) (rootId : String)
    (sessionId : List UInt8) : (tables.loadSession rootId sessionId).Tidy := by
  rw [loadSession]
  split
  · rintro seq ⟨⟩
  · intro seq listed
    exact of_decide_eq_true (mem_filter.mp listed).2

theorem processed_filter (before : session.processed seq = true) :
    Session.processed ⟨session.floor, session.above.filter fun seq => session.floor < seq⟩ seq =
      true := by
  rw [Session.processed_iff] at before ⊢
  rcases before with below | listed
  · exact .inl below
  · by_cases covered : session.floor < seq
    · exact .inr (mem_filter.mpr ⟨listed, decide_eq_true covered⟩)
    · exact .inl (UInt64.not_lt.mp covered)

theorem saveSession_ok {saved : OperationTables R W} {rootId : String} {sessionId : List UInt8}
    (done : tables.saveSession rootId sessionId session = .ok saved) :
    saved.applyLog = tables.applyLog ∧ saved.world = tables.world ∧ saved.roots = tables.roots ∧
      saved.sessionRow rootId sessionId = some ⟨rootId, sessionId, session⟩ ∧
      ∀ otherRoot otherSession, ¬(otherRoot = rootId ∧ otherSession = sessionId) →
        saved.sessionRow otherRoot otherSession = tables.sessionRow otherRoot otherSession := by
  rw [saveSession] at done
  split at done
  · cases done
  · cases done
    refine ⟨rfl, rfl, rfl, ?_, ?_⟩
    · exact find?_cons_of_pos (decide_eq_true ⟨rfl, rfl⟩)
    · intro otherRoot otherSession differs
      have skipped : ¬(rootId = otherRoot ∧ sessionId = otherSession) := by
        rintro ⟨rfl, rfl⟩
        exact differs ⟨rfl, rfl⟩
      rw [sessionRow, find?_cons_of_neg (by simpa using skipped), find?_filter, sessionRow]
      congr 1
      funext row
      by_cases wanted : row.rootId = otherRoot ∧ row.sessionId = otherSession
      · have apart : ¬(row.rootId = rootId ∧ row.sessionId = sessionId) := by
          rw [wanted.1, wanted.2]
          exact differs
        rw [decide_eq_true apart, decide_eq_true wanted]
        rfl
      · simp only [wanted, decide_false, Bool.false_eq_true, and_false]

theorem recordOperation_ok {recorded : OperationTables R W} {op : Operation C} {result : R}
    {nowMs : Int} (done : recordOperation tables op result nowMs = .ok recorded) :
    recorded.world = tables.world ∧ (∀ row ∈ recorded.applyLog,
        row ∈ tables.applyLog ∨ row = ⟨op.id, op.fingerprint, result, nowMs⟩) ∧
      ∀ id, tables.Processed id ∨ id = op.id → recorded.Processed id := by
  rw [recordOperation] at done
  rcases Fallible.bind_eq_ok_iff.mp done with ⟨saved, kept, returned⟩
  cases returned
  rcases saveSession_ok kept with ⟨logged, world, _, own, others⟩
  refine ⟨world, ?_, ?_⟩
  · intro row member
    have young := (mem_filter.mp (mem_filter.mp member).1).1
    rw [logged] at young
    rcases mem_append.mp young with old | new
    · exact .inl old
    · exact .inr (mem_singleton.mp new)
  · intro id before
    change saved.Processed id
    rw [Processed]
    by_cases same : id.rootId = op.id.rootId ∧ id.sessionId = op.id.sessionId
    · rw [same.1, same.2, loadSession, own]
      apply processed_filter
      apply Session.processed_withSeq (tidy_loadSession _ _ _)
      rw [Processed, same.1, same.2] at before
      exact before.imp_right (congrArg OperationId.operationSeq)
    · rw [loadSession, others _ _ same]
      rcases before with before | rfl
      · exact before
      · exact absurd ⟨rfl, rfl⟩ same

theorem replayIn_of_processed {id : OperationId} (fingerprint : BitVec 256)
    (processed : tables.Processed id)
    (told : ¬((tables.stored id).isNone ∧ (tables.journaled id).isSome)) :
    (∃ row, tables.stored id = some row ∧
        (tables.replayIn id fingerprint = .ok (some ⟨row.result, true⟩) ∨
          tables.replayIn id fingerprint = .error .operationMismatch)) ∨
      tables.replayIn id fingerprint = .error .staleOperation := by
  rw [replayIn]
  cases found : tables.stored id with
  | some row =>
    refine .inl ⟨row, rfl, ?_⟩
    dsimp only
    split
    · exact .inr rfl
    · exact .inl rfl
  | none =>
    have undecided : (tables.journaled id).isNone = true := by
      rw [found] at told
      cases pending : tables.journaled id with
      | none => rfl
      | some row =>
        rw [pending] at told
        exact absurd ⟨rfl, rfl⟩ told
    right
    dsimp only
    rw [if_pos]
    rw [Bool.and_eq_true]
    exact ⟨processed, undecided⟩

theorem replayed_of_replayIn {id : OperationId} {fingerprint : BitVec 256}
    {answer : ApplyResult R} (replay : tables.replayIn id fingerprint = .ok (some answer)) :
    answer.replayed = true := by
  rw [replayIn] at replay
  split at replay
  · split at replay
    · cases replay
    · cases replay
      rfl
  · split at replay <;> cases replay

def reconciled (decision : Decision C R W) (tables : OperationTables R W) : OperationTables R W :=
  { tables with world := decision.reconcile tables.world }

/-- What one transaction can come to. -/
inductive Transacts (decision : Decision C R W) (tables : OperationTables R W)
    (op : Operation C) (nowMs : Int) :
    Except ApplyError (ApplyResult R × OperationTables R W) → Prop where
  | unknownRoot (error : ApplyError) (unknown : op.id.rootId ∉ tables.roots) :
      Transacts decision tables op nowMs (.error error)
  | refused (error : ApplyError)
      (refuses : tables.replayIn op.id op.fingerprint = .error error) :
      Transacts decision tables op nowMs (.error error)
  | replayed (result : R)
      (replays : tables.replayIn op.id op.fingerprint = .ok (some ⟨result, true⟩)) :
      Transacts decision tables op nowMs (.ok (⟨result, true⟩, reconciled decision tables))
  | failed (error : ApplyError)
      (proceeds : tables.replayIn op.id op.fingerprint = .ok none) :
      Transacts decision tables op nowMs (.error error)
  | decided (result : R) (world : W) (recorded : OperationTables R W)
      (known : op.id.rootId ∈ tables.roots)
      (proceeds : tables.replayIn op.id op.fingerprint = .ok none)
      (records : recordOperation { tables with world } op result nowMs = .ok recorded) :
      Transacts decision tables op nowMs (.ok (⟨result, false⟩, recorded))

theorem transacts_applyInTx (decision : Decision C R W) (tables : OperationTables R W)
    (op : Operation C) (nowMs : Int) (keepRefused : Bool) :
    Transacts decision tables op nowMs (applyInTx decision tables op nowMs keepRefused) := by
  -- The reconciliation changes nothing the replay check reads.
  have same : (reconciled decision tables).replayIn op.id op.fingerprint =
      tables.replayIn op.id op.fingerprint := rfl
  rw [applyInTx]
  dsimp only
  rw [reconciled] at same
  split
  · rename_i unknown
    exact .unknownRoot _ unknown
  · rename_i known
    rw [same]
    cases replay : tables.replayIn op.id op.fingerprint with
    | error error => exact .refused error replay
    | ok answer =>
      cases answer with
      | some answer =>
        cases answer with
        | mk result replayed =>
          cases replayed_of_replayIn replay
          exact .replayed result replay
      | none =>
        dsimp only
        split
        · exact .failed _ replay
        · rename_i result world _
          cases records : recordOperation { tables with world } op result nowMs with
          | error error => exact .failed error replay
          | ok recorded =>
            exact .decided result world recorded (not_not.mp known) replay records

theorem roots_of_recordOperation {recorded : OperationTables R W} {op : Operation C} {result : R}
    {nowMs : Int} (done : recordOperation tables op result nowMs = .ok recorded) :
    recorded.roots = tables.roots := by
  rw [recordOperation] at done
  rcases Fallible.bind_eq_ok_iff.mp done with ⟨saved, kept, returned⟩
  cases returned
  exact (saveSession_ok kept).2.2.1

end OperationTables

/-! ## Histories -/

namespace Entry

variable {R : Type} {history : List (Entry R)}

/-- What a request for an operation decided before may be answered. -/
def Answers (entry : Entry R) (result : R) : Prop :=
  entry = .replayed entry.id result ∨ entry = .refused entry.id .operationMismatch ∨
    entry = .refused entry.id .staleOperation

/-- Once an operation is decided, every later entry of it is such an answer. -/
def Settles (earlier later : Entry R) : Prop :=
  ∀ id fingerprint result, earlier = .decided id fingerprint result → later.id = id →
    later.Answers result

theorem not_answers_decided {id : OperationId} {fingerprint : BitVec 256} {result stored : R} :
    ¬(decided id fingerprint result).Answers stored := by
  rintro (⟨⟨⟩⟩ | ⟨⟨⟩⟩ | ⟨⟨⟩⟩)

theorem decides_iff {entry : Entry R} {id : OperationId} :
    entry.decides id = true ↔ ∃ fingerprint result, entry = .decided id fingerprint result := by
  cases entry with
  | decided other fingerprint result =>
    rw [decides, decide_eq_true_iff]
    constructor
    · rintro rfl
      exact ⟨_, _, rfl⟩
    · rintro ⟨_, _, ⟨⟩⟩
      rfl
  | proceeded | replayed | refused =>
    constructor
    · rintro ⟨⟩
    · rintro ⟨_, _, ⟨⟩⟩

theorem any_decides_iff {id : OperationId} : history.any (·.decides id) = true ↔
      ∃ fingerprint result, .decided id fingerprint result ∈ history := by
  rw [any_eq_true]
  constructor
  · rintro ⟨entry, member, decides⟩
    rcases decides_iff.mp decides with ⟨fingerprint, result, rfl⟩
    exact ⟨fingerprint, result, member⟩
  · rintro ⟨fingerprint, result, member⟩
    exact ⟨_, member, decides_iff.mpr ⟨_, _, rfl⟩⟩

theorem decided_unique (settled : history.Pairwise Settles) {id : OperationId}
    {fingerprint other : BitVec 256} {result stored : R}
    (here : .decided id fingerprint result ∈ history) (there : .decided id other stored ∈ history) :
    fingerprint = other ∧ result = stored := by
  induction history with
  | nil => cases here
  | cons first rest induction =>
    rw [pairwise_cons] at settled
    rcases mem_cons.mp here with head | tail
    · rcases mem_cons.mp there with same | later
      · rw [← head] at same
        cases same
        exact ⟨rfl, rfl⟩
      · exact absurd (settled.1 _ later _ _ _ head.symm rfl) not_answers_decided
    · rcases mem_cons.mp there with head | later
      · exact absurd (settled.1 _ tail _ _ _ head.symm rfl) not_answers_decided
      · exact induction settled.2 tail later

theorem length_filter_decides_le (settled : history.Pairwise Settles) (id : OperationId) :
    (history.filter (·.decides id)).length ≤ 1 := by
  induction history with
  | nil => exact Nat.zero_le _
  | cons first rest induction =>
    rw [pairwise_cons] at settled
    rw [filter_cons]
    split
    · rename_i decides
      rcases decides_iff.mp decides with ⟨fingerprint, result, rfl⟩
      have none : rest.filter (·.decides id) = [] := by
        rw [filter_eq_nil_iff]
        intro entry member again
        rcases decides_iff.mp again with ⟨_, _, rfl⟩
        exact not_answers_decided (settled.1 _ member _ _ _ rfl rfl)
      rw [none]
      exact Nat.le_refl _
    · exact induction settled.2

end Entry

/-! ## Runs -/

namespace System

variable {C R W : Type} {op : Operation C} {decision : OperationTables.Decision C R W}

/-- What every run keeps: decisions are processed, stored results are those decided, and what
follows a decision answers it. -/
structure Sound (tables : OperationTables R W) (history : List (Entry R)) : Prop where
  processed : ∀ id fingerprint result, .decided id fingerprint result ∈ history →
    tables.Processed id
  rooted : ∀ id fingerprint result, .decided id fingerprint result ∈ history →
    id.rootId ∈ tables.roots
  logged : ∀ row ∈ tables.applyLog, .decided row.id row.fingerprint row.result ∈ history
  settled : history.Pairwise Entry.Settles

theorem Sound.keep {tables after : OperationTables R W} {history : List (Entry R)}
    (sound : Sound tables history) (roots : after.roots = tables.roots)
    (log : after.applyLog = tables.applyLog) (sessions : after.sessions = tables.sessions) : Sound after history where
  processed id fingerprint result member := by
    have before := sound.processed id fingerprint result member
    rw [OperationTables.Processed, OperationTables.loadSession, OperationTables.sessionRow] at *
    rw [sessions]
    exact before
  rooted id fingerprint result member := by
    rw [roots]
    exact sound.rooted id fingerprint result member
  logged row member := sound.logged row (log ▸ member)
  settled := sound.settled

theorem Sound.record {tables : OperationTables R W} {history : List (Entry R)}
    (sound : Sound tables history) {entry : Entry R} (plain : ∀ id, entry.decides id = false)
    (answers : ∀ fingerprint result, .decided entry.id fingerprint result ∈ history →
      entry.Answers result) : Sound tables (history ++ [entry]) := by
  have old : ∀ id fingerprint result, .decided id fingerprint result ∈ history ++ [entry] →
      .decided id fingerprint result ∈ history := by
    intro id fingerprint result member
    rcases mem_append.mp member with old | new
    · exact old
    · have decides := Entry.decides_iff.mpr ⟨fingerprint, result, (mem_singleton.mp new).symm⟩
      rw [plain id] at decides
      cases decides
  constructor
  · exact fun id fingerprint result member => sound.processed id _ _ (old _ _ _ member)
  · exact fun id fingerprint result member => sound.rooted id _ _ (old _ _ _ member)
  · exact fun row member => mem_append_left _ (sound.logged row member)
  · rw [pairwise_append]
    refine ⟨sound.settled, pairwise_singleton _ _, ?_⟩
    intro earlier member later last id fingerprint result decided same
    rw [mem_singleton] at last
    subst last
    subst decided
    rw [← same] at member
    exact answers fingerprint result member

theorem Sound.replay {tables : OperationTables R W} {history : List (Entry R)}
    (sound : Sound tables history) {id : OperationId} (fingerprint : BitVec 256)
    {decidedBy : BitVec 256} {result : R} (decided : .decided id decidedBy result ∈ history)
    (told : ¬((tables.stored id).isNone ∧ (tables.journaled id).isSome)) :
    tables.replayIn id fingerprint = .ok (some ⟨result, true⟩) ∨
      tables.replayIn id fingerprint = .error .operationMismatch ∨
      tables.replayIn id fingerprint = .error .staleOperation := by
  have processed := sound.processed id _ _ decided
  rcases OperationTables.replayIn_of_processed fingerprint processed told with
    ⟨row, found, answer⟩ | stale
  · rcases OperationTables.stored_eq_some found with ⟨member, rfl⟩
    have same := (Entry.decided_unique sound.settled (sound.logged row member) decided).2
    rw [same] at answer
    exact answer.imp_right .inl
  · exact .inr (.inr stale)

theorem told_of_not_forgotten {system : System C R W} {id : OperationId}
    (remembered : system.forgotten id = false) {fingerprint : BitVec 256} {result : R}
    (decided : .decided id fingerprint result ∈ system.history) :
    ¬((system.tables.stored id).isNone ∧ (system.tables.journaled id).isSome) := by
  rintro ⟨expired, pending⟩
  rw [forgotten, Entry.any_decides_iff.mpr ⟨_, _, decided⟩, expired, pending] at remembered
  cases remembered

section Answers

variable {system : System C R W} {id : OperationId} {fingerprint : BitVec 256}

section

variable (sound : Sound system.tables system.history)

include sound

theorem Sound.undecided
    (remembered : system.forgotten id = false)
    (proceeds : system.tables.replayIn id fingerprint = .ok none) (decidedBy : BitVec 256)
    (result : R) : .decided id decidedBy result ∉ system.history := by
  intro decided
  have answer := sound.replay fingerprint decided
    (told_of_not_forgotten remembered decided)
  rw [proceeds] at answer
  rcases answer with ⟨⟨⟩⟩ | ⟨⟨⟩⟩ | ⟨⟨⟩⟩

theorem Sound.fresh
    (undecided : ∀ decidedBy result, .decided id decidedBy result ∉ system.history)
    {entry : Entry R} (own : entry.id = id) (plain : ∀ id, entry.decides id = false) :
    Sound system.tables (system.history ++ [entry]) := by
  apply sound.record plain
  intro decidedBy result decided
  rw [own] at decided
  exact absurd decided (undecided _ _)

theorem Sound.refused
    (remembered : system.forgotten id = false) {error : ApplyError}
    (refuses : system.tables.replayIn id fingerprint = .error error) :
    Sound system.tables (system.history ++ [Entry.refused id error]) := by
  apply sound.record fun _ => rfl
  intro decidedBy result (decided : .decided id decidedBy result ∈ system.history)
  have answer := sound.replay fingerprint decided
    (told_of_not_forgotten remembered decided)
  rw [refuses] at answer
  rcases answer with ⟨⟨⟩⟩ | ⟨⟨⟩⟩ | ⟨⟨⟩⟩
  · exact .inr (.inl rfl)
  · exact .inr (.inr rfl)

theorem Sound.replayed
    (remembered : system.forgotten id = false) {answer : ApplyResult R}
    (replays : system.tables.replayIn id fingerprint = .ok (some answer)) :
    Sound system.tables (system.history ++ [Entry.replayed id answer.stored]) := by
  apply sound.record fun _ => rfl
  intro decidedBy result (decided : .decided id decidedBy result ∈ system.history)
  have stored := sound.replay fingerprint decided
    (told_of_not_forgotten remembered decided)
  rw [replays] at stored
  rcases stored with ⟨⟨⟩⟩ | ⟨⟨⟩⟩ | ⟨⟨⟩⟩
  exact .inl rfl

end

end Answers

theorem Sound.check {system : System C R W} (sound : Sound system.tables system.history)
    (remembered : system.forgotten op.id = false) (request : Nat) (upload : Option String) :
    Sound (system.check request op upload).tables (system.check request op upload).history := by
  rw [System.check]
  split
  · exact sound.record (fun _ => rfl) fun _ _ _ => .inr (.inr rfl)
  · split
    · rename_i refuses
      exact sound.refused remembered refuses
    · rename_i replays
      exact sound.replayed remembered replays
    · rename_i proceeds
      exact sound.fresh (sound.undecided remembered proceeds) rfl fun _ => rfl

theorem Sound.decided {system : System C R W} (sound : Sound system.tables system.history)
    (known : op.id.rootId ∈ system.tables.roots)
    (undecided : ∀ decidedBy result, .decided op.id decidedBy result ∉ system.history) {world : W}
    {result : R} {nowMs : Int} {recorded : OperationTables R W}
    (records : OperationTables.recordOperation { system.tables with world } op result nowMs =
      .ok recorded) :
    Sound recorded (system.history ++ [Entry.decided op.id op.fingerprint result]) := by
  rcases OperationTables.recordOperation_ok records with ⟨_, log, processed⟩
  constructor
  · intro id fingerprint stored member
    apply processed
    rcases mem_append.mp member with old | new
    · exact .inl (sound.processed id fingerprint stored old)
    · cases mem_singleton.mp new
      exact .inr rfl
  · intro id fingerprint stored member
    rw [OperationTables.roots_of_recordOperation records]
    rcases mem_append.mp member with old | new
    · exact sound.rooted id fingerprint stored old
    · cases mem_singleton.mp new
      exact known
  · intro row member
    rcases log row member with old | rfl
    · exact mem_append_left _ (sound.logged row old)
    · exact mem_append_right _ (.head _)
  · rw [pairwise_append]
    refine ⟨sound.settled, pairwise_singleton _ _, ?_⟩
    intro earlier member later last id fingerprint stored decided same
    rw [mem_singleton] at last
    subst last
    subst decided
    cases same
    exact absurd member (undecided _ _)

theorem Sound.transact {system : System C R W} (sound : Sound system.tables system.history)
    (remembered : system.forgotten op.id = false) (request : Nat) (nowMs : Int)
    (keepRefused : Bool) :
    Sound (system.transact decision request op nowMs keepRefused).tables
      (system.transact decision request op nowMs keepRefused).history := by
  have outcome := OperationTables.transacts_applyInTx decision system.tables op nowMs keepRefused
  rw [System.transact]
  generalize OperationTables.applyInTx decision system.tables op nowMs keepRefused = result
    at outcome ⊢
  cases outcome with
  | unknownRoot error unknown =>
    apply sound.fresh _ rfl fun _ => rfl
    exact fun decidedBy result decided => unknown (sound.rooted _ _ _ decided)
  | refused error refuses => exact sound.refused remembered refuses
  | replayed result replays => exact (sound.replayed remembered replays).keep rfl rfl rfl
  | failed error proceeds =>
    exact sound.fresh (sound.undecided remembered proceeds) rfl fun _ => rfl
  | decided result world recorded known proceeds records =>
    exact sound.decided known (sound.undecided remembered proceeds) records

theorem journalUpload_some {tables after : OperationTables R W} {files : String → UploadFile}
    {upload : Option String} (done : journalUpload tables op files = some (upload, after)) :
    after.roots = tables.roots ∧ after.applyLog = tables.applyLog ∧
      after.sessions = tables.sessions ∧ after.world = tables.world := by
  rw [journalUpload] at done
  split at done
  · cases done
    exact ⟨rfl, rfl, rfl, rfl⟩
  · split at done
    · cases done
      exact ⟨rfl, rfl, rfl, rfl⟩
    · split at done
      · cases done
        exact ⟨rfl, rfl, rfl, rfl⟩
      · split at done
        · cases done
          exact ⟨rfl, rfl, rfl, rfl⟩
        · split at done
          · cases done
            exact ⟨rfl, rfl, rfl, rfl⟩
          · cases done

/-- What one step of one request can be. -/
inductive Moves (decision : OperationTables.Decision C R W) (system : System C R W) :
    Event C → System C R W → Prop where
  | quiet (event : Event C) (next : System C R W) (roots : next.tables.roots = system.tables.roots)
      (log : next.tables.applyLog = system.tables.applyLog)
      (sessions : next.tables.sessions = system.tables.sessions)
      (world : next.tables.world = system.tables.world)
      (history : next.history = system.history) : Moves decision system event next
  | check (request : Nat) (op : Operation C) (upload : Option String)
      (found : system.requests[request]? = some ⟨op, .journaled upload⟩) :
      Moves decision system (.check request) (system.check request op upload)
  | apply (request : Nat) (op : Operation C) (nowMs : Int)
      (found : system.requests[request]? = some ⟨op, .ingested nowMs⟩) :
      Moves decision system (.apply request) (system.transact decision request op nowMs false)
  | keep (request : Nat) (op : Operation C) (nowMs : Int)
      (found : system.requests[request]? = some ⟨op, .refused nowMs⟩) :
      Moves decision system (.keep request) (system.transact decision request op nowMs true)

theorem moves_of_step {system next : System C R W} {event : Event C}
    (taken : system.step decision event = some next) : Moves decision system event next := by
  cases event with
  | arrive op =>
    cases taken
    exact .quiet _ _ rfl rfl rfl rfl rfl
  | journal request files =>
    rw [step] at taken
    split at taken
    · split at taken
      · cases taken
        exact .quiet _ _ rfl rfl rfl rfl rfl
      · rename_i journaled
        cases taken
        rcases journalUpload_some journaled with ⟨roots, log, sessions, world⟩
        exact .quiet _ _ roots log sessions world rfl
    · cases taken
  | check request =>
    rw [step] at taken
    split at taken
    · rename_i found
      cases taken
      exact .check _ _ _ found
    · cases taken
  | clear request =>
    rw [step] at taken
    split at taken
    · cases taken
      exact .quiet _ _ rfl rfl rfl rfl rfl
    · cases taken
  | ingest request nowMs =>
    rw [step] at taken
    split at taken
    · cases taken
      exact .quiet _ _ rfl rfl rfl rfl rfl
    · cases taken
  | apply request =>
    rw [step] at taken
    split at taken
    · rename_i found
      cases taken
      exact .apply _ _ _ found
    · cases taken
  | keep request =>
    rw [step] at taken
    split at taken
    · rename_i found
      cases taken
      exact .keep _ _ _ found
    · cases taken
  | fail request =>
    cases taken
    exact .quiet _ _ rfl rfl rfl rfl rfl

theorem Sound.step {system next : System C R W} {event : Event C}
    (sound : Sound system.tables system.history) (remembered : system.Remembered event)
    (taken : system.step decision event = some next) : Sound next.tables next.history := by
  cases moves_of_step taken with
  | quiet _ _ roots log sessions _ history =>
    rw [history]
    exact sound.keep roots log sessions
  | check request op upload found =>
    rw [Remembered, found, Option.all_some, Bool.not_eq_true'] at remembered
    exact sound.check remembered request upload
  | apply request op nowMs found =>
    rw [Remembered, found, Option.all_some, Bool.not_eq_true'] at remembered
    exact sound.transact remembered request nowMs false
  | keep request op nowMs found =>
    rw [Remembered, found, Option.all_some, Bool.not_eq_true'] at remembered
    exact sound.transact remembered request nowMs true

theorem world_step {system next : System C R W} {event : Event C}
    (taken : system.step decision event = some next) :
    next.tables.world = system.tables.world ∨
      next.tables.world = decision.reconcile system.tables.world ∨
      ∃ id fingerprint result, next.history = system.history ++ [Entry.decided id fingerprint result] := by
  have transacted : ∀ request op nowMs keepRefused,
      (system.transact decision request op nowMs keepRefused).tables.world = system.tables.world ∨
        (system.transact decision request op nowMs keepRefused).tables.world =
          decision.reconcile system.tables.world ∨
        ∃ id fingerprint result, (system.transact decision request op nowMs keepRefused).history =
          system.history ++ [Entry.decided id fingerprint result] := by
    intro request op nowMs keepRefused
    have outcome := OperationTables.transacts_applyInTx decision system.tables op nowMs keepRefused
    rw [System.transact]
    generalize OperationTables.applyInTx decision system.tables op nowMs keepRefused = result
      at outcome ⊢
    cases outcome with
    | unknownRoot | refused | failed => exact .inl rfl
    | replayed => exact .inr (.inl rfl)
    | decided result => exact .inr (.inr ⟨_, _, _, rfl⟩)
  cases moves_of_step taken with
  | quiet _ _ _ _ _ world _ => exact .inl world
  | check request op upload found =>
    left
    rw [System.check]
    split
    · rfl
    · split <;> rfl
  | apply request op nowMs found => exact transacted request op nowMs false
  | keep request op nowMs found => exact transacted request op nowMs true

theorem sound_run {roots : List String} {world : W} {events : List (Event C)}
    {system : System C R W}
    (along : Machine.Along (step decision) Remembered (start roots world) events)
    (ran : Machine.run (step decision) (start roots world) events = some system) :
    Sound system.tables system.history := by
  have started : Sound (start (C := C) (R := R) roots world).tables
      (start (C := C) (R := R) roots world).history := by
    constructor
    · rintro _ _ _ ⟨⟩
    · rintro _ _ _ ⟨⟩
    · rintro _ ⟨⟩
    · exact .nil
  refine @Machine.invariant_run _ _ _ _ (fun system => Sound system.tables system.history) ?_ _ _ _
    started along ran
  exact fun _ _ _ sound remembered taken => sound.step remembered taken

/-- While no replay check comes upon a decision whose result has been pruned and whose
journal row passes it for undecided: each operation is decided once at most, every later
answer of it is the stored result, a mismatch or a stale operation, and only a decision
authors anything. -/
theorem operations_take_effect_once (decision : OperationTables.Decision C R W)
    (roots : List String) (world : W) (events : List (Event C)) (system : System C R W)
    (along : Machine.Along (step decision) Remembered (start roots world) events)
    (ran : Machine.run (step decision) (start roots world) events = some system) :
    (∀ id, (system.history.filter (·.decides id)).length ≤ 1) ∧
      (∀ earlier id fingerprint result later,
        system.history = earlier ++ Entry.decided id fingerprint result :: later →
        ∀ entry ∈ later, entry.id = id → entry.Answers result) ∧
      ∀ event next, system.step decision event = some next →
        next.tables.world = system.tables.world ∨
          next.tables.world = decision.reconcile system.tables.world ∨
          ∃ id fingerprint result,
            next.history = system.history ++ [Entry.decided id fingerprint result] := by
  have sound := sound_run along ran
  refine ⟨Entry.length_filter_decides_le sound.settled, ?_, fun _ _ => world_step⟩
  intro earlier id fingerprint result later split entry member same
  have settled := sound.settled
  rw [split, List.pairwise_append, List.pairwise_cons] at settled
  exact settled.2.1.1 entry member id fingerprint result rfl same

/-! ## A retry after its result was pruned -/

def counting : OperationTables.Decision Unit Nat Nat :=
  ⟨id, fun applied _ _ => .ok (applied, applied + 1)⟩

/-- A create that uploads a copy, as it is sent and sent again. -/
def upload : Operation Unit :=
  ⟨⟨"root", [7], 1⟩, 0, .create, some "copy", ()⟩

def wholeRequest (op : Operation Unit) (request : Nat) (nowMs : Int) : List (Event Unit) :=
  [.arrive op, .journal request fun _ => .verified, .check request, .ingest request nowMs,
    .apply request]

/-- The retry of a decided operation is answered from the log. -/
def retriedAtOnce : List (Event Unit) :=
  wholeRequest upload 0 0 ++
    [Event.arrive upload, .journal 1 fun _ => .verified, .check 1, .clear 1]

theorem retry_takes_effect_once :
    ∃ system, Machine.run (step counting) (start ["root"] 0) retriedAtOnce = some system ∧
      system.history = [.proceeded upload.id, .decided upload.id 0 0, .replayed upload.id 0] ∧
      (system.history.filter (·.decides upload.id)).length ≤ 1 := by
  cases ran : Machine.run (step counting) (start ["root"] 0) retriedAtOnce with
  | none =>
    have ends : (Machine.run (step counting) (start ["root"] 0) retriedAtOnce).isSome = true := by
      decide
    rw [ran] at ends
    cases ends
  | some system =>
    have told : (Machine.run (step counting) (start ["root"] 0) retriedAtOnce).map (·.history) =
        some [.proceeded upload.id, .decided upload.id 0 0, .replayed upload.id 0] := by
      decide
    rw [ran] at told
    refine ⟨system, rfl, Option.some_inj.mp told, ?_⟩
    apply (operations_take_effect_once counting ["root"] 0 retriedAtOnce system _ ran).1
    decide

/-- Another operation a day later prunes the result; the retry then journals its upload,
proceeds, and is decided a second time. -/
theorem pruned_operation_decided_again : (Machine.run (step counting) (start ["root"] 0)
      (wholeRequest upload 0 0 ++ wholeRequest { upload with id := ⟨"root", [7], 2⟩ } 1 90000000 ++
        wholeRequest upload 2 90000001)).map
      (fun system => (system.history.filter (·.decides upload.id)).length) = some 2 := by
  decide

end System

end Yadorilink.Provider
