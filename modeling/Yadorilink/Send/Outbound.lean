import Yadorilink.Foundation.RunRelations
import Yadorilink.Foundation.Stages
import Yadorilink.Send.Manifest

/-! The sender's side of a transfer. A call of `offer_send` looks for a row of its source and
target, or records a new one, dials the target, and writes what the target answered over the
row's status. Calls run side by side, one step at a time. -/

namespace Yadorilink.Send

open Machine List Option

/-! ## The store -/

inductive OutboundStatus where
  | offered
  | acked
  | rejected
deriving DecidableEq

def OutboundStatus.ofAnswer (accepted : Bool) : OutboundStatus :=
  if accepted then .acked else .rejected

abbrev SigningKey := BitVec 256

structure OutboundTransfer where
  transferId : String
  targetDeviceId : String
  targetSigningKey : SigningKey
  sourcePath : String
  manifest : SendManifest
  status : OutboundStatus
  createdAtUnixNanos : Int
deriving DecidableEq

/-- The table of outbound transfers; `transfer_id` is its primary key. -/
abbrev OutboundTable := List OutboundTransfer

namespace OutboundTable

def getOutbound (table : OutboundTable) (transferId : String) : Option OutboundTransfer :=
  table.find? fun row => decide (row.transferId = transferId)

def offersOf (table : OutboundTable) (sourcePath targetDeviceId : String) : OutboundTable :=
  table.filter fun row =>
    row.sourcePath = sourcePath ∧ row.targetDeviceId = targetDeviceId ∧ row.status ≠ .rejected

/-- The rows `find_outbound_by_source_and_target` may give: the newest that are not rejected. -/
def newestOffers (table : OutboundTable) (sourcePath targetDeviceId : String) : OutboundTable :=
  (table.offersOf sourcePath targetDeviceId).filter fun row =>
    (table.offersOf sourcePath targetDeviceId).all fun other =>
      other.createdAtUnixNanos ≤ row.createdAtUnixNanos

/-- A row of an id that is there already is refused. -/
def insertOutboundOffered (table : OutboundTable) (row : OutboundTransfer) :
    Option OutboundTable :=
  if (table.getOutbound row.transferId).isSome then none
  else some (table ++ [{ row with status := .offered }])

/-- `mark_outbound_acked` and `mark_outbound_rejected`, whatever the status was. -/
def markOutbound (table : OutboundTable) (transferId : String) (status : OutboundStatus) :
    OutboundTable :=
  table.map fun row => if row.transferId = transferId then { row with status } else row

end OutboundTable

/-! ## Calls -/

structure ResolvedDevice where
  deviceId : String
  signingKey : SigningKey
deriving DecidableEq

/-- How far a call of `offer_send` has come. -/
inductive OfferStage where
  /-- A grant for the target is there, and the source's canonical path. -/
  | granted (sourcePath : String) (target : ResolvedDevice)
  /-- No row was found; the source is chunked and recorded next. -/
  | building (sourcePath : String) (target : ResolvedDevice)
  /-- The row's offer is made. -/
  | dialing (transferId : String)
  | answered (transferId : String) (accepted : Bool)
  | ended
deriving DecidableEq

def OfferStage.transfer? : OfferStage → Option String
  | .dialing transferId | .answered transferId _ => some transferId
  | _ => none

/-- The store, the calls in the order they were made, and the answers written so far. -/
structure SendService where
  outbound : OutboundTable
  calls : List OfferStage
  verdicts : List (String × Bool)
deriving DecidableEq

/-- One step of one call. A call may fail anywhere (a grant refused, a source that cannot be
read, a lost connection, a crash); what it has recorded stays. -/
inductive OfferEvent where
  | offerSend (sourcePath : String) (target : ResolvedDevice)
  /-- `pick` says which of the newest rows the query gives, where several are as new. -/
  | lookup (call : Nat) (pick : Nat)
  | insert (call : Nat) (transferId : String) (manifest : SendManifest) (createdAt : Int)
  | answer (call : Nat) (accepted : Bool)
  | record (call : Nat)
  | fail (call : Nat)

namespace SendService

def new : SendService := ⟨[], [], []⟩

def setCall (service : SendService) (call : Nat) (stage : OfferStage) : SendService :=
  { service with calls := service.calls.set call stage }

/-- One step of the call numbered `call`, which is in the stage `stage`. -/
def stepCall (service : SendService) (call : Nat) : OfferEvent → OfferStage → Option SendService
  | .lookup _ pick, .granted sourcePath target =>
    match service.outbound.newestOffers sourcePath target.deviceId with
    | [] => some (service.setCall call (.building sourcePath target))
    | rows => (rows[pick]?).map fun row => service.setCall call (.dialing row.transferId)
  | .insert _ transferId manifest createdAt, .building sourcePath target =>
    match service.outbound.insertOutboundOffered ⟨transferId, target.deviceId,
        target.signingKey, sourcePath, manifest, .offered, createdAt⟩ with
    | none => some (service.setCall call .ended)
    | some outbound => some ({ service with outbound }.setCall call (.dialing transferId))
  | .answer _ accepted, .dialing transferId =>
    some (service.setCall call (.answered transferId accepted))
  | .record _, .answered transferId accepted =>
    some ({ service with
      outbound := service.outbound.markOutbound transferId (.ofAnswer accepted)
      verdicts := service.verdicts ++ [(transferId, accepted)] }.setCall call .ended)
  | .fail _, _ => some (service.setCall call .ended)
  | _, _ => none

def step (service : SendService) (event : OfferEvent) : Option SendService :=
  match event with
  | .offerSend sourcePath target =>
    some { service with calls := service.calls ++ [.granted sourcePath target] }
  | .lookup call _ | .insert call _ _ _ | .answer call _ | .record call | .fail call =>
    (service.calls[call]?).bind (service.stepCall call event)

/-! ## Pulls -/

structure ChunkPullRequest where
  transferId : String
  fileIndex : Nat
  startChunkIndex : Nat

/-- `handle_pull` up to the first chunk: the chunks it goes on to serve. -/
def handlePull (service : SendService) (peerKey : SigningKey) (pull : ChunkPullRequest) :
    Except String (List (List UInt8)) :=
  match service.outbound.getOutbound pull.transferId with
  | none => .error "unknown transfer id"
  | some outbound =>
    if outbound.targetSigningKey ≠ peerKey then .error "not the device this was offered to"
    else if outbound.status ≠ .acked then .error "offer was not accepted; nothing to pull"
    else
      match outbound.manifest.files[pull.fileIndex]? with
      | none => .error "file index out of range"
      | some entry =>
        if pull.startChunkIndex ≥ entry.chunkHashes.length % 2 ^ 32 then
          .error "start chunk index out of range"
        else .ok ((entry.chunkHashes.take (entry.chunkHashes.length % 2 ^ 32)).drop
          pull.startChunkIndex)

end SendService

/-! ## Reading the table -/

variable {row : OutboundTransfer}

namespace OutboundTable

variable {table next : OutboundTable}

theorem getOutbound_insert (inserted : table.insertOutboundOffered row = some next)
    (transferId : String) :
    table.getOutbound row.transferId = none ∧ next.getOutbound transferId =
        if transferId = row.transferId then some { row with status := .offered }
        else table.getOutbound transferId := by
  rw [insertOutboundOffered] at inserted
  split at inserted
  · cases inserted
  · rename_i unused
    have fresh : table.getOutbound row.transferId = none := by simpa using unused
    cases inserted
    refine ⟨fresh, ?_⟩
    rw [getOutbound, find?_append]
    by_cases same : transferId = row.transferId
    · subst same
      rw [getOutbound] at fresh
      simp [fresh]
    · have differs : ¬row.transferId = transferId := fun equal => same equal.symm
      simp [same, differs, getOutbound]

theorem getOutbound_mark (table : OutboundTable) (marked transferId : String)
    (status : OutboundStatus) :
    (table.markOutbound marked status).getOutbound transferId =
      (table.getOutbound transferId).map fun row =>
        if transferId = marked then { row with status } else row := by
  induction table with
  | nil => rfl
  | cons first rest induction =>
    have ids : (if first.transferId = marked then { first with status } else first).transferId =
        first.transferId := by
      split <;> rfl
    rw [markOutbound, map_cons, getOutbound, find?_cons, ids, getOutbound,
      find?_cons]
    by_cases here : first.transferId = transferId
    · simp [here]
    · rw [markOutbound, getOutbound, getOutbound] at induction
      simp [here, induction]

end OutboundTable

namespace SendService

/-! ## What a step does to the rows -/

variable {service next : SendService} {event : OfferEvent}

/-- Rows stay, but for their status; the answers written stay. -/
structure Grows (earlier later : SendService) : Prop where
  rows : ∀ id row, earlier.outbound.getOutbound id = some row →
    ∃ status, later.outbound.getOutbound id = some { row with status }
  verdicts : ∀ verdict ∈ earlier.verdicts, verdict ∈ later.verdicts

theorem Grows.refl (service : SendService) : service.Grows service :=
  ⟨fun _ row found => ⟨row.status, found⟩, fun _ member => member⟩

theorem Grows.trans {first second third : SendService} (earlier : first.Grows second)
    (later : second.Grows third) : first.Grows third where
  rows := by
    intro id row found
    rcases earlier.rows id row found with ⟨status, middle⟩
    rcases later.rows id _ middle with ⟨last, ends⟩
    exact ⟨last, ends⟩
  verdicts := fun verdict member => later.verdicts verdict (earlier.verdicts verdict member)

/-- The transfers that calls are at work on are in the table. -/
def Placed (service : SendService) : Prop :=
  ∀ stage ∈ service.calls, ∀ id, stage.transfer? = some id →
    (service.outbound.getOutbound id).isSome = true

/-- The ways a step changes the service: a call moves, a fresh row is recorded, or an answer is
written over the status of a row. -/
inductive Changes (service : SendService) : SendService → Prop where
  | moved (calls : List OfferStage)
      (placed : service.Placed → ({ service with calls } : SendService).Placed) :
      Changes service { service with calls }
  | inserted (row : OutboundTransfer) (outbound : OutboundTable) (call : Nat)
      (recorded : service.outbound.insertOutboundOffered row = some outbound) :
      Changes service ({ service with outbound }.setCall call (.dialing row.transferId))
  | written (call : Nat) (transferId : String) (accepted : Bool)
      (answered : .answered transferId accepted ∈ service.calls) :
      Changes service ({ service with
        outbound := service.outbound.markOutbound transferId (.ofAnswer accepted)
        verdicts := service.verdicts ++ [(transferId, accepted)] }.setCall call .ended)

theorem Changes.setCall {call : Nat} {stage : OfferStage}
    (placed : service.Placed → ∀ id, stage.transfer? = some id →
      (service.outbound.getOutbound id).isSome = true) :
    service.Changes (service.setCall call stage) :=
  .moved (service.calls.set call stage) fun before => Stages.forall_set before (placed before)

theorem mem_of_mem_newestOffers {table : OutboundTable} {sourcePath targetDeviceId : String}
    (member : row ∈ table.newestOffers sourcePath targetDeviceId) : row ∈ table := by
  rw [OutboundTable.newestOffers, OutboundTable.offersOf] at member
  exact (mem_filter.mp (mem_filter.mp member).1).1

theorem isSome_getOutbound_of_mem {table : OutboundTable} (member : row ∈ table) :
    (table.getOutbound row.transferId).isSome = true := by
  rw [OutboundTable.getOutbound, find?_isSome]
  exact ⟨row, member, by simp⟩

theorem changes_stepCall {call : Nat} {stage : OfferStage}
    (found : service.calls[call]? = some stage)
    (taken : service.stepCall call event stage = some next) : service.Changes next := by
  have there := mem_of_getElem? found
  cases event with
  | offerSend sourcePath target => cases taken
  | lookup _ pick =>
    cases stage with
    | granted sourcePath target =>
      simp only [stepCall] at taken
      split at taken
      · cases taken
        exact .setCall fun _ id named => by cases named
      · rcases map_eq_some_iff.mp taken with ⟨row, chosen, rfl⟩
        apply Changes.setCall
        intro _ id named
        cases named
        exact isSome_getOutbound_of_mem
          (mem_of_mem_newestOffers (mem_of_getElem? chosen))
    | _ => cases taken
  | insert _ transferId manifest createdAt =>
    cases stage with
    | building sourcePath target =>
      simp only [stepCall] at taken
      split at taken
      · cases taken
        exact .setCall fun _ id named => by cases named
      · rename_i outbound recorded
        cases taken
        exact .inserted _ outbound call recorded
    | _ => cases taken
  | answer _ accepted =>
    cases stage with
    | dialing transferId =>
      cases taken
      apply Changes.setCall
      intro placed id named
      cases named
      exact placed _ there transferId rfl
    | _ => cases taken
  | record _ =>
    cases stage with
    | answered transferId accepted =>
      cases taken
      exact .written call transferId accepted there
    | _ => cases taken
  | fail _ =>
    cases taken
    exact .setCall fun _ id named => by cases named

theorem changes_step (taken : service.step event = some next) : service.Changes next := by
  cases event with
  | offerSend sourcePath target =>
    cases taken
    apply Changes.moved
    intro placed stage member
    rcases mem_append.mp member with old | new
    · exact placed stage old
    · cases mem_singleton.mp new
      intro id named
      cases named
  | lookup call _ | insert call _ _ _ | answer call _ | record call | fail call =>
    rcases bind_eq_some_iff.mp taken with ⟨stage, found, moved⟩
    exact changes_stepCall found moved

theorem Changes.grows (changes : service.Changes next) : service.Grows next := by
  cases changes with
  | moved calls placed => exact ⟨(Grows.refl service).rows, fun _ member => member⟩
  | inserted row outbound call recorded =>
    refine ⟨?_, fun _ member => member⟩
    intro id old found
    rcases OutboundTable.getOutbound_insert recorded id with ⟨fresh, read⟩
    refine ⟨old.status, ?_⟩
    change outbound.getOutbound id = _
    rw [read, if_neg, found]
    rintro rfl
    rw [found] at fresh
    cases fresh
  | written call transferId accepted answered =>
    refine ⟨?_, fun _ member => mem_append_left _ member⟩
    intro id old found
    refine ⟨if id = transferId then .ofAnswer accepted else old.status, ?_⟩
    change (service.outbound.markOutbound transferId _).getOutbound id = _
    rw [OutboundTable.getOutbound_mark, found, map_some]
    split <;> rfl

theorem Changes.placed (changes : service.Changes next) (placed : service.Placed) :
    next.Placed := by
  have still : ∀ stage ∈ service.calls, ∀ id, stage.transfer? = some id →
      (next.outbound.getOutbound id).isSome = true := by
    intro stage member id named
    rcases isSome_iff_exists.mp (placed stage member id named) with ⟨row, found⟩
    rcases changes.grows.rows id row found with ⟨status, kept⟩
    rw [kept]
    rfl
  cases changes with
  | moved calls moves => exact moves placed
  | inserted row outbound call recorded =>
    apply Stages.forall_set still
    intro id named
    cases named
    change (outbound.getOutbound row.transferId).isSome = true
    rw [(OutboundTable.getOutbound_insert recorded row.transferId).2, if_pos rfl]
    rfl
  | written call transferId accepted answered =>
    apply Stages.forall_set still
    intro id named
    cases named

/-- A row's status is an answer written to it, or none was. -/
def Tracked (service : SendService) : Prop :=
  ∀ id row, service.outbound.getOutbound id = some row →
    (row.status = .offered ∧ ∀ accepted, (id, accepted) ∉ service.verdicts) ∨
      ∃ accepted, (id, accepted) ∈ service.verdicts ∧ row.status = .ofAnswer accepted

/-- The answers written are for rows that are there. -/
def Answered (service : SendService) : Prop :=
  ∀ verdict ∈ service.verdicts, (service.outbound.getOutbound verdict.1).isSome = true

theorem Changes.answered (changes : service.Changes next) (placed : service.Placed)
    (answered : service.Answered) : next.Answered := by
  have still : ∀ id, (service.outbound.getOutbound id).isSome = true →
      (next.outbound.getOutbound id).isSome = true := by
    intro id present
    rcases isSome_iff_exists.mp present with ⟨row, found⟩
    rcases changes.grows.rows id row found with ⟨status, kept⟩
    rw [kept]
    rfl
  intro verdict member
  cases changes with
  | moved calls moves => exact still _ (answered verdict member)
  | inserted row outbound call recorded => exact still _ (answered verdict member)
  | written call transferId accepted asked =>
    rcases mem_append.mp member with old | new
    · exact still _ (answered verdict old)
    · cases mem_singleton.mp new
      exact still _ (placed _ asked transferId rfl)

theorem Changes.tracked (changes : service.Changes next) (answered : service.Answered)
    (tracked : service.Tracked) : next.Tracked := by
  intro id row found
  cases changes with
  | moved calls moves => exact tracked id row found
  | inserted fresh outbound call recorded =>
    rcases OutboundTable.getOutbound_insert recorded id with ⟨unused, read⟩
    change outbound.getOutbound id = some row at found
    rw [read] at found
    split at found
    · rename_i same
      cases found
      refine .inl ⟨rfl, ?_⟩
      intro accepted written
      have present := answered _ written
      rw [same, unused] at present
      cases present
    · exact tracked id row found
  | written call transferId accepted asked =>
    change (service.outbound.markOutbound transferId _).getOutbound id = some row at found
    rw [OutboundTable.getOutbound_mark] at found
    rcases map_eq_some_iff.mp found with ⟨old, before, rfl⟩
    by_cases same : id = transferId
    · subst same
      refine .inr ⟨accepted, mem_append_right _ (.head _), ?_⟩
      rw [if_pos rfl]
    · rw [if_neg same]
      rcases tracked id old before with ⟨offered, none⟩ | ⟨earlier, written, status⟩
      · refine .inl ⟨offered, ?_⟩
        intro other member
        rcases mem_append.mp member with there | new
        · exact none other there
        · cases mem_singleton.mp new
          exact same rfl
      · exact .inr ⟨earlier, mem_append_left _ written, status⟩

/-- What every interleaving of calls keeps. -/
structure Sound (service : SendService) : Prop where
  placed : service.Placed
  answered : service.Answered
  tracked : service.Tracked

theorem sound_new : new.Sound where
  placed := by
    intro stage member
    cases member
  answered := by
    intro verdict member
    cases member
  tracked := by
    intro id row found
    cases found

theorem Sound.step (sound : service.Sound) (taken : service.step event = some next) :
    next.Sound := by
  have changes := changes_step taken
  exact {
    placed := changes.placed sound.placed
    answered := changes.answered sound.placed sound.answered
    tracked := changes.tracked sound.answered sound.tracked }

/-! ## Verdicts -/

/-- What is decided at the earlier time is decided the same way at the later one: an accepted
transfer is served to its receiver as before, and nothing of a rejected one is served. -/
structure Final (earlier later : SendService) : Prop where
  acked : ∀ id row, earlier.outbound.getOutbound id = some row → row.status = .acked →
    (∃ kept, later.outbound.getOutbound id = some kept ∧ kept.status = .acked) ∧
      ∀ fileIndex startChunkIndex,
        later.handlePull row.targetSigningKey ⟨id, fileIndex, startChunkIndex⟩ =
          earlier.handlePull row.targetSigningKey ⟨id, fileIndex, startChunkIndex⟩
  rejected : ∀ id row, earlier.outbound.getOutbound id = some row → row.status = .rejected →
    (∃ kept, later.outbound.getOutbound id = some kept ∧ kept.status = .rejected) ∧
      ∀ peerKey fileIndex startChunkIndex, ∃ reason,
        later.handlePull peerKey ⟨id, fileIndex, startChunkIndex⟩ = .error reason

theorem handlePull_of_not_acked {id : String} (found : service.outbound.getOutbound id = some row)
    (refused : row.status ≠ .acked) (peerKey : SigningKey) (fileIndex startChunkIndex : Nat) :
    ∃ reason, service.handlePull peerKey ⟨id, fileIndex, startChunkIndex⟩ = .error reason := by
  simp only [handlePull, found]
  split
  · exact ⟨_, rfl⟩
  · exact ⟨_, rfl⟩

theorem final_of_status {earlier later : SendService} (grows : earlier.Grows later)
    (kept : ∀ id row status, earlier.outbound.getOutbound id = some row → row.status ≠ .offered →
      later.outbound.getOutbound id = some { row with status } → status = row.status) :
    earlier.Final later := by
  have same : ∀ id row, earlier.outbound.getOutbound id = some row → row.status ≠ .offered →
      later.outbound.getOutbound id = some row := by
    intro id row found decided
    rcases grows.rows id row found with ⟨status, there⟩
    have unchanged := kept id row status found decided there
    rw [there, unchanged]
  constructor
  · intro id row found acked
    have there := same id row found (by rw [acked]; decide)
    refine ⟨⟨row, there, acked⟩, ?_⟩
    intro fileIndex startChunkIndex
    simp only [handlePull, found, there]
  · intro id row found rejected
    have there := same id row found (by rw [rejected]; decide)
    exact ⟨⟨row, there, rejected⟩, handlePull_of_not_acked there (by rw [rejected]; decide)⟩

theorem OutboundStatus.ofAnswer_injective {first second : Bool}
    (same : OutboundStatus.ofAnswer first = .ofAnswer second) : first = second := by
  cases first <;> cases second <;> first | rfl | cases same

theorem final_of_agreeing {earlier later : SendService} (before : earlier.Sound)
    (after : later.Sound) (grows : earlier.Grows later)
    (agree : ∀ first ∈ later.verdicts, ∀ second ∈ later.verdicts, first.1 = second.1 →
      first.2 = second.2) : earlier.Final later := by
  apply final_of_status grows
  intro id row status found decided there
  rcases before.tracked id row found with ⟨offered, _⟩ | ⟨answer, written, asWritten⟩
  · exact absurd offered decided
  · have still := grows.verdicts _ written
    rcases after.tracked id _ there with ⟨_, none⟩ | ⟨later, rewritten, asRewritten⟩
    · exact absurd still (none answer)
    · have equal : answer = later := agree _ still _ rewritten rfl
      subst equal
      exact asRewritten.trans asWritten.symm

def Shown (service : SendService) : Prop :=
  ∀ verdict ∈ service.verdicts, ∀ row,
    service.outbound.getOutbound verdict.1 = some row → row.status = .ofAnswer verdict.2

theorem Shown.of_final (shown : service.Shown) (sound : service.Sound)
    (final : service.Final next) {verdict : String × Bool} (member : verdict ∈ service.verdicts)
    {row : OutboundTransfer} (found : next.outbound.getOutbound verdict.1 = some row) :
    row.status = .ofAnswer verdict.2 := by
  rcases isSome_iff_exists.mp (sound.answered verdict member) with ⟨old, before⟩
  have status := shown verdict member old before
  cases accepted : verdict.2 with
  | true =>
    rw [accepted] at status
    rcases (final.acked verdict.1 old before status).1 with ⟨kept, there, acked⟩
    rw [found] at there
    cases there
    exact acked
  | false =>
    rw [accepted] at status
    rcases (final.rejected verdict.1 old before status).1 with ⟨kept, there, rejected⟩
    rw [found] at there
    cases there
    exact rejected

theorem Changes.shown (changes : service.Changes next) (sound : service.Sound)
    (final : service.Final next) (shown : service.Shown) : next.Shown := by
  intro verdict member row found
  have old := @Shown.of_final service next shown sound final verdict
  cases changes with
  | moved calls moves => exact old member found
  | inserted fresh outbound call recorded => exact old member found
  | written call transferId accepted asked =>
    rcases mem_append.mp member with before | new
    · exact old before found
    · cases mem_singleton.mp new
      change (service.outbound.markOutbound transferId _).getOutbound transferId = some row
        at found
      rw [OutboundTable.getOutbound_mark] at found
      rcases map_eq_some_iff.mp found with ⟨held, _, rfl⟩
      rw [if_pos rfl]

/-- In any interleaving of calls what is decided about a transfer is final if and only if the
answers that were given to its offers, and written, agree. -/
theorem verdicts_final_iff {events : List OfferEvent} {last : SendService}
    (ran : run step new events = some last) :
    Throughout step Final new events ↔
      ∀ first ∈ last.verdicts, ∀ second ∈ last.verdicts, first.1 = second.1 →
        first.2 = second.2 := by
  constructor
  · intro throughout
    -- Each answer is still the status of its row, so two answers of one row are equal.
    have held : last.Sound ∧ last.Shown := by
      refine @invariant_of_throughout _ _ _ Final (fun service => service.Sound ∧ service.Shown) ?_
        _ _ _ ⟨sound_new, ?_⟩ throughout ran
      · intro service event next before final taken
        exact ⟨before.1.step taken, (changes_step taken).shown before.1 final before.2⟩
      · intro verdict member
        cases member
    intro first firstWritten second secondWritten same
    rcases Option.isSome_iff_exists.mp (held.1.answered first firstWritten) with ⟨row, found⟩
    have firstStatus := held.2 first firstWritten row found
    rw [same] at found
    have secondStatus := held.2 second secondWritten row found
    exact OutboundStatus.ofAnswer_injective (firstStatus.symm.trans secondStatus)
  · intro agree before middle after split earlier later reached went
    have steps : ∀ (service : SendService) (event : OfferEvent) (next : SendService),
        service.Sound → service.step event = some next → next.Sound :=
      fun _ _ _ sound taken => sound.step taken
    have grows : ∀ {first second : SendService} {events : List OfferEvent},
        run step first events = some second → first.Grows second := by
      intro first second events went
      exact invariant_run_always
        (fun _ _ _ grown taken => grown.trans (changes_step taken).grows) (Grows.refl first) went
    have sound : earlier.Sound := invariant_run_always steps sound_new reached
    have rest : run step later after = some last := by
      rw [split, run_append, run_append, reached, Option.bind_some, went, Option.bind_some] at ran
      exact ran
    apply final_of_agreeing sound (invariant_run_always steps sound went) (grows went)
    intro first firstWritten second secondWritten same
    exact agree first ((grows rest).verdicts first firstWritten) second
      ((grows rest).verdicts second secondWritten) same

/-! ## An accepted transfer offered again -/

def sampleManifest : SendManifest := ⟨"t", [⟨"a.txt", 0, 1, []⟩], 0, 0⟩

def phone : ResolvedDevice := ⟨"phone", 7⟩

def acceptedOffer : List OfferEvent :=
  [.offerSend "/a.txt" phone, .lookup 0 0, .insert 0 "t" sampleManifest 0, .answer 0 true,
    .record 0]

/-- The same source is sent again; its row is found, and the target declines. -/
def declinedAgain : List OfferEvent :=
  [.offerSend "/a.txt" phone, .lookup 1 0, .answer 1 false, .record 1]

/-- An accepted offer that is made again and accepted again stays accepted. -/
theorem accepted_twice_final :
    ∃ last, run step new (acceptedOffer ++ [OfferEvent.offerSend "/a.txt" phone, .lookup 1 0,
        .answer 1 true, .record 1]) = some last ∧ last.verdicts.length = 2 ∧
      Throughout step Final new (acceptedOffer ++ [OfferEvent.offerSend "/a.txt" phone,
        .lookup 1 0, .answer 1 true, .record 1]) := by
  cases ran : run step new (acceptedOffer ++ [OfferEvent.offerSend "/a.txt" phone, .lookup 1 0,
      .answer 1 true, .record 1]) with
  | none =>
    have ends : (run step new (acceptedOffer ++ [OfferEvent.offerSend "/a.txt" phone,
        .lookup 1 0, .answer 1 true, .record 1])).isSome = true := by decide
    rw [ran] at ends
    cases ends
  | some last =>
    have written : (run step new (acceptedOffer ++ [OfferEvent.offerSend "/a.txt" phone,
        .lookup 1 0, .answer 1 true, .record 1])).map (·.verdicts) =
          some [("t", true), ("t", true)] := by decide
    rw [ran, Option.map_some, Option.some_inj] at written
    refine ⟨last, rfl, by rw [written]; rfl, (verdicts_final_iff ran).mpr ?_⟩
    rw [written]
    decide

/-- The target has accepted the transfer, and can no longer pull it once a second offer of it is
declined. -/
theorem acked_offer_rejected :
    ¬∀ (events : List OfferEvent) (last : SendService), run step new events = some last →
      Throughout step Final new events := by
  intro always
  have statusAfter : ∀ events status,
      ((run step new events).bind fun service =>
        (service.outbound.getOutbound "t").map (·.status)) = some status →
      ∃ service row, run step new events = some service ∧
        service.outbound.getOutbound "t" = some row ∧ row.status = status := by
    intro events status read
    rcases Option.bind_eq_some_iff.mp read with ⟨service, ran, shown⟩
    rcases Option.map_eq_some_iff.mp shown with ⟨row, found, status⟩
    exact ⟨service, row, ran, found, status⟩
  rcases statusAfter acceptedOffer .acked (by decide) with ⟨earlier, row, reached, found, acked⟩
  rcases statusAfter (acceptedOffer ++ declinedAgain) .rejected (by decide) with
    ⟨last, lastRow, ran, lastFound, rejected⟩
  have went : run step earlier declinedAgain = some last := by
    rw [run_append, reached, Option.bind_some] at ran
    exact ran
  have final := always _ last ran acceptedOffer declinedAgain [] (by rw [List.append_nil]) earlier
    last reached went
  rcases (final.acked "t" row found acked).1 with ⟨kept, there, still⟩
  rw [lastFound] at there
  cases there
  rw [rejected] at still
  cases still

end SendService

end Yadorilink.Send
