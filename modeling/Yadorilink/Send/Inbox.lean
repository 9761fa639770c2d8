import Yadorilink.Domain.NativeFork
import Yadorilink.Foundation.Machine
import Yadorilink.Send.Manifest

/-! The receiver's side of an offer. An offer whose grant is consumed and whose manifest is
consistent is recorded under the transfer id its sender chose, unless that id is taken, and is
acknowledged either way. -/

namespace Yadorilink.Send

open Machine List Option

variable {inbox : Inbox} {offer : Offer} {events : List InboxEvent}

/-! ## The store -/

inductive InboundStatus where
  | pending
  | inProgress
  | completed
deriving DecidableEq

structure InboundTransfer where
  transferId : String
  senderDeviceId : String
  manifest : SendManifest
  status : InboundStatus
  destinationDir : Option String
  offeredAtUnixNanos : Int
deriving DecidableEq

/-- The table of inbound transfers; `transfer_id` is its primary key. -/
structure Inbox where
  rows : List InboundTransfer
  distinct : (rows.map (·.transferId)).Nodup

namespace Inbox

def empty : Inbox := ⟨[], List.nodup_nil⟩

def getInbound (inbox : Inbox) (transferId : String) : Option InboundTransfer :=
  inbox.rows.find? fun row => decide (row.transferId = transferId)

/-- A row of an id that is there already is left out, and so is the new one's content. -/
def insertInboundIfNew (inbox : Inbox) (row : InboundTransfer) : Inbox × Bool :=
  if fresh : row.transferId ∉ inbox.rows.map (·.transferId) then
    (⟨inbox.rows ++ [row], by
      rw [List.map_append]
      exact List.Nodup.append inbox.distinct (List.nodup_singleton _)
        (List.disjoint_singleton.mpr fresh)⟩, true)
  else (inbox, false)

def modifyInbound (inbox : Inbox) (transferId : String)
    (status : InboundStatus) (destinationDir : Option String → Option String) : Inbox where
  rows := inbox.rows.map fun row =>
    if row.transferId = transferId then
      { row with status, destinationDir := destinationDir row.destinationDir }
    else row
  distinct := by
    rw [List.map_map]
    have ids : ((fun row : InboundTransfer => row.transferId) ∘ fun row : InboundTransfer =>
        if row.transferId = transferId then
          { row with status, destinationDir := destinationDir row.destinationDir }
        else row) = (·.transferId) := by
      funext row
      simp only [Function.comp_apply]
      split <;> rfl
    rw [ids]
    exact inbox.distinct

/-- `claim_inbound_destination`: the first directory asked for is kept. -/
def claimInboundDestination (inbox : Inbox) (transferId requestedDir : String) : Inbox :=
  match (inbox.getInbound transferId).bind (·.destinationDir) with
  | some _ => inbox
  | none => inbox.modifyInbound transferId .inProgress fun _ => some requestedDir

def markInboundCompleted (inbox : Inbox) (transferId : String) : Inbox :=
  inbox.modifyInbound transferId .completed id

end Inbox

/-! ## Offers -/

/-- An offer as it reaches `handle_offer`: the peer the handshake authenticated, the manifest,
what consuming its grant answers, and the name the directory has for the peer. -/
structure Offer where
  peerKey : BitVec 256
  manifest : SendManifest
  consumeGrant : Except String Unit
  deviceIdForKey : Option String
  offeredAtUnixNanos : Int

namespace Offer

def verdict (offer : Offer) : Except String Unit :=
  match offer.consumeGrant with
  | .ok () => validateOfferedManifest offer.manifest
  | .error reason => .error reason

def senderDeviceId (offer : Offer) : String :=
  offer.deviceIdForKey.getD (String.ofList (hexEncode (beBytes 32 offer.peerKey.toNat)))

def row (offer : Offer) : InboundTransfer :=
  ⟨offer.manifest.transferId, offer.senderDeviceId, offer.manifest, .pending, none,
    offer.offeredAtUnixNanos⟩

/-- Whether the offer is authorized, and its manifest consistent. -/
def passes (offer : Offer) : Bool :=
  match offer.verdict with
  | .ok () => true
  | .error _ => false

end Offer

structure SendManifestAck where
  accepted : Bool
  reason : String
deriving DecidableEq

namespace Inbox

/-- `handle_offer`: what the sender is answered, and the inbox. -/
def handleOffer (inbox : Inbox) (offer : Offer) : SendManifestAck × Inbox :=
  match offer.verdict with
  | .error reason => (⟨false, reason⟩, inbox)
  | .ok () => (⟨true, ""⟩, (inbox.insertInboundIfNew offer.row).1)

/-- The entry for the transfer id names this sender and exactly this manifest. -/
def Holds (inbox : Inbox) (offer : Offer) : Prop :=
  ∃ row, inbox.getInbound offer.manifest.transferId = some row ∧
    row.senderDeviceId = offer.senderDeviceId ∧ row.manifest = offer.manifest

end Inbox

/-! ## Runs -/

/-- The writes of the inbox: offers, and the receipt of what was offered. -/
inductive InboxEvent where
  | offer (offer : Offer)
  | claim (transferId requestedDir : String)
  | complete (transferId : String)

/-- The inbox with the offers that were acknowledged, in order. -/
structure InboxRun where
  inbox : Inbox
  accepted : List Offer

namespace InboxRun

def step (run : InboxRun) : InboxEvent → Option InboxRun
  | .offer offer =>
    let answered := run.inbox.handleOffer offer
    some ⟨answered.2, if answered.1.accepted then run.accepted ++ [offer] else run.accepted⟩
  | .claim transferId requestedDir =>
    some { run with inbox := run.inbox.claimInboundDestination transferId requestedDir }
  | .complete transferId =>
    some { run with inbox := run.inbox.markInboundCompleted transferId }

/-- Every offer acknowledged so far is the one that was kept. -/
def Kept (run : InboxRun) : Prop := ∀ offer ∈ run.accepted, run.inbox.Holds offer

end InboxRun

/-! ## What the entries are -/

def InboundTransfer.content (row : InboundTransfer) : String × SendManifest :=
  (row.senderDeviceId, row.manifest)

def Offer.content (offer : Offer) : String × SendManifest :=
  (offer.senderDeviceId, offer.manifest)

namespace Inbox

def entry (inbox : Inbox) (transferId : String) : Option (String × SendManifest) :=
  (inbox.getInbound transferId).map (·.content)

theorem holds_iff :
    inbox.Holds offer ↔ inbox.entry offer.manifest.transferId = some offer.content := by
  rw [entry, map_eq_some_iff]
  constructor
  · intro held
    rcases held with ⟨row, found, sender, manifest⟩
    exact ⟨row, found, Prod.ext sender manifest⟩
  · intro held
    rcases held with ⟨row, found, same⟩
    exact ⟨row, found, congrArg Prod.fst same, congrArg Prod.snd same⟩

theorem getInbound_modifyInbound (inbox : Inbox) (transferId other : String)
    (status : InboundStatus) (destinationDir : Option String → Option String) :
    (inbox.modifyInbound transferId status destinationDir).getInbound other =
      (inbox.getInbound other).map fun row => if row.transferId = transferId then
        { row with status, destinationDir := destinationDir row.destinationDir }
      else row := by
  rw [getInbound, getInbound, modifyInbound, find?_map]
  have ids : ((fun row : InboundTransfer => decide (row.transferId = other)) ∘
      fun row : InboundTransfer => if row.transferId = transferId then
        { row with status, destinationDir := destinationDir row.destinationDir }
      else row) = fun row => decide (row.transferId = other) := by
    funext row
    simp only [Function.comp_apply]
    split <;> rfl
  rw [ids]

theorem entry_modifyInbound (inbox : Inbox) (transferId other : String) (status : InboundStatus)
    (destinationDir : Option String → Option String) :
    (inbox.modifyInbound transferId status destinationDir).entry other = inbox.entry other := by
  have contents : (InboundTransfer.content ∘
      fun row : InboundTransfer => if row.transferId = transferId then
        { row with status, destinationDir := destinationDir row.destinationDir }
      else row) = InboundTransfer.content := by
    funext row
    simp only [Function.comp_apply]
    split <;> rfl
  rw [entry, entry, getInbound_modifyInbound, Option.map_map, contents]

theorem transferId_of_getInbound {transferId : String} {row : InboundTransfer}
    (found : inbox.getInbound transferId = some row) : row.transferId = transferId := by
  simpa using find?_some found

theorem entry_claimInboundDestination (inbox : Inbox) (transferId requestedDir other : String) :
    (inbox.claimInboundDestination transferId requestedDir).entry other = inbox.entry other := by
  rw [claimInboundDestination]
  split
  · rfl
  · exact inbox.entry_modifyInbound transferId other _ _

theorem entry_insertInboundIfNew (inbox : Inbox) (row : InboundTransfer) (transferId : String) :
    (inbox.insertInboundIfNew row).1.entry transferId = (inbox.entry transferId).or
        (if row.transferId = transferId then some row.content else none) := by
  rw [insertInboundIfNew]
  split
  · rw [entry, entry, getInbound, getInbound, find?_append, map_or]
    congr 1
    rw [find?_singleton]
    by_cases same : row.transferId = transferId
    · simp [same]
    · simp [same]
  · rename_i taken
    rw [not_not] at taken
    by_cases same : row.transferId = transferId
    · subst same
      rcases mem_map.mp taken with ⟨held, member, sameId⟩
      have present : (inbox.entry row.transferId).isSome = true := by
        rw [entry, isSome_map, getInbound, find?_isSome]
        exact ⟨held, member, decide_eq_true sameId⟩
      rcases isSome_iff_exists.mp present with ⟨content, found⟩
      rw [found, some_or]
    · rw [if_neg same, or_none]

theorem handleOffer_eq (inbox : Inbox) (offer : Offer) :
    (inbox.handleOffer offer).1.accepted = offer.passes ∧ (inbox.handleOffer offer).2 =
        if offer.passes then (inbox.insertInboundIfNew offer.row).1 else inbox := by
  cases verdict : offer.verdict with
  | error reason => simp [handleOffer, Offer.passes, verdict]
  | ok _ => simp [handleOffer, Offer.passes, verdict]

end Inbox

/-! ## What is acknowledged -/

/-- The offers among the events that are acknowledged. -/
def passing (events : List InboxEvent) : List Offer :=
  events.filterMap fun
    | .offer offer => if offer.passes then some offer else none
    | _ => none

def firstContent (offers : List Offer) (transferId : String) : Option (String × SendManifest) :=
  (offers.find? fun offer => decide (offer.manifest.transferId = transferId)).map (·.content)

theorem mem_passing :
    offer ∈ passing events ↔ InboxEvent.offer offer ∈ events ∧ offer.passes = true := by
  rw [passing, mem_filterMap]
  constructor
  · intro found
    rcases found with ⟨event, member, shown⟩
    cases event with
    | offer made =>
      by_cases passed : made.passes = true
      · simp only [passed, if_true, Option.some.injEq] at shown
        subst shown
        exact ⟨member, passed⟩
      · simp [passed] at shown
    | claim transferId requestedDir => cases shown
    | complete transferId => cases shown
  · intro found
    exact ⟨_, found.1, by simp [found.2]⟩

theorem exists_of_firstContent {offers : List Offer} {transferId : String}
    {content : String × SendManifest} (found : firstContent offers transferId = some content) :
    ∃ offer ∈ offers, offer.manifest.transferId = transferId ∧ offer.content = content := by
  rcases map_eq_some_iff.mp found with ⟨offer, first, same⟩
  exact ⟨offer, mem_of_find?_eq_some first, by simpa using find?_some first, same⟩

theorem isSome_firstContent {offers : List Offer} (member : offer ∈ offers) :
    ∃ content, firstContent offers offer.manifest.transferId = some content := by
  rw [← isSome_iff_exists, firstContent, isSome_map, find?_isSome]
  exact ⟨offer, member, decide_eq_true rfl⟩

namespace InboxRun

theorem run_eq {start last : InboxRun}
    (ran : run step start events = some last) :
    last.accepted = start.accepted ++ passing events ∧ ∀ transferId, last.inbox.entry transferId =
        (start.inbox.entry transferId).or (firstContent (passing events) transferId) := by
  induction events generalizing start with
  | nil =>
    cases ran
    simp [passing, firstContent]
  | cons event events induction =>
    obtain ⟨next, stepped, later⟩ := run_cons ran
    rcases induction later with ⟨accepted, entries⟩
    cases event with
    | offer offer =>
      rcases start.inbox.handleOffer_eq offer with ⟨answer, inbox⟩
      rw [step, answer, inbox, some_inj] at stepped
      by_cases passed : offer.passes = true
      · have first : passing (.offer offer :: events) = offer :: passing events := by
          simp [passing, passed]
        simp only [passed, if_true] at stepped
        subst stepped
        refine ⟨by rw [accepted, first, append_assoc]; rfl, ?_⟩
        intro id
        rw [entries, Inbox.entry_insertInboundIfNew, Option.or_assoc, first]
        congr 1
        rw [firstContent, firstContent, find?_cons]
        by_cases same : offer.manifest.transferId = id
        · simp [same, Offer.row, InboundTransfer.content, Offer.content]
        · simp [same, Offer.row]
      · have others : passing (.offer offer :: events) = passing events := by
          simp [passing, passed]
        simp only [passed] at stepped
        subst stepped
        rw [others]
        exact ⟨accepted, entries⟩
    | claim transferId requestedDir =>
      cases stepped
      refine ⟨accepted, ?_⟩
      intro id
      rw [entries, Inbox.entry_claimInboundDestination]
      rfl
    | complete transferId =>
      cases stepped
      refine ⟨accepted, ?_⟩
      intro id
      rw [entries, Inbox.markInboundCompleted, Inbox.entry_modifyInbound]
      rfl

theorem exists_run (start : InboxRun) (events : List InboxEvent) :
    ∃ last, run step start events = some last := by
  induction events generalizing start with
  | nil => exact ⟨start, rfl⟩
  | cons event events induction =>
    cases event with
    | offer offer => exact induction _
    | claim transferId requestedDir => exact induction _
    | complete transferId => exact induction _

/-- The offers acknowledged in a run are kept once each says what the inbox has of its id. -/
theorem kept_of_agreeing {last : InboxRun}
    (ran : run step ⟨inbox, []⟩ events = some last)
    (held : ∀ offer ∈ passing events, ∀ content,
      inbox.entry offer.manifest.transferId = some content → content = offer.content)
    (agree : ∀ first ∈ passing events, ∀ second ∈ passing events,
      first.manifest.transferId = second.manifest.transferId → first.content = second.content) :
    last.Kept := by
  rcases run_eq ran with ⟨accepted, entries⟩
  intro offer member
  rw [accepted, nil_append] at member
  rw [Inbox.holds_iff, entries]
  cases before : inbox.entry offer.manifest.transferId with
  | some content =>
    rw [some_or, held offer member content before]
  | none =>
    rw [none_or]
    rcases isSome_firstContent member with ⟨content, found⟩
    rcases exists_of_firstContent found with ⟨first, offered, sameId, same⟩
    rw [found, ← same, agree first offered offer member sameId]

/-- Every acknowledged offer is kept, then and ever after, exactly when no authorized and
consistent offer takes a transfer id under which another sender or manifest is, or was, kept. -/
theorem accepted_offers_kept_iff (inbox : Inbox) :
    (∀ offer, (inbox.handleOffer offer).1.accepted = false → (inbox.handleOffer offer).2 = inbox) ∧
    ∀ events, (∀ before after, events = before ++ after →
        ∀ reached, run step ⟨inbox, []⟩ before = some reached → reached.Kept) ↔
      (∀ offer ∈ passing events, ∀ content,
        inbox.entry offer.manifest.transferId = some content → content = offer.content) ∧
      ∀ first ∈ passing events, ∀ second ∈ passing events,
        first.manifest.transferId = second.manifest.transferId →
          first.content = second.content := by
  refine ⟨?_, ?_⟩
  · intro offer refused
    rcases inbox.handleOffer_eq offer with ⟨answer, kept⟩
    rw [answer] at refused
    rw [kept, refused]
    rfl
  intro events
  constructor
  · intro always
    rcases exists_run ⟨inbox, []⟩ events with ⟨last, ran⟩
    have kept := always events [] (List.append_nil events).symm last ran
    rcases run_eq ran with ⟨accepted, entries⟩
    rw [List.nil_append] at accepted
    have written : ∀ offer ∈ passing events,
        last.inbox.entry offer.manifest.transferId = some offer.content := by
      intro offer member
      exact Inbox.holds_iff.mp (kept offer (by rw [accepted]; exact member))
    refine ⟨?_, ?_⟩
    · intro offer member content found
      have said := written offer member
      rw [entries, found, Option.some_or, Option.some_inj] at said
      exact said
    · intro first firstMember second secondMember same
      have said := written first firstMember
      rw [same, written second secondMember, Option.some_inj] at said
      exact said.symm
  · intro agree before after split reached ran
    subst split
    have earlier : ∀ offer ∈ passing before, offer ∈ passing (before ++ after) := by
      intro offer member
      rcases mem_passing.mp member with ⟨made, passed⟩
      exact mem_passing.mpr ⟨List.mem_append_left after made, passed⟩
    apply kept_of_agreeing ran
    · intro offer member
      exact agree.1 offer (earlier offer member)
    · intro first firstMember second secondMember
      exact agree.2 first (earlier first firstMember) second (earlier second secondMember)

/-- An empty file, offered under the transfer id `t` with a grant. -/
def offerOf (peerKey : BitVec 256) (name : String) : Offer where
  peerKey
  manifest := ⟨"t", [⟨name, 0, 1, []⟩], 0, 0⟩
  consumeGrant := .ok ()
  deviceIdForKey := some name
  offeredAtUnixNanos := 0

theorem passes_offerOf (peerKey : BitVec 256) (name : String) :
    (offerOf peerKey name).passes = true := by
  have valid : validateOfferedManifest (offerOf peerKey name).manifest = .ok () := by
    simp [validateOfferedManifest, offerOf, addOfferedEntry, validateOfferedEntry,
      SendFileEntry.expectedChunks, maxBlockSizeBytes, bind, Except.bind, pure, Except.pure]
  rw [Offer.passes, Offer.verdict, valid]
  rfl

/-- An offer is kept when it is made, and again when its sender retries it. -/
theorem retried_offer_kept :
    ∃ last, run step ⟨Inbox.empty, []⟩ [.offer (offerOf 1 "laptop"), .offer (offerOf 1 "laptop")] =
      some last ∧ last.Kept := by
  rcases exists_run ⟨Inbox.empty, []⟩ [.offer (offerOf 1 "laptop"), .offer (offerOf 1 "laptop")]
    with ⟨last, ran⟩
  have offers : ∀ offer ∈ passing [.offer (offerOf 1 "laptop"), .offer (offerOf 1 "laptop")],
      offer = offerOf 1 "laptop" := by
    intro offer member
    simpa [InboxEvent.offer.injEq] using (mem_passing.mp member).1
  refine ⟨last, ran, ((accepted_offers_kept_iff Inbox.empty).2 _).mpr ⟨?_, ?_⟩ _ []
    (List.append_nil _).symm last ran⟩
  · intro offer _ content found
    cases found
  · intro first firstMember second secondMember _
    rw [offers first firstMember, offers second secondMember]

/-- The second peer is told that its offer was accepted, and the first one's is kept. -/
theorem acknowledged_offer_not_kept : ¬∀ (events : List InboxEvent) (last : InboxRun),
      run step ⟨Inbox.empty, []⟩ events = some last → last.Kept := by
  intro always
  rcases exists_run ⟨Inbox.empty, []⟩ [.offer (offerOf 1 "laptop"), .offer (offerOf 2 "phone")]
    with ⟨last, ran⟩
  rcases run_eq ran with ⟨accepted, entries⟩
  have both : passing [.offer (offerOf 1 "laptop"), .offer (offerOf 2 "phone")] =
      [offerOf 1 "laptop", offerOf 2 "phone"] := by
    simp [passing, passes_offerOf]
  rw [both, List.nil_append] at accepted
  -- Of the two the first is found under the id, and it names another sender.
  have kept := always _ last ran (offerOf 2 "phone") (by rw [accepted]; simp)
  rw [Inbox.holds_iff, entries, both] at kept
  revert kept
  decide

end InboxRun

end Yadorilink.Send
