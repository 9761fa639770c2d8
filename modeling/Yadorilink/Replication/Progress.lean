import Yadorilink.Admission.Convergence
import Yadorilink.Replication.Ingest
import Yadorilink.Store.Landing

/-! When a pull round makes progress. The answer is cut in author order while
dependencies cross authors, so a round can bring the requester only deltas it
has to hold; and what it holds is served to it again the next time. -/

namespace Yadorilink

open Std Transaction OrderedMap ExtTreeMap NativeDelta

variable {dot : Dot} {entry : DeltaBatchEntry} {after : Store} {delta : NativeDelta}
  {key : VerifyingKey}

/-! ## The two stores -/

/-- Evidence the two stores both have is the same. -/
structure SameEvidence (server requester : Store) : Prop where
  pending : ∀ (hash : DeltaHash) evidence other, server.published[hash]? = some evidence →
    requester.pending[hash]? = some other → other = evidence
  published : ∀ (hash : DeltaHash) evidence other, server.published[hash]? = some evidence →
    requester.published[hash]? = some other → other = evidence
  checkpoints : ∀ (hash : BitVec 256) envelope other,
    server.checkpoints[hash]? = some envelope → requester.checkpoints[hash]? = some other →
    other = envelope

/-- A store that can serve all it installed: every delta passed the checks of
admission and is published with evidence the peer accepts. -/
structure CanServe (crypto : Crypto) (groupId : FolderGroupId) (peer : PeerAccess)
    (server : Store) : Prop where
  sound : server.Sound crypto
  portable : ∀ delta, delta ∈ server.installedDeltas crypto → pathRefusal delta = none
  distinct : ∀ delta, delta ∈ server.installedDeltas crypto → delta.RemovalsDistinct
  versions : ∀ (hash : VersionHash) version, server.versions[hash]? = some version →
    version.decodable = true ∧ version.computeHash crypto = hash
  published : ∀ delta, delta ∈ server.installedDeltas crypto → ∃ evidence envelope,
    server.published[delta.deltaHash crypto]? = some evidence ∧
    server.checkpoints[evidence.checkpointHash]? = some envelope ∧
    peer.policyPoint envelope.checkpoint = true ∧
    verifyProofCarryingDelta crypto
      ⟨delta, evidence.checkpointHash, envelope, evidence.proof⟩ groupId peer.authorityKey = .ok ()

/-- A store that asks the server for what it lacks. -/
structure CanRequest (groupId : FolderGroupId) (server requester : Store) : Prop where
  inStep : requester.InStep
  subset : ∀ (dot : Dot) hash, requester.log[dot]? = some hash → server.log[dot]? = some hash
  resolved : ∀ (key : HeadKey) payload, requester.heads[key]? = some payload →
    requester.versions.contains payload.version = true
  /-- No held delta is one that fails any admission that releases it. -/
  appliable : ∀ row, row ∈ requester.holds → ¬Unappliable groupId row.delta
  backed : requester.Backed
  sameEvidence : SameEvidence server requester

/-! ## What the requester lacks -/

/-- The server's entries of one author that the requester lacks. -/
def missingEntries (crypto : Crypto) (server requester : Store) (author : AuthorId) :
    List DeltaBatchEntry :=
  entriesAfter crypto server author (positionSeq requester.frontier[author]?)
    (positionSeq server.frontier[author]?)

def missingBefore (crypto : Crypto) (server requester : Store) (author : AuthorId) :
    List DeltaBatchEntry :=
  (server.frontier.toList.filter fun position => compare position.1 author = .lt).flatMap
    fun position => missingEntries crypto server requester position.1

/-- The first delta of its author that the requester lacks, and it can be
applied there as things stand. -/
structure Landable (crypto : Crypto) (server requester : Store) (delta : NativeDelta) : Prop where
  installed : delta ∈ server.installedDeltas crypto
  next : delta.seq = positionSeq requester.frontier[delta.author]? + 1
  observed : ∀ dot, dot ∈ delta.namedDots → observedBy requester.context dot = true
  agrees : requester.conflictingPartCount delta = none
  room : requester.hasRoomToLand delta = true

/-- The round leaves a delta installed that the requester did not have. -/
def RoundInstalls (crypto : Crypto) (groupId : FolderGroupId) (peer : PeerAccess)
    (clock : Nat → Int) (device : DeviceId) (server requester : Store) : Prop :=
  ∃ (dot : Dot) (hash : DeltaHash), requester.log[dot]? = none ∧
    (pullRound crypto groupId peer clock device server requester).log[dot]? = some hash

/-! ## Entries served -/

section Served

variable {crypto : Crypto} {groupId : FolderGroupId} {peer : PeerAccess} {server : Store}

theorem entryAt_eq_some (sound : server.Sound crypto)
    (served : entryAt crypto server dot = some entry) :
    entry.delta ∈ server.installedDeltas crypto ∧ entry.delta.dot = dot ∧
      server.published[entry.delta.deltaHash crypto]? = some ⟨entry.checkpointHash, entry.proof⟩ ∧
      server.checkpoints[entry.checkpointHash]? = some entry.envelope := by
  rcases Option.bind_eq_some_iff.mp served with ⟨body, stored, isEntry⟩
  rcases entryFor_eq_some isEntry with ⟨evidence, envelope, versions, published, kept, _, rfl⟩
  rcases sound.bodyLogged dot body stored with ⟨sameDot, sameHash, _⟩
  refine ⟨?_, sameDot, published, kept⟩
  rw [Store.mem_installedDeltas]
  dsimp only
  rw [sameDot, stored, ← sameHash]

variable (canServe : CanServe crypto groupId peer server)

include canServe

theorem heldVersions_ok (hashes : List VersionHash) :
    ∃ versions, heldVersions crypto server hashes = .ok versions := by
  induction hashes with
  | nil => exact ⟨[], rfl⟩
  | cons hash rest induction =>
    rcases induction with ⟨others, held⟩
    cases stored : server.versions[hash]? with
    | none =>
      refine ⟨others, ?_⟩
      rw [heldVersions, held, getFileVersion, stored]
      rfl
    | some version =>
      rcases canServe.versions hash version stored with ⟨decodes, sameHash⟩
      refine ⟨version :: others, ?_⟩
      rw [heldVersions, held, getFileVersion, stored]
      simp [decodes, sameHash]
      rfl

theorem entryAt_isSome {hash : DeltaHash} (logged : server.log[dot]? = some hash) :
    (entryAt crypto server dot).isSome = true := by
  rcases canServe.sound.body dot hash logged with ⟨delta, member, rfl, _⟩
  rcases canServe.published delta member with ⟨evidence, envelope, published, kept, _⟩
  rcases heldVersions_ok canServe delta.versionsNamed.eraseDups with ⟨versions, held⟩
  have isEntry : entryFor crypto server delta =
      some ⟨⟨delta, evidence.checkpointHash, envelope, evidence.proof⟩, versions⟩ := by
    simp [entryFor, published, kept, carriedVersions, held, Except.toOption]
  rw [entryAt, show server.bodies[delta.dot]? = some ⟨delta.deltaHash crypto, delta⟩ from member]
  simp [isEntry]

end Served

/-! ## The answer -/

section Answer

variable {crypto : Crypto} {groupId : FolderGroupId} {peer : PeerAccess}
  {server requester : Store}

theorem frontierSince_eq
    (resolved : ∀ (key : HeadKey) payload, requester.heads[key]? = some payload →
      requester.versions.contains payload.version = true) :
    frontierSince requester = frontierEntries requester false := by
  have none : unresolvedHeadPositions requester = ∅ := by
    have all : ∀ row, row ∈ requester.heads.toList →
        requester.versions.contains row.2.version = true := fun row member =>
      resolved row.1 row.2 (mem_toList_iff_getElem?_eq_some.mp member)
    rw [unresolvedHeadPositions]
    generalize requester.heads.toList = rows at all
    induction rows with
    | nil => rfl
    | cons row rest induction =>
      rw [List.foldl_cons, if_pos (all row (.head _))]
      exact induction fun later member => all later (.tail row member)
  rw [frontierSince, none]
  simp only [getElem?_empty]
  exact List.filterMap_some

theorem sincePosition_frontierEntries (author : AuthorId) :
    sincePosition (frontierEntries requester false) author =
      positionSeq requester.frontier[author]? := by
  rw [sincePosition, frontierEntries, List.find?_map]
  have found := find?_toList_eq requester.frontier author
  simp only [Function.comp_def]
  rw [found]
  cases requester.frontier[author]? with
  | none => rfl
  | some entry => rfl

/-- The server answers with what the requester lacks, author by author, as far
as the budgets go. -/
theorem deltasToServeWithin_eq (canServe : CanServe crypto groupId peer server)
    (resolved : ∀ (key : HeadKey) payload, requester.heads[key]? = some payload →
      requester.versions.contains payload.version = true)
    (device : DeviceId) (limit maxBytes : Nat) :
    deltasToServeWithin crypto server device (frontierSince requester) limit maxBytes =
      .ok (.ok ⟨Budget.takeWithin (DeltaBatchEntry.bytes crypto) limit maxBytes
        (server.frontier.toList.flatMap fun position =>
          missingEntries crypto server requester position.1), []⟩) := by
  have sound := canServe.sound
  have open_ : ownDeltasWithheld server = false := by
    rw [ownDeltasWithheld, sound.quiet.journal]
    rfl
  have position : ∀ entry, entry ∈ server.frontier.toList →
      positionSeq server.frontier[entry.1]? = entry.2.seq := by
    intro entry member
    rw [mem_toList_iff_getElem?_eq_some.mp member]
    rfl
  have servable : ∀ entry, entry ∈ server.frontier.toList → ∀ seq, 1 ≤ seq → seq ≤ entry.2.seq →
      (entryAt crypto server ⟨entry.1, seq⟩).isSome = true := by
    intro entry member seq positive within
    rw [← position entry member] at within
    rcases (sound.logged ⟨entry.1, seq⟩).mpr ⟨positive, within⟩ with ⟨hash, logged⟩
    exact entryAt_isSome canServe logged
  have sameEntries : (server.frontier.toList.flatMap fun entry => entriesAfter crypto server
      entry.1 (sincePosition (frontierSince requester) entry.1) entry.2.seq) =
      server.frontier.toList.flatMap fun entry =>
        missingEntries crypto server requester entry.1 := by
    apply List.flatMap_congr
    intro entry member
    rw [missingEntries, position entry member, frontierSince_eq resolved,
      sincePosition_frontierEntries]
  rw [deltasToServeWithin, serveAuthors_eq open_ servable, sameEntries]
  simp [Serving.fitting, Serving.pushAll, Serving.start]

/-- The first delta of an author that the requester lacks is in the answer
exactly when what it lacks of the authors before fits the budgets. -/
theorem mem_answer_iff (sound : server.Sound crypto)
    (next : entry.delta.seq = positionSeq requester.frontier[entry.delta.author]? + 1)
    (served : entryAt crypto server entry.delta.dot = some entry) (limit maxBytes : Nat) :
    entry ∈ Budget.takeWithin (DeltaBatchEntry.bytes crypto) limit maxBytes
        (server.frontier.toList.flatMap fun position =>
          missingEntries crypto server requester position.1) ↔
      (missingBefore crypto server requester entry.delta.author).length < limit ∧
        ((missingBefore crypto server requester entry.delta.author).map
          (DeltaBatchEntry.bytes crypto)).sum < maxBytes := by
  rcases entryAt_eq_some sound served with ⟨installed, _⟩
  have logged := (sound.logged entry.delta.dot).mp ⟨_, sound.logged_of_installed installed⟩
  simp only [dot] at logged
  cases known : server.frontier[entry.delta.author]? with
  | none =>
    rw [known] at logged
    simp only [positionSeq, Option.map_none, Option.getD_none] at logged
    omega
  | some position =>
    -- The entry is the first of its author's.
    have first : ∃ rest, missingEntries crypto server requester entry.delta.author =
        entry :: rest := by
      have more : positionSeq server.frontier[entry.delta.author]? -
          positionSeq requester.frontier[entry.delta.author]? =
          (positionSeq server.frontier[entry.delta.author]? - entry.delta.seq) + 1 := by omega
      have isFirst : entryAt crypto server ⟨entry.delta.author, entry.delta.seq⟩ = some entry :=
        served
      rw [missingEntries, entriesAfter, more, List.range'_succ, ← next, List.filterMap_cons,
        isFirst]
      exact ⟨_, rfl⟩
    rcases first with ⟨rest, own⟩
    rcases toList_eq_before_append known with ⟨after, split⟩
    have once : entry ∉ missingBefore crypto server requester entry.delta.author := by
      intro member
      rcases List.mem_flatMap.mp member with ⟨earlier, isEarlier, inEarlier⟩
      rcases List.mem_filterMap.mp inEarlier with ⟨seq, _, servedEarlier⟩
      have sameDot := (entryAt_eq_some sound servedEarlier).2.1
      have below := (List.mem_filter.mp isEarlier).2
      rw [← show entry.delta.author = earlier.1 from congrArg Dot.author sameDot] at below
      simp at below
    rw [split, List.flatMap_append, List.flatMap_cons, own, List.cons_append]
    exact Budget.mem_takeWithin_iff once

end Answer

/-! ## Between the entries -/

theorem Store.Sound.ofSameState {crypto : Crypto} {before : Store}
    (sound : before.Sound crypto) (same : before.SameState after) : after.Sound crypto := by
  rw [same]
  exact ⟨⟨sound.quiet.closures, sound.quiet.closed, sound.quiet.journal⟩, sound.context,
    sound.logged, sound.tip, sound.body, sound.bodyLogged, sound.decodes, sound.prev, sound.named,
    sound.live, sound.ownBound, sound.held, sound.heldDistinct⟩

/-- The requester's store as long as nothing was installed: only holds,
evidence and versions have changed. -/
structure Untouched (groupId : FolderGroupId) (server requester after : Store) : Prop where
  rest : after = { requester with
    holds := after.holds
    pending := after.pending
    published := after.published
    checkpoints := after.checkpoints
    versions := after.versions }
  held : ∀ row, row ∈ after.holds → row.delta.decodable = true
  heldDistinct : (after.holds.map fun row => row.delta.dot).Nodup
  appliable : ∀ row, row ∈ after.holds → ¬Unappliable groupId row.delta
  backed : after.Backed
  sameEvidence : SameEvidence server after

theorem admissible_iff_of_rest {crypto : Crypto} {groupId : FolderGroupId}
    {requester : Store}
    (rest : after = { requester with
      holds := after.holds
      pending := after.pending
      published := after.published
      checkpoints := after.checkpoints
      versions := after.versions }) :
    Admissible crypto groupId delta key after ↔ Admissible crypto groupId delta key requester := by
  rw [rest]
  constructor
  · intro found
    exact ⟨found.signed, found.portable, found.notClosed,
      ⟨found.ready.chain, found.ready.observed⟩, found.agrees, found.sameGroup, found.unfrozen,
      found.distinct, found.valid⟩
  · intro found
    exact ⟨found.signed, found.portable, found.notClosed,
      ⟨found.ready.chain, found.ready.observed⟩, found.agrees, found.sameGroup, found.unfrozen,
      found.distinct, found.valid⟩

namespace Untouched

variable {crypto : Crypto} {groupId : FolderGroupId} {server requester : Store}

theorem start (canRequest : CanRequest groupId server requester) :
    Untouched groupId server requester requester where
  rest := rfl
  held := canRequest.inStep.held
  heldDistinct := canRequest.inStep.heldDistinct
  appliable := canRequest.appliable
  backed := canRequest.backed
  sameEvidence := canRequest.sameEvidence

variable {store : Store} (untouched : Untouched groupId server requester store)

include untouched

theorem log_eq : store.log = requester.log := by
  rw [untouched.rest]

theorem consistent (inStep : requester.InStep) : store.Consistent := by
  refine ⟨?_, untouched.held, untouched.heldDistinct⟩
  rw [untouched.rest]
  exact inStep.consistent.logged

theorem quiet (inStep : requester.InStep) : store.Quiet := by
  rw [untouched.rest]
  exact ⟨inStep.quiet.closures, inStep.quiet.closed, inStep.quiet.journal⟩

theorem withEvidence (same : store.SameState after) (backed : after.Backed)
    (sameEvidence : SameEvidence server after) : Untouched groupId server requester after := by
  have holds : after.holds = store.holds := by rw [same]
  refine ⟨?_, ?_, ?_, ?_, backed, sameEvidence⟩
  · have rest := untouched.rest
    rw [Store.SameState, rest] at same
    rw [holds]
    exact same
  · rw [holds]
    exact untouched.held
  · rw [holds]
    exact untouched.heldDistinct
  · rw [holds]
    exact untouched.appliable

theorem withHolds {holds : List HoldRow}
    (held : ∀ row, row ∈ holds → row.delta.decodable = true ∧ ¬Unappliable groupId row.delta)
    (heldDistinct : (holds.map fun row => row.delta.dot).Nodup) :
    Untouched groupId server requester { store with holds := holds } where
  rest := by
    have rest := untouched.rest
    rw [rest]
  held := fun row member => (held row member).1
  heldDistinct := heldDistinct
  appliable := fun row member => (held row member).2
  backed := ⟨untouched.backed.stored, untouched.backed.unforked⟩
  sameEvidence := ⟨untouched.sameEvidence.pending, untouched.sameEvidence.published,
    untouched.sameEvidence.checkpoints⟩

end Untouched

/-! ## One entry -/

section Entry

variable {crypto : Crypto} {groupId : FolderGroupId} {peer : PeerAccess}
  {server requester : Store}

theorem served_verifies (canServe : CanServe crypto groupId peer server)
    (served : entryAt crypto server dot = some entry) :
    peer.policyPoint entry.envelope.checkpoint = true ∧
      verifyProofCarryingDelta crypto entry.toProofCarryingDelta groupId peer.authorityKey =
        .ok () := by
  rcases entryAt_eq_some canServe.sound served with ⟨installed, _, published, stored⟩
  rcases canServe.published entry.delta installed with
    ⟨evidence, envelope, known, kept, vouched, verified⟩
  rw [published] at known
  cases known
  rw [stored] at kept
  cases kept
  exact ⟨vouched, verified⟩

theorem admissible_iff_landable (canServe : CanServe crypto groupId peer server)
    (canRequest : CanRequest groupId server requester)
    (installed : delta ∈ server.installedDeltas crypto)
    (signed : delta.verifySignature crypto key = true) (sameGroup : delta.groupId = groupId) :
    Admissible crypto groupId delta key requester ↔ Landable crypto server requester delta := by
  have inStep := canRequest.inStep
  have decodes := canServe.sound.decodes delta installed
  have paths := paths_nodup decodes
  constructor
  · intro admissible
    have chain := admissible.ready.chain
    exact ⟨installed, (checkChainAdvance_eq_ok_iff.mp chain).1, admissible.ready.observed,
      admissible.agrees, (checkInvariants_appliedState_iff inStep paths chain).mp admissible.valid⟩
  · intro landable
    have next := landable.next
    have chain : checkChainAdvance requester.frontier[delta.author]? delta.prev delta.seq =
        .ok () := by
      rw [checkChainAdvance_eq_ok_iff]
      refine ⟨next, ?_, (seq_inRange decodes).2⟩
      rw [canServe.sound.prev delta installed]
      cases known : requester.frontier[delta.author]? with
      | none =>
        rw [known] at next
        have first : delta.seq = 1 := next
        rw [if_pos first]
        rfl
      | some entry =>
        have tip := inStep.tip delta.author entry known
        have positive := ((inStep.logged ⟨delta.author, entry.seq⟩).mp ⟨_, tip⟩).1
        rw [known] at next
        simp only [positionSeq, Option.map_some, Option.getD_some] at next positive
        have previous : delta.seq - 1 = entry.seq := by omega
        rw [if_neg (by omega), previous, canRequest.subset _ _ tip]
        rfl
    exact ⟨signed, canServe.portable delta installed, inStep.quiet.closedVerdict crypto delta,
      ⟨chain, landable.observed⟩, landable.agrees, sameGroup,
      inStep.quiet.checkFreeze groupId delta.author delta.seq .remote,
      canServe.distinct delta installed,
      (checkInvariants_appliedState_iff inStep paths chain).mpr landable.room⟩

theorem Untouched.park {store : Store} (untouched : Untouched groupId server requester store)
    {input : ProofCarryingDelta}
    (published : server.published[input.delta.deltaHash crypto]? =
      some ⟨input.checkpointHash, input.proof⟩)
    (stored : server.checkpoints[input.checkpointHash]? = some input.envelope) :
    ∃ parked, parkEvidence crypto input store = .ok () parked ∧
      Untouched groupId server requester parked := by
  have backed := untouched.backed
  have same := untouched.sameEvidence
  -- The checkpoint first.
  have checkpoint : ∃ middle, storeCheckpoint input.checkpointHash input.envelope store =
      .ok () middle ∧ middle.checkpoints.contains input.checkpointHash = true ∧
      Untouched groupId server requester middle := by
    cases known : store.checkpoints[input.checkpointHash]? with
    | some existing =>
      have isSame := same.checkpoints _ _ _ stored known
      refine ⟨store, ?_, ?_, untouched⟩
      · simp [storeCheckpoint, known, isSame]
      · rw [contains_eq_isSome_getElem?, known]
        rfl
    | none =>
      have ran : storeCheckpoint input.checkpointHash input.envelope store = .ok ()
          { store with
            checkpoints := store.checkpoints.insert input.checkpointHash input.envelope } := by
        simp [storeCheckpoint, known]
      refine ⟨_, ran, contains_insert_self, untouched.withEvidence
        (storeCheckpoint_sameState ran) ⟨?_, backed.unforked⟩
        ⟨same.pending, same.published, ?_⟩⟩
      · intro hash evidence found
        rw [contains_insert, backed.stored hash evidence found, Bool.or_true]
      · intro hash envelope other served found
        simp only [getElem?_insert_eq] at found
        split at found
        · rename_i isHash
          rw [← isHash, stored] at served
          cases served
          cases found
          rfl
        · exact same.checkpoints hash envelope other served found
  rcases checkpoint with ⟨middle, first, contains, middleUntouched⟩
  have middleSame := middleUntouched.sameEvidence
  have middleBacked := middleUntouched.backed
  have split : parkEvidence crypto input store =
      recordPendingEvidence (input.delta.deltaHash crypto)
        ⟨input.checkpointHash, input.proof⟩ middle := by
    rw [parkEvidence, bind_apply, first]
  rw [split]
  cases known : middle.pending[input.delta.deltaHash crypto]? with
  | some existing =>
    have isSame := middleSame.pending _ _ _ published known
    refine ⟨middle, ?_, middleUntouched⟩
    simp [recordPendingEvidence, known, isSame]
  | none =>
    have ran : recordPendingEvidence (input.delta.deltaHash crypto)
        ⟨input.checkpointHash, input.proof⟩ middle = .ok () { middle with
          pending := middle.pending.insert (input.delta.deltaHash crypto)
            ⟨input.checkpointHash, input.proof⟩ } := by
      simp [recordPendingEvidence, known]
    -- A parked row is an old one, or the evidence that was served.
    have rows : ∀ (hash : DeltaHash) evidence, (middle.pending.insert
        (input.delta.deltaHash crypto) ⟨input.checkpointHash, input.proof⟩)[hash]? =
          some evidence → middle.pending[hash]? = some evidence ∨
        (input.delta.deltaHash crypto = hash ∧
          evidence = ⟨input.checkpointHash, input.proof⟩) := by
      intro hash evidence found
      rw [getElem?_insert_eq] at found
      split at found
      · rename_i isHash
        cases found
        exact Or.inr ⟨isHash, rfl⟩
      · exact Or.inl found
    refine ⟨_, ran, middleUntouched.withEvidence (recordPendingEvidence_sameState ran)
      ⟨?_, ?_⟩ ⟨?_, middleSame.published, middleSame.checkpoints⟩⟩
    · intro hash evidence found
      rcases rows hash evidence found with old | ⟨_, rfl⟩
      · exact middleBacked.stored hash evidence old
      · exact contains
    · intro hash evidence other found attached
      rcases rows hash evidence found with old | ⟨rfl, rfl⟩
      · exact middleBacked.unforked hash evidence other old attached
      · exact middleSame.published _ _ other published attached
    · intro hash evidence other served found
      rcases rows hash other found with old | ⟨rfl, rfl⟩
      · exact middleSame.pending hash evidence other served old
      · rw [published] at served
        cases served
        rfl

theorem Attempt.eq_withHolds {now : Int}
    {store : Store} {step : Step}
    (attempt : Attempt crypto groupId delta key now store step after)
    (notAdmitted : ∀ dot, step ≠ .admitted dot) : after = { store with holds := after.holds } := by
  cases attempt with
  | held blocked ran =>
    rcases holdsAfter_of_held ran with ⟨holds, rfl, _⟩
    rfl
  | admitted admissible installs => exact absurd rfl (notAdmitted delta.dot)
  | _ => rfl

theorem evidenceInvariant (base : Store) : AttemptInvariant crypto groupId
    (fun delta => delta.decodable = true)
    (fun store => store.Consistent ∧ store.Quiet ∧ store.pending = base.pending ∧
      store.published = base.published ∧ store.checkpoints = base.checkpoints) where
  decodes := fun _ decodes => decodes
  consistent := fun _ kept => kept.1
  held := fun _ kept => kept.1.held
  keeps := fun store delta key now step after kept decodes attempt => by
    refine ⟨attempt.consistent kept.1 decodes, ?_⟩
    rcases attempt.effect with ⟨holds, rfl, _⟩ | ⟨installed, _, installs, rfl⟩
    · exact ⟨⟨kept.2.1.closures, kept.2.1.closed, kept.2.1.journal⟩, kept.2.2⟩
    · have quiet := installs.quiet kept.2.1
      refine ⟨⟨quiet.closures, quiet.closed, quiet.journal⟩, ?_⟩
      rcases installs.written with ⟨heads, closed, rfl, _⟩
      exact kept.2.2
  dooms := fun store _ _ _ _ _ kept _ attempt dooms => by
    rw [attempt.spares kept.2.1] at dooms
    cases dooms

theorem attachToDuplicate_cases {outcome : NativeAdmission}
    {store : Store} (ran : attachToDuplicate crypto delta outcome store = .ok () after) :
    after = store ∨ ∃ hash, attachParked hash store = .ok () after := by
  cases outcome with
  | duplicate =>
    simp only [attachToDuplicate, bind_apply, get_apply] at ran
    cases logged : store.log[delta.dot]? with
    | none =>
      simp only [logged] at ran
      cases ran
      exact Or.inl rfl
    | some hash =>
      simp only [logged] at ran
      by_cases other : hash ≠ delta.deltaHash crypto
      · rw [if_pos other] at ran
        cases ran
      · rw [if_neg other] at ran
        exact Or.inr ⟨hash, ran⟩
  | _ =>
    cases ran
    exact Or.inl rfl

variable {keyFor : KeyFor} {now : Int} {input : ProofCarryingDelta}

variable (keyFor now) in
theorem Untouched.admitParked_installs {parked : Store} (inStep : requester.InStep)
    (untouched : Untouched groupId server requester parked)
    (decodes : input.delta.decodable = true)
    (validKey : crypto.validKey input.envelope.authorSigningPublicKey = true)
    (admissible : Admissible crypto groupId input.delta input.envelope.authorSigningPublicKey
      parked) :
    ∃ released after, admitParked crypto groupId input keyFor now parked =
        .ok (.admitted input.delta.dot released) after ∧
      after.log[input.delta.dot]? = some (input.delta.deltaHash crypto) := by
  have consistent := untouched.consistent inStep
  have quiet := untouched.quiet inStep
  rcases applyOrHold_of_admissible now consistent decodes admissible with
    ⟨installed, ran, installs⟩
  have attempt : Attempt crypto groupId input.delta input.envelope.authorSigningPublicKey now
    parked (.admitted input.delta.dot) (installed.clearHold input.delta.dot) :=
      .admitted admissible installs
  have among : (installed.clearHold input.delta.dot).holds ⊆ parked.holds := by
    rw [← installs.holds_eq]
    exact (Store.clearHold_sublist installed input.delta.dot).subset
  have logged : (installed.clearHold input.delta.dot).log[input.delta.dot]? =
      some (input.delta.deltaHash crypto) := by
    change installed.log[input.delta.dot]? = _
    rw [installs.log_eq, getElem?_insert_eq, if_pos rfl]
  rcases releaseWaiters_cases (attempt.consistent consistent decodes) with
    ⟨released, cascaded, cascade, grows⟩ |
      ⟨failure, _, _, _, ⟨row, held, _, unappliable⟩ | ⟨author, seq, unreadable⟩⟩
  · have admits : admitNativeDeltaWithKey crypto groupId input.delta
        input.envelope.authorSigningPublicKey keyFor now parked =
          .ok (.admitted input.delta.dot released) cascaded := by
      simp only [admitNativeDeltaWithKey, bind_apply, ran, reportStep]
      rw [cascade]
      rfl
    have kept := (evidenceInvariant parked).admitNativeDeltaWithKey
      ⟨consistent, quiet, rfl, rfl, rfl⟩ decodes admits
    have backed : cascaded.Backed := by
      refine ⟨?_, ?_⟩
      · rw [kept.2.2.1, kept.2.2.2.2]
        exact untouched.backed.stored
      · rw [kept.2.2.1, kept.2.2.2.1]
        exact untouched.backed.unforked
    rcases attachPendingEvidence_ok backed (input.delta.dot :: released) with ⟨after, attached⟩
    refine ⟨released, after, ?_, ?_⟩
    · simp only [admitParked, validKey, Bool.not_true, Bool.false_eq_true, if_false,
        bind_apply, admits, NativeAdmission.newlyInstalled, attached,
        attachToDuplicate, pure_apply]
    · rw [attachPendingEvidence_sameState attached]
      exact grows _ _ logged
  · exact absurd unappliable (untouched.appliable row (among held))
  · rw [checkFreeze, attempt.journal_eq, quiet.journal] at unreadable
    cases unreadable

theorem Untouched.admitParked_keeps {parked : Store} (inStep : requester.InStep)
    (untouched : Untouched groupId server requester parked)
    (decodes : input.delta.decodable = true) (appliable : ¬Unappliable groupId input.delta)
    (inadmissible : ¬Admissible crypto groupId input.delta input.envelope.authorSigningPublicKey
      parked) {outcome : NativeAdmission}
    (ran : admitParked crypto groupId input keyFor now parked = .ok outcome after) :
    Untouched groupId server requester after := by
  have consistent := untouched.consistent inStep
  unfold admitParked at ran
  split at ran
  · cases ran
  rcases bind_eq_ok_iff.mp ran with ⟨reported, middle, admitted, rest⟩
  rcases bind_eq_ok_iff.mp admitted with ⟨step, attempted, tried, told⟩
  rcases consistentInvariant.applyOrHold consistent decodes tried with ⟨_, attempt⟩
  have notAdmitted : ∀ dot, step ≠ .admitted dot := by
    intro dot isAdmitted
    exact inadmissible (attempt.admitted_eq isAdmitted).2.1
  have held := attempt.holdsAfter
  have stays : Untouched groupId server requester attempted := by
    rw [attempt.eq_withHolds notAdmitted]
    apply untouched.withHolds
    · intro row member
      rcases held.delta_eq member with same | ⟨old, inHolds, same⟩
      · exact same ▸ ⟨decodes, appliable⟩
      · exact same ▸ ⟨untouched.held old inHolds, untouched.appliable old inHolds⟩
    · exact held.distinct untouched.heldDistinct
  -- Nothing was installed, so only a duplicate has evidence to attach.
  have attaches : middle = attempted ∧ reported.newlyInstalled = [] := by
    cases step with
    | admitted dot => exact absurd rfl (notAdmitted dot)
    | _ =>
      cases told
      exact ⟨rfl, rfl⟩
  rcases attaches with ⟨rfl, none⟩
  rw [none] at rest
  rcases bind_eq_ok_iff.mp rest with ⟨_, _, nothing, duplicates⟩
  cases nothing
  rcases bind_eq_ok_iff.mp duplicates with ⟨_, final, attached, finished⟩
  cases finished
  rcases attachToDuplicate_cases attached with rfl | ⟨hash, attachedHash⟩
  · exact stays
  · rcases attachParked_ok stays.backed hash with
      ⟨expected, ranTo, backed, checkpoints, pending, published⟩
    have same := attachParked_sameState attachedHash
    rw [attachedHash] at ranTo
    cases ranTo
    refine stays.withEvidence same backed ⟨?_, ?_, ?_⟩
    · intro known evidence other served found
      exact stays.sameEvidence.pending known evidence other served (pending known other found)
    · intro known evidence other served found
      rcases published known other found with before | parkedBefore
      · exact stays.sameEvidence.published known evidence other served before
      · exact stays.sameEvidence.pending known evidence other served parkedBefore
    · rw [checkpoints]
      exact stays.sameEvidence.checkpoints

end Entry

/-! ## A whole answer -/

section Round

variable {crypto : Crypto} {groupId : FolderGroupId} {peer : PeerAccess}
  {server requester : Store} {clock : Nat → Int}

variable (crypto groupId peer) in
theorem ingestEntry_grows (now : Int) (entry : DeltaBatchEntry) (report : IngestReport)
    {store : Store} (consistent : store.Consistent) :
    (ingestEntry crypto groupId peer now entry store report).1.Consistent ∧
      ∀ (dot : Dot) hash, store.log[dot]? = some hash →
        (ingestEntry crypto groupId peer now entry store report).1.log[dot]? = some hash := by
  let kept : Store → Prop := fun after => after.Consistent ∧
    ∀ (dot : Dot) hash, store.log[dot]? = some hash → after.log[dot]? = some hash
  have unchanged : kept store := ⟨consistent, fun _ _ logged => logged⟩
  have sameState : ∀ before after : Store, before.SameState after → kept before → kept after := by
    intro before after same holds
    rw [same]
    exact ⟨⟨holds.1.logged, holds.1.held, holds.1.heldDistinct⟩, holds.2⟩
  have invariant : AttemptInvariant crypto groupId (fun delta => delta.decodable = true) kept :=
    { decodes := fun _ decodes => decodes
      consistent := fun _ holds => holds.1
      held := fun _ holds => holds.1.held
      keeps := fun before delta key time step after holds decodes attempt =>
        ⟨attempt.consistent holds.1 decodes, fun dot hash logged =>
          attempt.log_mono (holds.2 dot hash logged)⟩
      dooms := fun before delta key time step after holds decodes attempt dooms => by
        rcases Store.dropUnservableHolds_eq crypto after delta.author delta.seq with
          ⟨rows, pending, dropped, among⟩
        rw [dropped]
        exact ⟨(attempt.consistent holds.1 decodes).withFewerHolds among pending,
          fun dot hash logged => attempt.log_mono (holds.2 dot hash logged)⟩ }
  have admits : ∀ outcome after, admitPublishedNativeDelta crypto groupId
      entry.toProofCarryingDelta peer.keyFor peer.authorityKey now store = .ok outcome after →
      kept after := by
    intro outcome after ran
    unfold admitPublishedNativeDelta at ran
    cases verified : verifyProofCarryingDelta crypto entry.toProofCarryingDelta groupId
        peer.authorityKey with
    | error failure =>
      simp only [verified] at ran
      cases ran
      exact unchanged
    | ok passed =>
      simp only [verified] at ran
      have decodes := (verifyProofCarryingDelta_ok verified).1
      rcases bind_eq_ok_iff.mp ran with ⟨_, parked, parks, admitted⟩
      rcases bind_eq_ok_iff.mp parks with ⟨_, checkpointed, stores, records⟩
      have atParked := sameState _ _ (recordPendingEvidence_sameState records)
        (sameState _ _ (storeCheckpoint_sameState stores) unchanged)
      unfold admitParked at admitted
      split at admitted
      · cases admitted
      rcases bind_eq_ok_iff.mp admitted with ⟨told, middle, installs, rest⟩
      have atMiddle := invariant.admitNativeDeltaWithKey atParked decodes installs
      rcases bind_eq_ok_iff.mp rest with ⟨_, attached, attaches, duplicates⟩
      have atAttached := sameState _ _ (attachPendingEvidence_sameState attaches) atMiddle
      rcases bind_eq_ok_iff.mp duplicates with ⟨_, final, late, finished⟩
      cases finished
      rcases attachToDuplicate_cases late with rfl | ⟨hash, lateHash⟩
      · exact atAttached
      · exact sameState _ _ (attachParked_sameState lateHash) atAttached
  change kept _
  unfold ingestEntry
  split
  · exact unchanged
  · cases ran : admitPublishedNativeDelta crypto groupId entry.toProofCarryingDelta peer.keyFor
        peer.authorityKey now store with
    | error failure after => exact unchanged
    | ok outcome after =>
      have atAfter := admits outcome after ran
      dsimp only
      split
      · rcases storeCarriedVersions_ok crypto entry.delta entry.versions after with
          ⟨stored, table, ranVersions⟩
        rw [ranVersions]
        exact ⟨⟨atAfter.1.logged, atAfter.1.held, atAfter.1.heldDistinct⟩, atAfter.2⟩
      · exact atAfter

theorem ingestFrom_grows {entries : List DeltaBatchEntry} {index : Nat} {store : Store}
    {report : IngestReport} (consistent : store.Consistent) (dot : Dot) (hash : DeltaHash)
    (logged : store.log[dot]? = some hash) :
    (ingestFrom crypto groupId peer clock index entries store report).1.log[dot]? = some hash := by
  induction entries generalizing index store report with
  | nil => exact logged
  | cons entry rest induction =>
    rcases ingestEntry_grows crypto groupId peer (clock index) entry report consistent with ⟨stays, grows⟩
    exact induction stays (grows dot hash logged)

section Served

variable (canServe : CanServe crypto groupId peer server)
  (canRequest : CanRequest groupId server requester)

include canServe canRequest

theorem ingestEntry_untouched
    (served : entryAt crypto server dot = some entry) {store : Store}
    (untouched : Untouched groupId server requester store) (now : Int) (report : IngestReport) :
    (Landable crypto server requester entry.delta →
      ∃ hash, (ingestEntry crypto groupId peer now entry store report).1.log[entry.delta.dot]? =
        some hash) ∧
    (¬Landable crypto server requester entry.delta → Untouched groupId server requester
      (ingestEntry crypto groupId peer now entry store report).1) := by
  have inStep := canRequest.inStep
  rcases entryAt_eq_some canServe.sound served with ⟨installed, _, published, stored⟩
  rcases served_verifies canServe served with ⟨vouched, verified⟩
  rcases verifyProofCarryingDelta_ok verified with ⟨decodes, sameGroup, validKey, signed⟩
  rcases untouched.park published stored with ⟨parked, parks, atParked⟩
  have admission : admitPublishedNativeDelta crypto groupId entry.toProofCarryingDelta peer.keyFor
      peer.authorityKey now store =
        admitParked crypto groupId entry.toProofCarryingDelta peer.keyFor now parked := by
    rw [admitPublishedNativeDelta, verified]
    dsimp only
    rw [bind_apply, parks]
  have landable_iff := (admissible_iff_of_rest atParked.rest).trans
    (admissible_iff_landable canServe canRequest installed signed sameGroup)
  have open_ : (!peer.policyPoint entry.envelope.checkpoint) = false := by rw [vouched]; rfl
  constructor
  · intro landable
    rcases atParked.admitParked_installs peer.keyFor now inStep decodes validKey
      (landable_iff.mpr landable) with ⟨released, after, ran, logged⟩
    rcases storeCarriedVersions_ok crypto entry.delta entry.versions after with
      ⟨count, table, ranVersions⟩
    refine ⟨entry.delta.deltaHash crypto, ?_⟩
    simp only [ingestEntry, open_, Bool.false_eq_true, if_false, admission, ran,
      NativeAdmission.verified, if_true, ranVersions]
    exact logged
  · intro notLandable
    simp only [ingestEntry, open_, Bool.false_eq_true, if_false, admission]
    cases ran : admitParked crypto groupId entry.toProofCarryingDelta peer.keyFor now parked with
    | error failure after => exact untouched
    | ok outcome after =>
      have appliable : ¬Unappliable groupId entry.delta := fun unappliable =>
        unappliable.elim (fun other => other sameGroup)
          (fun repeated => repeated (canServe.distinct entry.delta installed))
      have stays := atParked.admitParked_keeps inStep decodes appliable
        (fun admissible => notLandable (landable_iff.mp admissible)) ran
      dsimp only
      split
      · rcases storeCarriedVersions_ok crypto entry.delta entry.versions after with
          ⟨count, table, ranVersions⟩
        rw [ranVersions]
        exact stays.withEvidence rfl ⟨stays.backed.stored, stays.backed.unforked⟩
          ⟨stays.sameEvidence.pending, stays.sameEvidence.published, stays.sameEvidence.checkpoints⟩
      · exact stays

variable (clock) in
/-- A batch of served entries installs something exactly when one of them can
be applied as things stood at the start. -/
theorem ingestFrom_untouched {entries : List DeltaBatchEntry}
    (served : ∀ entry, entry ∈ entries → ∃ dot, entryAt crypto server dot = some entry)
    (index : Nat) (report : IngestReport) {store : Store}
    (untouched : Untouched groupId server requester store) :
    ((∃ entry, entry ∈ entries ∧ Landable crypto server requester entry.delta) →
      ∃ (dot : Dot) (hash : DeltaHash), requester.log[dot]? = none ∧
        (ingestFrom crypto groupId peer clock index entries store report).1.log[dot]? = some hash) ∧
    ((∀ entry, entry ∈ entries → ¬Landable crypto server requester entry.delta) →
      Untouched groupId server requester
        (ingestFrom crypto groupId peer clock index entries store report).1) := by
  induction entries generalizing index store report with
  | nil =>
    refine ⟨?_, fun _ => untouched⟩
    rintro ⟨entry, member, _⟩
    cases member
  | cons entry rest induction =>
    rcases served entry (.head _) with ⟨dot, servedHere⟩
    have servedRest := fun later member => served later (.tail entry member)
    rcases ingestEntry_untouched canServe canRequest servedHere untouched (clock index)
      report with ⟨lands, keeps⟩
    by_cases landable : Landable crypto server requester entry.delta
    · refine ⟨fun _ => ?_, fun none => absurd landable (none entry (.head _))⟩
      rcases lands landable with ⟨hash, logged⟩
      have unlogged : requester.log[entry.delta.dot]? = none := by
        apply canRequest.inStep.consistent.unlogged_of_chain
        rcases served_verifies canServe servedHere with ⟨_, verified⟩
        rcases verifyProofCarryingDelta_ok verified with ⟨_, sameGroup, _, signed⟩
        exact ((admissible_iff_landable canServe canRequest landable.installed signed
          sameGroup).mpr landable).ready.chain
      have consistent := (ingestEntry_grows crypto groupId peer (clock index) entry report
        (untouched.consistent canRequest.inStep)).1
      exact ⟨entry.delta.dot, hash, unlogged, ingestFrom_grows consistent _ _ logged⟩
    · rcases induction servedRest (index + 1) _ (keeps landable) with ⟨landsLater, keepsLater⟩
      refine ⟨?_, fun none => keepsLater fun later member =>
        none later (.tail entry member)⟩
      rintro ⟨later, member, laterLandable⟩
      rcases List.mem_cons.mp member with same | inRest
      · exact absurd (same ▸ laterLandable) landable
      · exact landsLater ⟨later, inRest, laterLandable⟩

private theorem answer_facts (device : DeviceId) :
    ∃ answer : List DeltaBatchEntry, pullRound crypto groupId peer clock device server requester =
        (ingestFrom crypto groupId peer clock 0 answer requester ⟨0, 0, 0, []⟩).1 ∧
      (∀ entry, entry ∈ answer → entryAt crypto server entry.delta.dot = some entry) ∧
      ∀ entry, entryAt crypto server entry.delta.dot = some entry →
        entry.delta.seq = positionSeq requester.frontier[entry.delta.author]? + 1 →
        (entry ∈ answer ↔
          (missingBefore crypto server requester entry.delta.author).length < serveLimit ∧
          ((missingBefore crypto server requester entry.delta.author).map
            (DeltaBatchEntry.bytes crypto)).sum < serveBytes) := by
  have sound := canServe.sound
  refine ⟨_, by rw [pullRound, deltasToServeWithin_eq canServe canRequest.resolved]; rfl, ?_, ?_⟩
  · intro entry member
    rcases List.mem_flatMap.mp (Budget.takeWithin_subset _ _ _ member) with ⟨position, _, among⟩
    rcases List.mem_filterMap.mp among with ⟨seq, _, served⟩
    rw [(entryAt_eq_some sound served).2.1]
    exact served
  · intro entry served next
    exact mem_answer_iff sound next served serveLimit serveBytes

theorem landable_of_roundInstalls {device : DeviceId}
    (installs : RoundInstalls crypto groupId peer clock device server requester) :
    ∃ delta, Landable crypto server requester delta ∧
      (missingBefore crypto server requester delta.author).length < serveLimit ∧
      ((missingBefore crypto server requester delta.author).map
        (DeltaBatchEntry.bytes crypto)).sum < serveBytes := by
  rcases installs with ⟨dot, hash, unlogged, logged⟩
  rcases answer_facts canServe canRequest device with ⟨answer, round, served, budget⟩
  rw [round] at logged
  by_cases lands : ∃ entry, entry ∈ answer ∧ Landable crypto server requester entry.delta
  · rcases lands with ⟨entry, member, landable⟩
    exact ⟨entry.delta, landable, (budget entry (served entry member) landable.next).mp member⟩
  · have untouched := (ingestFrom_untouched clock canServe canRequest
      (fun entry member => ⟨_, served entry member⟩) 0 ⟨0, 0, 0, []⟩
      (Untouched.start canRequest)).2 fun entry member landable => lands ⟨entry, member, landable⟩
    rw [untouched.log_eq, unlogged] at logged
    cases logged

variable (clock) in
/-- A delta that could be applied is in the answer when what comes before it
leaves room, and then something is installed. -/
theorem roundInstalls_of_landable {device : DeviceId} {delta : NativeDelta}
    (landable : Landable crypto server requester delta)
    (few : (missingBefore crypto server requester delta.author).length < serveLimit)
    (small : ((missingBefore crypto server requester delta.author).map
      (DeltaBatchEntry.bytes crypto)).sum < serveBytes) :
    RoundInstalls crypto groupId peer clock device server requester := by
  have sound := canServe.sound
  rcases answer_facts canServe canRequest device with ⟨answer, round, served, budget⟩
  rcases Option.isSome_iff_exists.mp
    (entryAt_isSome canServe (sound.logged_of_installed landable.installed)) with ⟨entry, isServed⟩
  have sameDelta : entry.delta = delta := by
    rcases entryAt_eq_some sound isServed with ⟨installed, sameDot, _⟩
    rw [Store.mem_installedDeltas, sameDot] at installed
    have stored : server.bodies[delta.dot]? = some ⟨delta.deltaHash crypto, delta⟩ :=
      landable.installed
    rw [stored] at installed
    exact (congrArg BodyRow.delta (Option.some.inj installed)).symm
  subst sameDelta
  have member := (budget entry isServed landable.next).mpr ⟨few, small⟩
  rw [RoundInstalls, round]
  exact (ingestFrom_untouched clock canServe canRequest
    (fun entry member => ⟨_, served entry member⟩) 0 ⟨0, 0, 0, []⟩
    (Untouched.start canRequest)).1 ⟨entry, member, landable⟩

end Served

/-- A pull round installs something exactly when some author's first delta that
the requester lacks can be applied there, and what it lacks of the authors
ordered before that one is within both budgets of an answer. -/
theorem pull_round_installs_iff (canServe : CanServe crypto groupId peer server)
    (canRequest : CanRequest groupId server requester) (clock : Nat → Int) (device : DeviceId) :
    RoundInstalls crypto groupId peer clock device server requester ↔
      ∃ delta, Landable crypto server requester delta ∧
        (missingBefore crypto server requester delta.author).length < serveLimit ∧
        ((missingBefore crypto server requester delta.author).map
          (DeltaBatchEntry.bytes crypto)).sum < serveBytes := by
  constructor
  · intro installs
    exact landable_of_roundInstalls canServe canRequest installs
  · rintro ⟨delta, landable, few, small⟩
    exact roundInstalls_of_landable clock canServe canRequest landable few small

end Round

/-! ## Two devices

The phone writes a file; the laptop removes it and writes five large ones. The
laptop's delta is served first, and fills the answer. -/

/-- As `Crypto.sample`, with a digest for long inputs that need not read them. -/
def Crypto.sampleLong : Crypto :=
  { Crypto.sample with
    sha256 := fun bytes =>
      if 100000 < bytes.length then BitVec.ofNat 256 bytes.length
      else Crypto.sample.sha256 bytes }

namespace SamplePull

def version (index : Nat) : FileVersion := FileVersion.ofBlocks (100000 + index)

def versionHash (index : Nat) : VersionHash := ⟨BitVec.ofNat 256 (40 * (100000 + index) + 35)⟩

theorem computeHash_version (index : Nat) :
    (version index).computeHash Crypto.sampleLong = versionHash index := by
  have length : (version index).canonicalEncoding.length = 40 * (100000 + index) + 35 :=
    FileVersion.encodedLen_ofBlocks (100000 + index)
  simp only [FileVersion.computeHash, Crypto.sampleLong, length, versionHash]
  rw [if_pos (by omega)]

def onPhone : NativeDelta :=
  NativeDelta.signedBy Crypto.sampleLong (Crypto.sampleSign 6)
    ⟨"group", ⟨"phone", 1⟩, 1, none, [⟨"notes", [], some ⟨⟨7⟩⟩⟩], none, 0⟩

def onLaptop : NativeDelta :=
  NativeDelta.signedBy Crypto.sampleLong (Crypto.sampleSign 5)
    ⟨"group", ⟨"laptop", 1⟩, 1, none,
      ⟨"notes", [⟨onPhone.dot, onPhone.deltaHash Crypto.sampleLong⟩], none⟩ ::
        (List.range 5).map fun index =>
          ⟨String.ofList ['v', Char.ofNat (48 + index)], [], some ⟨versionHash index⟩⟩,
      none, 0⟩

/-- The checkpoint of one delta alone, signed by the authority under key 9. -/
def envelope (delta : NativeDelta) (key : VerifyingKey) : CheckpointEnvelope :=
  let checkpoint : AuthorizationCheckpoint :=
    ⟨"group", delta.author.device, fingerprintSigningKey Crypto.sampleLong key,
      leafHash Crypto.sampleLong (delta.deltaHash Crypto.sampleLong).bits, 1, 1, 0, 0, 0, 0, 0⟩
  ⟨checkpoint, Crypto.sampleSign 9 (canonicalSigningBytes checkpoint), key⟩

def evidence (delta : NativeDelta) (key : VerifyingKey) : DeltaEvidence :=
  let sealed_ := envelope delta key
  ⟨checkpointHash Crypto.sampleLong sealed_.checkpoint sealed_.signature, ⟨0, 1, []⟩⟩

def publish (store : Store) (delta : NativeDelta) (key : VerifyingKey) : Store :=
  { store with
    published := store.published.insert (delta.deltaHash Crypto.sampleLong) (evidence delta key)
    checkpoints :=
      store.checkpoints.insert (evidence delta key).checkpointHash (envelope delta key) }

def peer : PeerAccess := ⟨sampleKeys, fun _ _ => some 9, fun _ => true⟩

def installed : Store :=
  admitAll Crypto.sampleLong "group" Store.empty
    [⟨onPhone, sampleKeys, 0⟩, ⟨onLaptop, sampleKeys, 1⟩]

def server (versions : ExtTreeMap VersionHash FileVersion) : Store :=
  { publish (publish installed onPhone 6) onLaptop 5 with versions := versions }

theorem onPhone_decodable : onPhone.decodable = true := by decide

theorem onLaptop_decodable : onLaptop.decodable = true := by decide

theorem sameState_server (versions : ExtTreeMap VersionHash FileVersion) :
    installed.SameState (server versions) := by
  simp only [Store.SameState, server, publish]

theorem bodies_server (versions : ExtTreeMap VersionHash FileVersion) :
    (server versions).bodies = installed.bodies := by
  simp only [server, publish]

theorem frontier_server (versions : ExtTreeMap VersionHash FileVersion) :
    (server versions).frontier = installed.frontier := by
  simp only [server, publish]

theorem installed_tables :
    installed.bodies.toList = [(onLaptop.dot, ⟨onLaptop.deltaHash Crypto.sampleLong, onLaptop⟩),
        (onPhone.dot, ⟨onPhone.deltaHash Crypto.sampleLong, onPhone⟩)] ∧
    installed.frontier.toList = [(⟨"laptop", 1⟩, ⟨1, onLaptop.deltaHash Crypto.sampleLong⟩),
        (⟨"phone", 1⟩, ⟨1, onPhone.deltaHash Crypto.sampleLong⟩)] := by
  decide +kernel

theorem installed_server (versions : ExtTreeMap VersionHash FileVersion) :
    delta ∈ (server versions).installedDeltas Crypto.sampleLong ↔
      delta = onPhone ∨ delta = onLaptop := by
  rw [Store.mem_installedDeltas, bodies_server, ← mem_toList_iff_getElem?_eq_some,
    installed_tables.1]
  constructor
  · intro member
    rcases List.mem_cons.mp member with same | later
    · exact Or.inr (congrArg (fun row => row.2.delta) same)
    · exact Or.inl (congrArg (fun row => row.2.delta) (List.mem_singleton.mp later))
  · intro choice
    rcases choice with same | same
    · rw [same]
      exact .tail _ (.head _)
    · rw [same]
      exact .head _

theorem sound_server (versions : ExtTreeMap VersionHash FileVersion) :
    (server versions).Sound Crypto.sampleLong := by
  have sound : installed.Sound Crypto.sampleLong := by
    apply sound_admitAll
    intro call member
    simp only [List.mem_cons, List.not_mem_nil, or_false] at member
    rcases member with same | same
    · rw [same]
      exact onPhone_decodable
    · rw [same]
      exact onLaptop_decodable
  exact sound.ofSameState (sameState_server versions)

theorem canServe {versions : ExtTreeMap VersionHash FileVersion}
    (valid : ∀ (hash : VersionHash) (stored : FileVersion), versions[hash]? = some stored →
      stored.decodable = true ∧ stored.computeHash Crypto.sampleLong = hash) :
    CanServe Crypto.sampleLong "group" peer (server versions) where
  sound := sound_server versions
  portable := fun delta member => by
    rcases (installed_server versions).mp member with same | same
    · rw [same]
      decide
    · rw [same]
      decide
  distinct := fun delta member => by
    have distinct : ∀ delta, delta ∈ [onPhone, onLaptop] →
        ∀ op, op ∈ delta.ops → (op.removes.map HeadRef.dot).Nodup := by
      decide
    apply distinct
    rcases (installed_server versions).mp member with same | same
    · simp [same]
    · simp [same]
  versions := valid
  published := fun delta member => by
    have published : ∀ signed, signed ∈ [(onPhone, 6), (onLaptop, 5)] →
        (server ∅).published[signed.1.deltaHash Crypto.sampleLong]? =
          some (evidence signed.1 signed.2) ∧
        (server ∅).checkpoints[(evidence signed.1 signed.2).checkpointHash]? =
          some (envelope signed.1 signed.2) ∧
        verifyProofCarryingDelta Crypto.sampleLong ⟨signed.1,
          (evidence signed.1 signed.2).checkpointHash, envelope signed.1 signed.2,
          (evidence signed.1 signed.2).proof⟩ "group" peer.authorityKey = .ok () := by
      decide +kernel
    have signer : ∃ key, (delta, key) ∈ [(onPhone, (6 : VerifyingKey)), (onLaptop, 5)] := by
      rcases (installed_server versions).mp member with same | same
      · exact ⟨6, by simp [same]⟩
      · exact ⟨5, by simp [same]⟩
    rcases signer with ⟨key, isSigned⟩
    rcases published _ isSigned with ⟨attached, stored, verified⟩
    exact ⟨evidence delta key, envelope delta key, attached, stored, rfl, verified⟩

theorem canRequest (versions : ExtTreeMap VersionHash FileVersion) :
    CanRequest "group" (server versions) Store.empty where
  inStep := (Store.Sound.empty Crypto.sampleLong).inStep
  subset := fun dot hash logged => by simp [Store.empty] at logged
  resolved := fun key payload live => by simp [Store.empty] at live
  appliable := fun row member => by simp [Store.empty] at member
  backed := ⟨fun hash evidence parked => by simp [Store.empty] at parked,
    fun hash evidence other parked => by simp [Store.empty] at parked⟩
  sameEvidence := ⟨fun hash evidence other _ parked => by simp [Store.empty] at parked,
    fun hash evidence other _ attached => by simp [Store.empty] at attached,
    fun hash envelope other _ stored => by simp [Store.empty] at stored⟩

def largeVersions : ExtTreeMap VersionHash FileVersion :=
  (List.range 5).foldl (fun table index => table.insert (versionHash index) (version index)) ∅

theorem largeVersions_valid (hash : VersionHash) (stored : FileVersion)
    (known : largeVersions[hash]? = some stored) :
    stored.decodable = true ∧ stored.computeHash Crypto.sampleLong = hash := by
  have isLarge : ∀ indices : List Nat, (∀ index, index ∈ indices → index < 5) →
      ∀ table : ExtTreeMap VersionHash FileVersion,
      (∀ (hash : VersionHash) (stored : FileVersion), table[hash]? = some stored →
        stored.decodable = true ∧ stored.computeHash Crypto.sampleLong = hash) →
      ∀ (hash : VersionHash) (stored : FileVersion), (indices.foldl (fun table index =>
        table.insert (versionHash index) (version index)) table)[hash]? = some stored →
        stored.decodable = true ∧ stored.computeHash Crypto.sampleLong = hash := by
    intro indices small
    induction indices with
    | nil =>
      intro table valid
      exact valid
    | cons index rest induction =>
      intro table valid
      apply induction fun later member => small later (.tail index member)
      intro hash stored found
      rw [getElem?_insert_eq] at found
      split at found
      · rename_i same
        cases found
        have few := small index (.head _)
        refine ⟨FileVersion.decodable_ofBlocks (by omega) ?_, same ▸ computeHash_version index⟩
        rw [maxEncodedVersionBytes]
        omega
      · exact valid hash stored found
  refine isLarge (List.range 5) (fun index => List.mem_range.mp) ∅ ?_ hash stored known
  intro hash stored absent
  rw [getElem?_empty] at absent
  cases absent

theorem getElem?_largeVersions {index : Nat} (small : index < 5) :
    largeVersions[versionHash index]? = some (version index) := by
  have distinct : ((List.range 5).map versionHash).Nodup := by decide
  have inserts : ∀ (table : ExtTreeMap VersionHash FileVersion) (index : Nat) (hash : VersionHash),
      (table.insert (versionHash index) (version index))[hash]? =
        if versionHash index = hash then some (version index) else table[hash]? :=
    fun table index hash => getElem?_insert_eq table _ hash _
  exact KeyedFold.view_foldl_of_mem (fun table hash => table[hash]?) versionHash
    (fun index _ => some (version index)) inserts ∅ distinct (List.mem_range.mpr small)

theorem onLaptop_large
    (served : entryAt Crypto.sampleLong (server largeVersions) onLaptop.dot = some entry) :
    serveBytes ≤ entry.bytes Crypto.sampleLong := by
  have named : onLaptop.versionsNamed.eraseDups = (List.range 5).map versionHash := by
    decide
  have held : ∀ indices : List Nat, (∀ index, index ∈ indices → index < 5) →
      heldVersions Crypto.sampleLong (server largeVersions) (indices.map versionHash) =
        .ok (indices.map version) := by
    intro indices small
    induction indices with
    | nil => rfl
    | cons index rest induction =>
      have stored := getElem?_largeVersions (small index (.head _))
      have valid := largeVersions_valid _ _ stored
      have found : getFileVersion Crypto.sampleLong (server largeVersions)
          (versionHash index) = .ok (some (version index)) := by
        rw [getFileVersion, show (server largeVersions).versions[versionHash index]? =
          some (version index) from stored]
        simp [valid.1, valid.2]
      rw [List.map_cons, heldVersions, found,
        induction fun later member => small later (.tail index member)]
      rfl
  rcases entryAt_eq_some (sound_server largeVersions) served with ⟨installedHere, sameDot, _⟩
  rcases Option.bind_eq_some_iff.mp served with ⟨body, stored, isEntry⟩
  rcases entryFor_eq_some isEntry with ⟨_, _, versions, _, _, carried, rfl⟩
  have sameDelta : body.delta = onLaptop := by
    rcases (installed_server largeVersions).mp installedHere with onOther | onOwn
    · have different : onPhone.dot ≠ onLaptop.dot := by decide
      exact absurd ((congrArg dot onOther).symm.trans sameDot) different
    · exact onOwn
  rw [carriedVersions, sameDelta, named, held _ fun index => List.mem_range.mp] at carried
  cases carried
  have lengths : ((List.range 5).map version).map FileVersion.encodedLen =
      (List.range 5).map fun index => 40 * (100000 + index) + 35 := by
    rw [List.map_map]
    exact List.map_congr_left fun index _ => FileVersion.encodedLen_ofBlocks (100000 + index)
  have total : serveBytes ≤ ((List.range 5).map fun index => 40 * (100000 + index) + 35).sum := by
    decide
  rw [DeltaBatchEntry.bytes, lengths]
  omega

end SamplePull

/-- With the large versions at hand the laptop's delta, which the phone has to
hold, is all an empty replica is ever sent. -/
theorem pull_round_stuck :
    ¬∀ server requester, CanServe Crypto.sampleLong "group" SamplePull.peer server →
      CanRequest "group" server requester →
      (∃ (dot : Dot) (hash : DeltaHash), server.log[dot]? = some hash ∧
        requester.log[dot]? = none) →
      RoundInstalls Crypto.sampleLong "group" SamplePull.peer (fun _ => 0) "laptop" server
        requester := by
  intro always
  let server := SamplePull.server SamplePull.largeVersions
  have canServe := SamplePull.canServe SamplePull.largeVersions_valid
  have canRequest := SamplePull.canRequest SamplePull.largeVersions
  have missing : ∃ (dot : Dot) (hash : DeltaHash), server.log[dot]? = some hash ∧
      Store.empty.log[dot]? = none := by
    exact ⟨SamplePull.onPhone.dot, _, canServe.sound.logged_of_installed
      ((SamplePull.installed_server _).mpr (Or.inl rfl)), rfl⟩
  rcases landable_of_roundInstalls canServe canRequest
    (always server Store.empty canServe canRequest missing) with ⟨delta, landable, _, small⟩
  rcases (SamplePull.installed_server SamplePull.largeVersions).mp landable.installed with
    same | same
  · -- Before the phone's delta stands the laptop's.
    have atLaptop : SamplePull.onLaptop ∈ server.installedDeltas Crypto.sampleLong :=
      (SamplePull.installed_server _).mpr (Or.inr rfl)
    rcases Option.isSome_iff_exists.mp
      (entryAt_isSome canServe (canServe.sound.logged_of_installed atLaptop)) with
      ⟨entry, served⟩
    have position : (⟨"laptop", 1⟩, ⟨1, SamplePull.onLaptop.deltaHash Crypto.sampleLong⟩) ∈
        server.frontier.toList := by
      rw [SamplePull.frontier_server, SamplePull.installed_tables.2]
      exact .head _
    have among : entry ∈ missingBefore Crypto.sampleLong server Store.empty delta.author := by
      refine List.mem_flatMap.mpr ⟨_, List.mem_filter.mpr ⟨position, ?_⟩, ?_⟩
      · rw [same]
        decide
      · refine List.mem_filterMap.mpr ⟨1, ?_, served⟩
        have known : server.frontier[(⟨"laptop", 1⟩ : AuthorId)]? = _ :=
          ExtTreeMap.mem_toList_iff_getElem?_eq_some.mp position
        rw [known]
        decide
    have large := SamplePull.onLaptop_large served
    rcases List.append_of_mem among with ⟨front, rest, split⟩
    rw [split, List.map_append, List.sum_append, List.map_cons, List.sum_cons] at small
    omega
  · -- The laptop's own delta waits on the phone's.
    have named : SamplePull.onPhone.dot ∈ delta.namedDots := by
      rw [same]
      decide
    have observed := landable.observed _ named
    revert observed
    decide

/-- Without them both deltas are sent and installed. -/
theorem pull_round_installs_small :
    RoundInstalls Crypto.sampleLong "group" SamplePull.peer (fun _ => 0) "laptop"
      (SamplePull.server ∅) Store.empty := by
  have canServe : CanServe Crypto.sampleLong "group" SamplePull.peer (SamplePull.server ∅) := by
    apply SamplePull.canServe
    intro hash stored absent
    rw [ExtTreeMap.getElem?_empty] at absent
    cases absent
  apply (pull_round_installs_iff canServe (SamplePull.canRequest ∅) (fun _ => 0) "laptop").mpr
  have small : (missingBefore Crypto.sampleLong (SamplePull.server ∅) Store.empty
      ⟨"phone", 1⟩).length < serveLimit ∧ ((missingBefore Crypto.sampleLong
        (SamplePull.server ∅) Store.empty ⟨"phone", 1⟩).map
          (DeltaBatchEntry.bytes Crypto.sampleLong)).sum < serveBytes := by
    decide +kernel
  refine ⟨SamplePull.onPhone, ⟨?_, ?_, ?_, ?_, ?_⟩, small⟩
  · exact (SamplePull.installed_server ∅).mpr (Or.inl rfl)
  · decide
  · intro dot named
    cases named
  · decide
  · decide

end Yadorilink
