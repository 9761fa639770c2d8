import Yadorilink.Admission.Isolation
import Yadorilink.Store.Authoring
import Yadorilink.Store.Landing

/-! Honest replicas that exchange signed deltas. Each authors under its own
author id against its own store, and any delta that was signed may reach any
replica, at any time and as often as may be. -/

namespace Yadorilink.Honest

open Std Transaction Function List

/-! ## Runs -/

/-- One moment of a run. A replica is named by the author id it owns. -/
structure World where
  stores : AuthorId → Store
  signed : List NativeDelta

inductive Action where
  /-- The replica signs and installs a mutation of its own. -/
  | author (replica : AuthorId) (edits : List PathEdit) (part : Option RecursivePart)
  /-- The signed delta at this position reaches the replica. -/
  | deliver (replica : AuthorId) (position : Nat) (now : Int)

def World.start : World := ⟨fun _ => Store.empty, []⟩

section Runs

variable (crypto : Crypto) (groupId : FolderGroupId) (signer : Signer)
  (planned : OperationKey → Nat)

def keys : KeyFor := fun author => some (signer.keyOf author)

/-- Capture lets portable paths through only and bounds what one delta carries,
and the parts of a recursive operation all carry the count it was planned
with. -/
def honestDelta (delta : NativeDelta) : Bool :=
  delta.decodable && (pathRefusal delta).isNone && delta.recursivePart.all fun part =>
    part.partCount = planned ⟨delta.author.device, part.operationId⟩

def readHeads (store : Store) (edits : List PathEdit) : NativeState :=
  ⟨∅, store.loadHeadsAtPaths (edits.map PathEdit.path)⟩

/-- The deltas of a mutation whose edits pass the author's own check, and the
store with them installed. -/
def authorHonestly (replica : AuthorId) (edits : List PathEdit) (part : Option RecursivePart)
    (store : Store) : Option (List NativeDelta × Store) :=
  match mergeEdits edits with
  | .error _ => none
  | .ok merged =>
    if ((readHeads store merged).checkEdits replica merged).isOk then
      match authorAndInstall crypto groupId signer replica (readHeads store merged) edits part
          store with
      | .ok deltas after => if deltas.all (honestDelta planned) then some (deltas, after) else none
      | .error _ _ => none
    else
      none

def World.perform (world : World) : Action → World
  | .author replica edits part =>
    match authorHonestly crypto groupId signer planned replica edits part
        (world.stores replica) with
    | some (deltas, after) =>
      ⟨Function.update world.stores replica after, deltas ++ world.signed⟩
    | none => world
  | .deliver replica position now =>
    match world.signed[position]? with
    | none => world
    | some delta =>
      let call : AdmissionCall := ⟨delta, keys signer, now⟩
      ⟨Function.update world.stores replica
        (admitOne crypto groupId (world.stores replica) call), world.signed⟩

def run (actions : List Action) : World :=
  actions.foldl (World.perform crypto groupId signer planned) World.start

end Runs

/-! ## What holds of every signed delta -/

/-- Everything a receiver checks of a delta by itself. -/
structure Trustworthy (crypto : Crypto) (groupId : FolderGroupId) (signer : Signer)
    (planned : OperationKey → Nat) (delta : NativeDelta) : Prop where
  decodes : delta.decodable = true
  portable : pathRefusal delta = none
  verified : delta.verifySignature crypto (signer.keyOf delta.author) = true
  sameGroup : delta.groupId = groupId
  distinct : delta.RemovalsDistinct
  part : ∀ part, delta.recursivePart = some part →
    part.partCount = planned ⟨delta.author.device, part.operationId⟩

/-- The parts a store recorded carry the counts their operations were planned
with. -/
def PartsPlanned (planned : OperationKey → Nat) (store : Store) : Prop :=
  ∀ (key : OperationKey) parts, store.parts[key]? = some parts →
    ∀ (index : Nat) count, parts[index]? = some count → count = planned key

theorem PartsPlanned.agrees {planned : OperationKey → Nat} {store : Store}
    (partsPlanned : PartsPlanned planned store) {delta : NativeDelta}
    (part : ∀ part, delta.recursivePart = some part →
      part.partCount = planned ⟨delta.author.device, part.operationId⟩) :
    store.conflictingPartCount delta = none := by
  unfold Store.conflictingPartCount
  cases isPart : delta.recursivePart with
  | none => rfl
  | some found =>
    dsimp only
    rw [Option.filter_eq_none_iff]
    intro count recorded
    simp only [Store.recordedPartCount, Option.bind_eq_some_iff, Option.map_eq_some_iff] at recorded
    rcases recorded with ⟨parts, known, entry, first, rfl⟩
    have inParts := ExtTreeMap.mem_toList_iff_getElem?_eq_some.mp (mem_of_head? first)
    rw [part found isPart, ← partsPlanned _ parts known entry.1 entry.2 inParts]
    simp

theorem PartsPlanned.installs {planned : OperationKey → Nat} {crypto : Crypto}
    {delta : NativeDelta} {store after : Store} (partsPlanned : PartsPlanned planned store)
    (part : ∀ part, delta.recursivePart = some part →
      part.partCount = planned ⟨delta.author.device, part.operationId⟩)
    (installs : Installs crypto delta store after) : PartsPlanned planned after := by
  have parts : after.parts = store.partsWith delta := by
    rcases installs.written with ⟨heads, closed, rfl, _⟩
    rfl
  intro key found known index count recorded
  rw [parts, Store.partsWith] at known
  cases isPart : delta.recursivePart with
  | none =>
    rw [isPart] at known
    exact partsPlanned key found known index count recorded
  | some claimed =>
    simp only [isPart, OrderedMap.getElem?_insert_eq] at known
    split at known
    · rename_i sameKey
      cases known
      rw [ExtTreeMap.getElem?_insertIfNew] at recorded
      split at recorded
      · cases recorded
        rw [← sameKey]
        exact part claimed isPart
      · cases before : store.parts[(⟨delta.author.device, claimed.operationId⟩ :
            OperationKey)]? with
        | none => simp [before] at recorded
        | some earlier =>
          rw [before, Option.getD_some] at recorded
          rw [← sameKey]
          exact partsPlanned _ earlier before index count recorded
    · exact partsPlanned key found known index count recorded

/-! ## What holds of every replica -/

/-- A replica that only has what was signed. -/
structure Replica (crypto : Crypto) (planned : OperationKey → Nat) (signed : List NativeDelta)
    (store : Store) : Prop where
  sound : store.Sound crypto
  held : ∀ row, row ∈ store.holds → row.delta ∈ signed
  installed : ∀ delta, delta ∈ store.installedDeltas crypto → delta ∈ signed
  parts : PartsPlanned planned store

theorem Replica.empty (crypto : Crypto) (planned : OperationKey → Nat) :
    Replica crypto planned [] Store.empty where
  sound := Store.Sound.empty crypto
  held := fun row absent => by cases absent
  installed := fun delta absent => by simp [Store.mem_installedDeltas, Store.empty] at absent
  parts := fun key parts absent => by simp [Store.empty] at absent

theorem Replica.mono {crypto : Crypto} {planned : OperationKey → Nat}
    {signed more : List NativeDelta} {store : Store} (among : signed ⊆ more)
    (replica : Replica crypto planned signed store) : Replica crypto planned more store where
  sound := replica.sound
  held := fun row member => among (replica.held row member)
  installed := fun delta member => among (replica.installed delta member)
  parts := replica.parts

section Run

variable {crypto : Crypto} {groupId : FolderGroupId} {signer : Signer}
  {planned : OperationKey → Nat}

theorem replicaInvariant {signed : List NativeDelta}
    (trustworthy : ∀ delta, delta ∈ signed → Trustworthy crypto groupId signer planned delta) :
    AttemptInvariant crypto groupId (fun delta => delta ∈ signed)
      (Replica crypto planned signed) := by
  refine .ofSound (fun delta member => (trustworthy delta member).decodes)
    (fun _ replica => replica.sound) (fun _ replica => replica.held) ?_
  intro store delta _ _ _ after replica member attempt
  refine ⟨attempt.sound replica.sound (trustworthy delta member).decodes, ?_, ?_, ?_⟩
  · intro row inHolds
    rcases attempt.holdsAfter.delta_eq inHolds with same | ⟨old, before, same⟩
    · exact same ▸ member
    · exact same ▸ replica.held old before
  · intro other inStore
    rcases attempt.installed_of_mem replica.sound inStore with same | before
    · exact same ▸ member
    · exact replica.installed other before
  · rcases attempt.effect with ⟨holds, rfl, _⟩ | ⟨installed, _, installs, rfl⟩
    · exact replica.parts
    · have parts : PartsPlanned planned installed :=
        replica.parts.installs (trustworthy delta member).part installs
      exact parts

/-! ## Authoring -/

/-- What a replica's own deltas leave behind: all of them installed, and nothing
else changed that admission reads. -/
structure AuthoredBy (crypto : Crypto) (groupId : FolderGroupId) (signer : Signer)
    (planned : OperationKey → Nat) (author : AuthorId) (deltas : List NativeDelta)
    (store after : Store) : Prop where
  sound : after.Sound crypto
  parts : PartsPlanned planned after
  holds : after.holds = store.holds
  installed : ∀ delta, delta ∈ after.installedDeltas crypto ↔
    delta ∈ deltas ∨ delta ∈ store.installedDeltas crypto
  own : ∀ delta, delta ∈ deltas → delta.author = author
  trustworthy : ∀ delta, delta ∈ deltas → Trustworthy crypto groupId signer planned delta

theorem honestDelta_iff {delta : NativeDelta} : honestDelta planned delta = true ↔
    delta.decodable = true ∧ pathRefusal delta = none ∧ ∀ part, delta.recursivePart = some part →
        part.partCount = planned ⟨delta.author.device, part.operationId⟩ := by
  simp only [honestDelta, Bool.and_eq_true, Option.isNone_iff_eq_none, Option.all_eq_true,
    decide_eq_true_eq, and_assoc]

theorem AuthoredBy.nil {author : AuthorId} {store : Store} (sound : store.Sound crypto)
    (parts : PartsPlanned planned store) :
    AuthoredBy crypto groupId signer planned author [] store store where
  sound := sound
  parts := parts
  holds := rfl
  installed := fun delta => by simp
  own := fun _ absent => absurd absent not_mem_nil
  trustworthy := fun _ absent => absurd absent not_mem_nil

theorem authorRounds_ok {author : AuthorId} {state : NativeState} {edits : List PathEdit}
    {part : Option RecursivePart} {left round seq : Nat} {prev : Option DeltaHash}
    {deltas : List NativeDelta} {store after : Store} (sound : store.Sound crypto)
    (parts : PartsPlanned planned store)
    (observed : ∀ edit, edit ∈ edits → ∀ dot, dot ∈ edit.observed →
      observedBy store.context dot = true)
    (ran : authorRounds crypto groupId signer author state edits part left round seq prev store =
      .ok deltas after)
    (honest : ∀ delta, delta ∈ deltas → honestDelta planned delta = true) :
    AuthoredBy crypto groupId signer planned author deltas store after := by
  induction left generalizing round seq prev deltas store with
  | zero =>
    cases ran
    exact AuthoredBy.nil sound parts
  | succ left induction =>
    rcases authorRounds_succ_ok ran with
      ⟨delta, isRound, _, middle, installed, rest, rfl, goesOn⟩
    rcases honestDelta_iff.mp (honest delta (.head _)) with
      ⟨decodes, portable, isPlanned⟩
    rcases installAuthoredDelta_ok sound decodes (parts.agrees isPlanned) installed with
      ⟨verified, sameGroup, distinct, installs⟩
    have ownDelta : delta.author = author := by
      rw [isRound]
      rfl
    rw [← ownDelta] at verified
    have named : ∀ dot, dot ∈ delta.namedDots → observedBy store.context dot = true := by
      intro dot isNamed
      rw [isRound] at isNamed
      rcases mem_observed_of_roundDelta isNamed with ⟨edit, member, inEdit⟩
      exact observed edit member dot inEdit
    have trustworthy : Trustworthy crypto groupId signer planned delta :=
      ⟨decodes, portable, verified, sameGroup, distinct, isPlanned⟩
    have authored : AuthoredBy crypto groupId signer planned author rest middle after := by
      rcases goesOn with ⟨_, rfl, rfl⟩ | ⟨_, next, more⟩
      · exact AuthoredBy.nil (installs.sound_after sound decodes named)
          (parts.installs isPlanned installs)
      · exact induction (installs.sound_after sound decodes named)
          (parts.installs isPlanned installs)
          (fun edit member dot inEdit =>
            installs.observedBy_mono sound (observed edit member dot inEdit))
          more (fun other member => honest other (.tail _ member))
    refine ⟨authored.sound, authored.parts, authored.holds.trans installs.holds_eq, ?_, ?_, ?_⟩
    · intro other
      rw [authored.installed, installs.installedDeltas_eq sound, Set.mem_insert_iff,
        mem_cons, or_left_comm, or_assoc]
    · intro other member
      rcases mem_cons.mp member with same | later
      · rw [same, ownDelta]
      · exact authored.own other later
    · intro other member
      rcases mem_cons.mp member with same | later
      · rw [same]
        exact trustworthy
      · exact authored.trustworthy other later

theorem authorHonestly_ok {author : AuthorId} {edits : List PathEdit}
    {part : Option RecursivePart} {deltas : List NativeDelta} {store after : Store}
    (sound : store.Sound crypto) (parts : PartsPlanned planned store)
    (ran : authorHonestly crypto groupId signer planned author edits part store =
      some (deltas, after)) :
    AuthoredBy crypto groupId signer planned author deltas store after := by
  unfold authorHonestly at ran
  cases merges : mergeEdits edits with
  | error failure =>
    simp only [merges] at ran
    cases ran
  | ok merged =>
    simp only [merges] at ran
    split at ran
    swap
    · cases ran
    rename_i passes
    have checked : (readHeads store merged).checkEdits author merged = .ok () := by
      cases result : (readHeads store merged).checkEdits author merged with
      | ok passed => rfl
      | error failure =>
        rw [result] at passes
        cases passes
    split at ran
    swap
    · cases ran
    rename_i signedDeltas final authors
    split at ran
    swap
    · cases ran
    rename_i allHonest
    cases ran
    have observed : ∀ edit, edit ∈ merged → ∀ dot, dot ∈ edit.observed →
        observedBy store.context dot = true := by
      intro edit member dot inEdit
      rcases ((NativeState.checkEdits_ok checked).2 edit member).observedCurrent dot inEdit with
        ⟨payload, live⟩
      rw [readHeads, Store.headAt_loadHeadsAtPaths, if_pos (mem_map_of_mem member)] at live
      exact (sound.observed_of_live live).2
    unfold authorAndInstall at authors
    split at authors
    · cases authors
      exact AuthoredBy.nil sound parts
    · simp only [merges, checked, bind_apply, get_apply] at authors
      cases next : (store.frontier[author]?).elim (some AuthorSeq.first) fun entry =>
          AuthorSeq.checkedNext entry.seq with
      | none =>
        simp only [next] at authors
        cases authors
      | some seq =>
        simp only [next] at authors
        exact authorRounds_ok sound parts observed authors
          fun delta member => all_eq_true.mp allHonest delta member

/-! ## Every run -/

/-- What holds at every moment of a run. -/
structure Invariant (crypto : Crypto) (groupId : FolderGroupId) (signer : Signer)
    (planned : OperationKey → Nat) (world : World) : Prop where
  replicas : ∀ replica, Replica crypto planned world.signed (world.stores replica)
  trustworthy : ∀ delta, delta ∈ world.signed → Trustworthy crypto groupId signer planned delta
  /-- An author has installed all it signed. -/
  own : ∀ delta, delta ∈ world.signed → delta ∈ (world.stores delta.author).installedDeltas crypto

namespace Invariant

theorem start : Invariant crypto groupId signer planned World.start where
  replicas := fun _ => Replica.empty crypto planned
  trustworthy := fun _ absent => absurd absent not_mem_nil
  own := fun _ absent => absurd absent not_mem_nil

variable {world : World} (invariant : Invariant crypto groupId signer planned world)

include invariant

theorem author {replica : AuthorId} {edits : List PathEdit} {part : Option RecursivePart} :
    Invariant crypto groupId signer planned
      (world.perform crypto groupId signer planned (.author replica edits part)) := by
  unfold World.perform
  dsimp only
  cases authors : authorHonestly crypto groupId signer planned replica edits part
      (world.stores replica) with
  | none => exact invariant
  | some result =>
    rcases result with ⟨deltas, after⟩
    have before := invariant.replicas replica
    have authored := authorHonestly_ok before.sound before.parts authors
    refine ⟨?_, ?_, ?_⟩
    · intro other
      by_cases same : other = replica
      · rw [same]
        simp only [update_self]
        refine ⟨authored.sound, ?_, ?_, authored.parts⟩
        · intro row inHolds
          rw [authored.holds] at inHolds
          exact mem_append_right _ (before.held row inHolds)
        · intro delta inStore
          rcases (authored.installed delta).mp inStore with new | old
          · exact mem_append_left _ new
          · exact mem_append_right _ (before.installed delta old)
      · simp only [update_of_ne same]
        exact (invariant.replicas other).mono (subset_append_right ..)
    · intro delta member
      rcases mem_append.mp member with new | old
      · exact authored.trustworthy delta new
      · exact invariant.trustworthy delta old
    · intro delta member
      rcases mem_append.mp member with new | old
      · simp only [authored.own delta new, update_self]
        exact (authored.installed delta).mpr (Or.inl new)
      · have inOwn := invariant.own delta old
        by_cases same : delta.author = replica
        · simp only [same, update_self]
          exact (authored.installed delta).mpr (Or.inr (same ▸ inOwn))
        · simp only [update_of_ne same]
          exact inOwn

theorem deliver {replica : AuthorId} {position : Nat} {now : Int} :
    Invariant crypto groupId signer planned
      (world.perform crypto groupId signer planned (.deliver replica position now)) := by
  unfold World.perform
  dsimp only
  cases found : world.signed[position]? with
  | none => exact invariant
  | some delta =>
    have member := mem_of_getElem? found
    have keeps := replicaInvariant invariant.trustworthy
    refine ⟨?_, invariant.trustworthy, ?_⟩
    · intro other
      by_cases same : other = replica
      · rw [same]
        simp only [update_self]
        exact keeps.admitOne (invariant.replicas replica) member
      · simp only [update_of_ne same]
        exact invariant.replicas other
    · intro other isSigned
      have inOwn := invariant.own other isSigned
      by_cases same : other.author = replica
      · have keepsInstalled : AttemptInvariant crypto groupId (fun delta => delta ∈ world.signed)
            fun store => Replica crypto planned world.signed store ∧
              other ∈ store.installedDeltas crypto :=
          .ofSound keeps.decodes (fun _ both => both.1.sound) (fun _ both => both.1.held)
            fun _ _ _ _ _ _ both isAllowed attempt =>
              ⟨keeps.keeps _ _ _ _ _ _ both.1 isAllowed attempt,
                attempt.installed_mono both.1.sound both.2⟩
        simp only [same, update_self]
        exact (keepsInstalled.admitOne ⟨invariant.replicas replica, same ▸ inOwn⟩ member).2
      · simp only [update_of_ne same]
        exact inOwn

omit invariant in
theorem run (actions : List Action) : Invariant crypto groupId signer planned
      (Honest.run crypto groupId signer planned actions) := by
  unfold Honest.run
  suffices keeps : ∀ world, Invariant crypto groupId signer planned world →
      Invariant crypto groupId signer planned
        (actions.foldl (World.perform crypto groupId signer planned) world) by
    exact keeps World.start start
  induction actions with
  | nil => exact fun _ invariant => invariant
  | cons action rest induction =>
    intro world invariant
    apply induction
    cases action with
    | author replica edits part => exact invariant.author
    | deliver replica position now => exact invariant.deliver

theorem unique {first second : NativeDelta} (isSigned : first ∈ world.signed)
    (alsoSigned : second ∈ world.signed) (sameDot : first.dot = second.dot) : first = second := by
  have inOwn := Store.mem_installedDeltas.mp (invariant.own first isSigned)
  have alsoOwn := Store.mem_installedDeltas.mp (invariant.own second alsoSigned)
  have sameAuthor : first.author = second.author := congrArg Dot.author sameDot
  rw [← sameAuthor, ← sameDot, inOwn] at alsoOwn
  exact congrArg BodyRow.delta (Option.some.inj alsoOwn)

theorem logged_eq {replica : AuthorId} {delta : NativeDelta} (isSigned : delta ∈ world.signed)
    {hash : DeltaHash} (logged : (world.stores replica).log[delta.dot]? = some hash) :
    hash = delta.deltaHash crypto := by
  rcases (invariant.replicas replica).sound.body _ _ logged with ⟨other, inStore, sameDot, rfl⟩
  rw [invariant.unique isSigned ((invariant.replicas replica).installed other inStore) sameDot.symm]

theorem prev_eq_tip {replica : AuthorId} {delta : NativeDelta} (isSigned : delta ∈ world.signed)
    (next : delta.seq = positionSeq (world.stores replica).frontier[delta.author]? + 1) :
    delta.prev = ((world.stores replica).frontier[delta.author]?).map
      NativeAuthorFrontierEntry.tip := by
  have sound := (invariant.replicas replica).sound
  have ownSound := (invariant.replicas delta.author).sound
  have inOwn := invariant.own delta isSigned
  rw [ownSound.prev delta inOwn]
  cases position : (world.stores replica).frontier[delta.author]? with
  | none =>
    have first : delta.seq = 1 := by
      rw [position] at next
      exact next
    rw [if_pos first]
    rfl
  | some entry =>
    have isTip := sound.tip delta.author entry position
    have positive := (sound.observed_of_logged isTip).1
    have previous : delta.seq = entry.seq + 1 := by
      rw [position] at next
      exact next
    have within := ((ownSound.logged delta.dot).mp
      ⟨_, ownSound.logged_of_installed inOwn⟩).2
    simp only [NativeDelta.dot] at positive within
    rw [if_neg (by omega), previous, Nat.add_sub_cancel, Option.map_some]
    -- Both logs hold the one delta that was signed there.
    rcases (ownSound.logged ⟨delta.author, entry.seq⟩).mpr ⟨positive, by simp only; omega⟩ with
      ⟨hash, logged⟩
    rcases ownSound.body _ _ logged with ⟨earlier, inStore, sameDot, rfl⟩
    have alsoSigned := (invariant.replicas delta.author).installed earlier inStore
    rw [← sameDot] at isTip logged
    rw [sameDot] at logged
    rw [logged, invariant.logged_eq alsoSigned isTip]

end Invariant

/-! ## What a receiver answers -/

def accepted : Except StoreError NativeAdmission → Bool
  | .ok (.admitted _ _) | .ok (.held _) | .ok .duplicate => true
  | _ => false

def acceptedStep : Step → Bool
  | .admitted _ | .held _ | .duplicate => true
  | _ => false

/-- Whether the receiver's author position is below the last one and, if the
delta could be applied now, there is room among its author's heads at each path
it lands at. -/
def Deliverable (store : Store) (delta : NativeDelta) : Prop :=
  positionSeq store.frontier[delta.author]? < AuthorSeq.max ∧
    (Ready store delta → store.hasRoomToLand delta = true)

theorem classifyChainAdvance_exhausted {current : Option NativeAuthorFrontierEntry}
    {prev : Option DeltaHash} {seq : Nat} (last : AuthorSeq.max ≤ positionSeq current) :
    classifyChainAdvance current prev seq = .seqExhausted := by
  cases current with
  | none => simp [positionSeq, AuthorSeq.max] at last
  | some entry =>
    have exhausted : AuthorSeq.checkedNext entry.seq = none := by
      simp only [positionSeq, Option.map_some, Option.getD_some] at last
      rw [AuthorSeq.checkedNext, if_neg (by omega)]
    simp [classifyChainAdvance, checkChainAdvance, exhausted]

section Answer

variable {world : World} (invariant : Invariant crypto groupId signer planned world)
  {delta : NativeDelta} (isSigned : delta ∈ world.signed) (replica : AuthorId) (now : Int)

include invariant isSigned

/-- What is signed is never a reason to fail, so a call ends with the verdict of
its own attempt. -/
theorem accepted_eq : ∃ step after, applyOrHold crypto groupId delta (signer.keyOf delta.author) now
        (world.stores replica) = .ok step after ∧
      Attempt crypto groupId delta (signer.keyOf delta.author) now (world.stores replica) step
        after ∧
      accepted (Transaction.outcome (admitNativeDelta crypto groupId delta (keys signer) now)
        (world.stores replica)) = acceptedStep step := by
  have trusted := invariant.trustworthy delta isSigned
  have before := invariant.replicas replica
  have unfrozen : ∀ store : Store, store.Quiet → ∀ author seq,
      checkFreeze store groupId author seq .remote = .ok .open_ := by
    intro store quiet author seq
    rw [checkFreeze, quiet.journal]
  rcases applyOrHold_cases crypto groupId (signer.keyOf delta.author) now before.sound.consistent
      trusted.decodes with
    ⟨step, after, ran, attempt⟩ | ⟨_, _, _, _, ⟨other | repeated⟩ | unreadable⟩
  · refine ⟨step, after, ran, attempt, ?_⟩
    have replicaAfter := (replicaInvariant invariant.trustworthy).keeps _ _ _ _ _ _ before
      isSigned attempt
    have reported : admitNativeDelta crypto groupId delta (keys signer) now
        (world.stores replica) = reportStep crypto groupId delta (keys signer) now step after := by
      simp only [admitNativeDelta, keys, admitNativeDeltaWithKey, bind_apply, ran]
    rw [outcome, reported]
    cases step with
    | admitted dot =>
      simp only [reportStep, bind_apply]
      rcases releaseWaiters_cases replicaAfter.sound.consistent with
        ⟨result, final, cascade, _⟩ |
          ⟨_, _, _, _, ⟨row, held, _, unappliable⟩ | ⟨author, seq, unreadable⟩⟩
      · rw [cascade]
        rfl
      · have rowTrusted := invariant.trustworthy row.delta (replicaAfter.held row held)
        rcases unappliable with other | repeated
        · exact absurd rowTrusted.sameGroup other
        · exact absurd rowTrusted.distinct repeated
      · rw [unfrozen after replicaAfter.sound.quiet] at unreadable
        cases unreadable
    | _ => rfl
  · exact absurd trusted.sameGroup other
  · exact absurd trusted.distinct repeated
  · rw [unfrozen _ before.sound.quiet] at unreadable
    cases unreadable

theorem acceptedStep_iff {step : Step} {after : Store}
    (ran : applyOrHold crypto groupId delta (signer.keyOf delta.author) now
      (world.stores replica) = .ok step after)
    (attempt : Attempt crypto groupId delta (signer.keyOf delta.author) now
      (world.stores replica) step after) :
    acceptedStep step = true ↔ Deliverable (world.stores replica) delta := by
  have trusted := invariant.trustworthy delta isSigned
  have before := invariant.replicas replica
  have sound := before.sound
  have paths := NativeDelta.paths_nodup trusted.decodes
  constructor
  · intro isAccepted
    refine ⟨?_, ?_⟩
    · by_contra beyond
      have exhausted : classifyChainAdvance (world.stores replica).frontier[delta.author]?
          delta.prev delta.seq = .seqExhausted :=
        classifyChainAdvance_exhausted (Nat.not_lt.mp beyond)
      simp only [applyOrHold, gateChain, bind_apply, get_apply,
        trusted.verified, trusted.portable, sound.quiet.closedVerdict, exhausted, Bool.not_true,
        Bool.false_eq_true, if_false] at ran
      cases ran
      cases isAccepted
    · intro ready
      cases attempt with
      | admitted admissible installs =>
        exact (checkInvariants_appliedState_iff sound.inStep paths ready.chain).mp admissible.valid
      | held blocked holds => exact absurd ready blocked.not_ready
      | redelivered known =>
        have next := (checkChainAdvance_eq_ok_iff.mp ready.chain).1
        omega
      | _ => cases isAccepted
  · intro deliverable
    cases attempt with
    | admitted admissible installs => rfl
    | held blocked holds => rfl
    | badSignature unsigned =>
      rw [trusted.verified] at unsigned
      cases unsigned
    | invalidPath refused =>
      rw [trusted.portable] at refused
      cases refused
    | authorClosed closed =>
      rw [sound.quiet.closedVerdict] at closed
      cases closed
    | closureFork forked =>
      rw [sound.quiet.closedVerdict] at forked
      cases forked
    | chainFork next fork => exact absurd (invariant.prev_eq_tip isSigned next) fork
    | redelivered known =>
      rcases redelivered_eq sound trusted.decodes known with ⟨hash, logged, same⟩
      rw [same, if_pos (invariant.logged_eq isSigned logged)]
      rfl
    | exhausted last => exact absurd deliverable.1 (Nat.not_lt.mpr last)
    | unservableDependency blocked cut =>
      rw [sound.quiet.beyondCutoff] at cut
      cases cut
    | @heldFork dot row evidence blocked existing fork =>
      have inHolds := before.held row (mem_of_find?_eq_some existing)
      have sameDot : row.delta.dot = delta.dot := by simpa using find?_some existing
      rw [invariant.unique inHolds isSigned sameDot] at fork
      exact absurd rfl fork
    | partCount ready conflict =>
      rw [before.parts.agrees trusted.part] at conflict
      cases conflict
    | groupFrozen ready frozen =>
      rw [checkFreeze, sound.quiet.journal] at frozen
      cases frozen
    | wouldViolateInvariant ready violates =>
      have valid : (appliedState crypto delta (world.stores replica)).checkInvariants = .ok () :=
        (checkInvariants_appliedState_iff sound.inStep paths ready.chain).mpr
        (deliverable.2 ready)
      rw [valid] at violates
      cases violates

end Answer

variable (crypto groupId signer planned) in
/-- In every run of honest replicas, a signed delta is admitted, held or known
wherever it arrives, exactly when its author's position there is not the last
one and, should it apply at once, its author's heads leave room for it. -/
theorem honest_delta_accepted_iff (actions : List Action) (replica : AuthorId) (now : Int)
    (delta : NativeDelta) (isSigned : delta ∈ (run crypto groupId signer planned actions).signed) :
    accepted (Transaction.outcome (admitNativeDelta crypto groupId delta (keys signer) now)
      ((run crypto groupId signer planned actions).stores replica)) = true ↔
    Deliverable ((run crypto groupId signer planned actions).stores replica) delta := by
  have invariant : Invariant crypto groupId signer planned
    (run crypto groupId signer planned actions) := Invariant.run actions
  rcases accepted_eq invariant isSigned replica now with ⟨step, after, ran, attempt, same⟩
  rw [same]
  exact acceptedStep_iff invariant isSigned replica now ran attempt

end Run

/-! ## Three devices -/

def sampleSigner : Signer :=
  let keyOf : AuthorId → VerifyingKey := fun author => author.incarnation.zeroExtend 256
  ⟨fun author => Crypto.sampleSign (keyOf author), keyOf⟩

def samplePut (version : BitVec 256) : PathEdit := ⟨"notes", [], some ⟨⟨version⟩, default⟩⟩

/-- The laptop writes a path twice, the phone removes the first of the two, and
the laptop, which has room again, writes once more. The tablet gets what the
laptop wrote but not what the phone removed. -/
def sampleActions : List Action :=
  let laptop : AuthorId := ⟨"laptop", 1⟩
  let phone : AuthorId := ⟨"phone", 2⟩
  let tablet : AuthorId := ⟨"tablet", 3⟩
  [.author laptop [samplePut 7] none, .deliver phone 0 0, .author laptop [samplePut 8] none,
    .author phone [⟨"notes", [⟨laptop, 1⟩], none⟩] none,
    .deliver laptop 0 0,
    .author laptop [samplePut 9] none,
    .deliver tablet 3 0,
    .deliver tablet 2 0]

/-- The signed delta at a position of the sample run. -/
def sampleSigned (position : Nat) : NativeDelta :=
  (((run Crypto.sample "group" sampleSigner (fun _ => 0) sampleActions).signed)[position]?).getD
    sampleFirst

/-- The phone's removal is accepted by the tablet. -/
theorem honest_delta_accepted_removal : accepted (Transaction.outcome
      (admitNativeDelta Crypto.sample "group" (sampleSigned 1) (keys sampleSigner) 1)
      ((run Crypto.sample "group" sampleSigner (fun _ => 0) sampleActions).stores
        ⟨"tablet", 3⟩)) = true :=
  (honest_delta_accepted_iff Crypto.sample "group" sampleSigner (fun _ => 0) sampleActions
    ⟨"tablet", 3⟩ 1 (sampleSigned 1) (by decide +kernel)).mpr
    ⟨by decide +kernel, fun _ => by decide +kernel⟩

/-- The laptop's third write is refused by the tablet for the invariant. -/
theorem honest_delta_refused :
    ¬∀ (actions : List Action) (replica : AuthorId) (now : Int) (delta : NativeDelta),
      delta ∈ (run Crypto.sample "group" sampleSigner (fun _ => 0) actions).signed →
      accepted (Transaction.outcome
        (admitNativeDelta Crypto.sample "group" delta (keys sampleSigner) now)
        ((run Crypto.sample "group" sampleSigner (fun _ => 0) actions).stores replica)) = true := by
  intro always
  have refused : Transaction.outcome
      (admitNativeDelta Crypto.sample "group" (sampleSigned 0) (keys sampleSigner) 1)
      ((run Crypto.sample "group" sampleSigner (fun _ => 0) sampleActions).stores
        ⟨"tablet", 3⟩) =
        .ok (.wouldViolateInvariant (.selfHeadBound "notes" ⟨"laptop", 1⟩)) := by
    decide +kernel
  have claimed := always sampleActions ⟨"tablet", 3⟩ 1 (sampleSigned 0) (by decide +kernel)
  rw [refused] at claimed
  cases claimed

end Yadorilink.Honest
