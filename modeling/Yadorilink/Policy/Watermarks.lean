import Yadorilink.Domain.VersionCodec
import Yadorilink.Policy.Chains

/-! Adopting policy snapshots under a watermark. The watermark keeps four coordinates of the last
adopted chain; the head among them binds the whole chain. -/

namespace Yadorilink.Policy

open List

variable {crypto : Crypto} {groupId : FolderGroupId} {records : List VerifiedPolicyRecord}

/-! ## The bytes a record is hashed from -/

theorem utf8Bytes_injective {first second : String} (same : utf8Bytes first = utf8Bytes second) :
    first = second := by
  have decoded := fromUtf8_utf8Bytes second
  rw [← same, fromUtf8_utf8Bytes] at decoded
  exact Option.some.inj decoded

theorem putStr_injective {first second : String} (same : putStr first = putStr second) :
    first = second := by
  rw [putStr, putStr, putLenBytes, putLenBytes] at same
  have parts := append_inj same (by rw [putU32, putU32, beBytes_length, beBytes_length])
  exact utf8Bytes_injective parts.2

theorem length_putHash (hash : BitVec 256) : (putHash hash).length = 32 :=
  beBytes_length 32 hash.toNat

theorem PolicyAction.signingBytes_injective {first second : PolicyAction}
    (same : first.signingBytes = second.signingBytes) : first = second := by
  cases first with
  | grant deviceId fingerprint role =>
    cases second with
    | grant otherDevice otherFingerprint otherRole =>
      have tail := (List.cons.inj same).2
      rcases append_inj' tail rfl with ⟨front, last⟩
      rcases append_inj' front (by rw [length_putHash, length_putHash]) with ⟨device, print⟩
      have roles : role = otherRole := by
        cases role <;> cases otherRole <;> first | rfl | cases last
      rw [putStr_injective device, putHash_injective print, roles]
    | revoke otherDevice => exact absurd (List.cons.inj same).1 (by decide)
    | rotateAuthority otherKey => exact absurd (List.cons.inj same).1 (by decide)
  | revoke deviceId =>
    cases second with
    | grant otherDevice otherFingerprint otherRole =>
      exact absurd (List.cons.inj same).1 (by decide)
    | revoke otherDevice => rw [putStr_injective (List.cons.inj same).2]
    | rotateAuthority otherKey => exact absurd (List.cons.inj same).1 (by decide)
  | rotateAuthority newKey =>
    cases second with
    | grant otherDevice otherFingerprint otherRole =>
      exact absurd (List.cons.inj same).1 (by decide)
    | revoke otherDevice => exact absurd (List.cons.inj same).1 (by decide)
    | rotateAuthority otherKey => rw [putHash_injective (List.cons.inj same).2]

/-- Records hashed from the same bytes build on the same record and do the same, under numbers
written alike. -/
theorem hashedBytes_injective {first second : VerifiedPolicyRecord}
    (same : hashedBytes groupId first = hashedBytes groupId second) :
    first.prevRecordHash = second.prevRecordHash ∧ first.action = second.action ∧
      putU64 first.seq = putU64 second.seq := by
  have signed := (append_inj' same (by rw [beBytes_length, beBytes_length])).1
  rw [signingBytes, signingBytes] at signed
  have parts := append_inj signed (by
    simp only [length_append, length_putHash, putU64, beBytes_length])
  rcases parts with ⟨front, action⟩
  have front := (append_inj' front (by rw [length_putHash, length_putHash])).1
  have front := (append_inj' front (by rw [putU64, putU64, beBytes_length,
    beBytes_length])).1
  rcases append_inj' front (by rw [length_putHash, length_putHash]) with ⟨front, prev⟩
  have seq := (append_inj' front (by rw [putU64, putU64, beBytes_length, beBytes_length])).2
  exact ⟨putHash_injective prev, PolicyAction.signingBytes_injective action, seq⟩

/-! ## One head stands for one chain -/

def VerifiedPolicyRecord.essence (record : VerifiedPolicyRecord) :
    BitVec 256 × Nat × PolicyAction :=
  (record.recordHash, record.seq, record.action)

/-- The bytes hashed for the records of the chains. -/
def recordMessages (groupId : FolderGroupId) (chains : List (List VerifiedPolicyRecord)) :
    List (List UInt8) :=
  chains.flatMap fun records => records.map (hashedBytes groupId)

theorem Linked.essence_eq {inputs : List (List UInt8)} {first second : List VerifiedPolicyRecord}
    (collisionFree : DigestCollisionFree crypto inputs)
    (linked : Linked crypto groupId first) (other : Linked crypto groupId second)
    (firstIn : ∀ record ∈ first, hashedBytes groupId record ∈ inputs)
    (secondIn : ∀ record ∈ second, hashedBytes groupId record ∈ inputs)
    (length : first.length = second.length) (heads : headOf first = headOf second) :
    first.map (·.essence) = second.map (·.essence) := by
  induction linked generalizing second with
  | nil => rw [eq_nil_of_length_eq_zero length.symm]
  | @snoc records record linked seq prev hash induction =>
    cases other with
    | nil => simp at length
    | @snoc others last linkedOthers otherSeq otherPrev otherHash =>
      rw [headOf_append, headOf_append] at heads
      have lengths : records.length = others.length := by
        simpa using length
      have bytes := collisionFree _ (firstIn record (by simp)) _ (secondIn last (by simp))
        (hash.symm.trans (heads.trans otherHash))
      rcases hashedBytes_injective bytes with ⟨builds, acts, _⟩
      have front := induction linkedOthers
        (fun earlier member => firstIn earlier (mem_append_left _ member))
        (fun earlier member => secondIn earlier (mem_append_left _ member)) lengths
        (prev.symm.trans (builds.trans otherPrev))
      have same : record.essence = last.essence := by
        rw [VerifiedPolicyRecord.essence, VerifiedPolicyRecord.essence, heads, acts, seq,
          otherSeq, lengths]
      rw [map_append, map_append, front, map_singleton, map_singleton, same]

/-! ## The verdict -/

theorem Linked.find?_seq (linked : Linked crypto groupId records) (index : Nat) :
    records.find? (fun record => record.seq = index + 1) = records[index]? := by
  induction linked with
  | nil => rfl
  | @snoc records last linked seq prev hash induction =>
    rw [find?_append, induction, getElem?_append]
    split
    · rename_i within
      rw [getElem?_eq_getElem within, Option.some_or]
    · rename_i beyond
      rw [getElem?_eq_none (Nat.le_of_not_lt beyond), Option.none_or,
        getElem?_singleton, find?_singleton, seq]
      by_cases here : index = records.length
      · rw [here, Nat.sub_self]
        simp
      · have past : index - records.length ≠ 0 := by omega
        have other : ¬records.length = index := by omega
        simp [past, other]

theorem Linked.find?_zero (linked : Linked crypto groupId records) :
    records.find? (fun record => record.seq = 0) = none := by
  rw [find?_eq_none]
  intro record member zero
  obtain ⟨index, found⟩ := mem_iff_getElem?.mp member
  have seq := linked.seq_getElem? found
  simp only [decide_eq_true_eq] at zero
  omega

namespace GroupPolicyState

variable {state : GroupPolicyState}

theorem watermark_of_accept {stored : Option PolicyWatermark} {watermark : PolicyWatermark}
    (accepted : state.watermarkVerdict crypto stored = .accept watermark) :
    watermark = state.toWatermark crypto := by
  cases stored with
  | none =>
    cases accepted
    rfl
  | some stored =>
    rw [watermarkVerdict] at accepted
    split at accepted
    · cases accepted
    · split at accepted
      · cases accepted
      · split at accepted
        · cases accepted
        · split at accepted
          · split at accepted
            · cases accepted
            · cases accepted
              rfl
          · split at accepted
            · cases accepted
              rfl
            · cases accepted

theorem watermarkVerdict_accept_iff {stored : PolicyWatermark} :
    state.watermarkVerdict crypto (some stored) = .accept (state.toWatermark crypto) ↔
      stored.highestVerifiedSeq ≤ state.currentSeq ∧
      stored.authorityKeyGeneration ≤ state.authorityGeneration ∧
      (state.authorityGeneration = stored.authorityKeyGeneration →
        stored.authorityKeyFingerprint = state.authorityKeyFingerprint crypto) ∧
      (state.currentSeq = stored.highestVerifiedSeq →
        state.policyHead = stored.highestVerifiedHead) ∧
      (state.currentSeq ≠ stored.highestVerifiedSeq →
        state.recordHeadAt stored.highestVerifiedSeq = some stored.highestVerifiedHead) := by
  rw [watermarkVerdict]
  by_cases rollback : state.currentSeq < stored.highestVerifiedSeq
  · rw [if_pos rollback]
    exact ⟨nofun, fun all => absurd all.1 (Nat.not_le_of_lt rollback)⟩
  by_cases lower : state.authorityGeneration < stored.authorityKeyGeneration
  · rw [if_neg rollback, if_pos lower]
    exact ⟨nofun, fun all => absurd all.2.1 (Nat.not_le_of_lt lower)⟩
  have seq := Nat.le_of_not_lt rollback
  have generation := Nat.le_of_not_lt lower
  by_cases fork : state.authorityGeneration = stored.authorityKeyGeneration ∧
      stored.authorityKeyFingerprint ≠ state.authorityKeyFingerprint crypto
  · rw [if_neg rollback, if_neg lower, if_pos fork]
    exact ⟨nofun, fun all => absurd (all.2.2.1 fork.1) fork.2⟩
  have keys : state.authorityGeneration = stored.authorityKeyGeneration →
      stored.authorityKeyFingerprint = state.authorityKeyFingerprint crypto := by
    intro same
    by_contra differ
    exact fork ⟨same, differ⟩
  rw [if_neg rollback, if_neg lower, if_neg fork]
  by_cases same : state.currentSeq = stored.highestVerifiedSeq
  · rw [if_pos same]
    by_cases heads : state.policyHead = stored.highestVerifiedHead
    · rw [if_neg (not_not.mpr heads)]
      exact ⟨fun _ => ⟨seq, generation, keys, fun _ => heads, fun differ => absurd same differ⟩,
        fun _ => rfl⟩
    · rw [if_pos heads]
      exact ⟨nofun, fun all => absurd (all.2.2.2.1 same) heads⟩
  · rw [if_neg same]
    by_cases found : state.recordHeadAt stored.highestVerifiedSeq = some stored.highestVerifiedHead
    · rw [if_pos found]
      exact ⟨fun _ => ⟨seq, generation, keys, fun equal => absurd equal same, fun _ => found⟩,
        fun _ => rfl⟩
    · rw [if_neg found]
      exact ⟨nofun, fun all => absurd (all.2.2.2.2 same) found⟩

variable {earlier later : GroupPolicyState} {serviceKey otherKey : VerifyingKey}

theorem Chained.essence_prefix {inputs : List (List UInt8)}
    (collisionFree : DigestCollisionFree crypto inputs)
    (chained : earlier.Chained crypto groupId serviceKey)
    (next : later.Chained crypto groupId otherKey)
    (earlierIn : ∀ record ∈ earlier.records, hashedBytes groupId record ∈ inputs)
    (laterIn : ∀ record ∈ later.records, hashedBytes groupId record ∈ inputs)
    (accepted : later.watermarkVerdict crypto (some (earlier.toWatermark crypto)) =
      .accept (later.toWatermark crypto)) :
    earlier.records.map (·.essence) <+: later.records.map (·.essence) := by
  obtain ⟨seq, _, _, same, extends_⟩ := watermarkVerdict_accept_iff.mp accepted
  simp only [toWatermark, chained.seq, next.seq, chained.head, next.head] at seq same extends_
  -- The part of the new chain as long as the old one ends in the old one's head.
  have head : headOf (later.records.take earlier.records.length) = headOf earlier.records := by
    by_cases length : later.records.length = earlier.records.length
    · rw [← length, take_length]
      exact same length
    · have found := extends_ length
      rw [recordHeadAt] at found
      cases size : earlier.records.length with
      | zero =>
        rw [size, next.linked.find?_zero] at found
        cases found
      | succ last =>
        rw [size, next.linked.find?_seq] at found
        have within : last < later.records.length := by omega
        rw [getElem?_eq_getElem within] at found
        rw [take_succ_eq_append_getElem within, headOf_append]
        exact Option.some.inj found
  have front : Linked crypto groupId (later.records.take earlier.records.length) := by
    have linked := next.linked
    rw [← take_append_drop earlier.records.length later.records] at linked
    exact linked.of_append
  have equal := chained.linked.essence_eq collisionFree front earlierIn
    (fun record member => laterIn record (mem_of_mem_take member))
    (length_take_of_le seq).symm head.symm
  rw [equal]
  exact ( take_prefix _ _).map _

theorem foldl_keyBehind (key : VerifyingKey) (none : rotations records = 0) :
    records.foldl keyBehind key = key := by
  induction records with
  | nil => rfl
  | cons record rest induction =>
    rw [rotations, countP_cons] at none
    have here : record.action.isRotation = false := by
      cases isRotation : record.action.isRotation with
      | false => rfl
      | true => simp [isRotation] at none
    have behind : keyBehind key record = key := by
      rw [keyBehind]
      split
      · rename_i rotated
        rw [rotated] at here
        cases here
      · rfl
    rw [foldl_cons, behind]
    exact induction (Nat.eq_zero_of_add_eq_zero_right none)

/-- A chain that starts with an adopted one is adopted, unless the adopted one is empty and the
new one is not. -/
theorem Chained.accept_iff (chained : earlier.Chained crypto groupId serviceKey)
    (next : later.Chained crypto groupId serviceKey)
    (forward : earlier.records <+: later.records) :
    later.watermarkVerdict crypto (some (earlier.toWatermark crypto)) =
        .accept (later.toWatermark crypto) ↔
      earlier.records ≠ [] ∨ later.records = [] := by
  obtain ⟨more, whole⟩ := forward
  have size : later.records.length = earlier.records.length + more.length := by
    rw [← whole, length_append]
  rw [watermarkVerdict_accept_iff]
  simp only [toWatermark, chained.seq, next.seq, chained.head, next.head, chained.generation,
    next.generation]
  constructor
  · rintro ⟨_, _, _, _, extends_⟩
    by_contra neither
    rcases not_or.mp neither with ⟨empty, longer⟩
    have empty := not_not.mp empty
    have differ : later.records.length ≠ earlier.records.length := by
      rw [empty]
      exact fun zero => longer (eq_nil_of_length_eq_zero zero)
    have found := extends_ differ
    rw [empty, length_nil, recordHeadAt, next.linked.find?_zero] at found
    cases found
  · intro either
    refine ⟨by omega, ?_, ?_, ?_, ?_⟩
    · rw [← whole, rotations_append]
      exact Nat.le_add_right _ _
    · intro same
      rw [← whole, rotations_append] at same
      have none : rotations more = 0 := by omega
      rw [authorityKeyFingerprint, authorityKeyFingerprint, chained.key, next.key, ← whole,
        foldl_append, foldl_keyBehind (earlier.records.foldl keyBehind serviceKey) none]
    · intro same
      rw [← whole, eq_nil_of_length_eq_zero (by omega : more.length = 0), append_nil]
    · intro differ
      have some : earlier.records ≠ [] := by
        rcases either with some | none
        · exact some
        · rw [none, length_nil] at size
          rw [none, length_nil] at differ
          exact absurd (by omega) differ
      obtain ⟨front, last, split⟩ := (eq_nil_or_concat earlier.records).resolve_left some
      rw [concat_eq_append] at split
      rw [recordHeadAt, split, length_append, length_singleton,
        next.linked.find?_seq, headOf_append, ← whole, split, append_assoc,
        getElem?_append_right (Nat.le_refl _), Nat.sub_self]
      rfl

end GroupPolicyState

/-! ## Runs -/

/-- The snapshots adopted out of a sequence, each judged against the watermark of the last one
adopted before it. -/
def adopted (crypto : Crypto) : Option PolicyWatermark → List GroupPolicyState →
    List GroupPolicyState
  | _, [] => []
  | stored, state :: states =>
    match state.watermarkVerdict crypto stored with
    | .accept watermark => state :: adopted crypto (some watermark) states
    | .reject _ => adopted crypto stored states

/-- The later snapshot carries on the earlier one: all its records and its generation. -/
def CarriesOn (earlier later : GroupPolicyState) : Prop :=
  earlier.records.map (·.essence) <+: later.records.map (·.essence) ∧
    earlier.authorityGeneration ≤ later.authorityGeneration

theorem isChain_adopted {states : List GroupPolicyState} {last : GroupPolicyState}
    (step : ∀ earlier ∈ last :: states, ∀ later ∈ states,
      later.watermarkVerdict crypto (some (earlier.toWatermark crypto)) =
        .accept (later.toWatermark crypto) → CarriesOn earlier later) :
    (last :: adopted crypto (some (last.toWatermark crypto)) states).IsChain CarriesOn := by
  induction states generalizing last with
  | nil => exact .singleton last
  | cons state states induction =>
    rw [adopted]
    split
    · rename_i watermark accepted
      cases GroupPolicyState.watermark_of_accept accepted
      apply List.IsChain.cons_cons
      · exact step last mem_cons_self state mem_cons_self accepted
      · apply induction
        intro earlier member later following
        exact step earlier (.tail last member) later
          (.tail state following)
    · apply induction
      intro earlier member later following
      apply step earlier _ later (.tail state following)
      rcases mem_cons.mp member with same | among
      · exact same ▸ .head _
      · exact .tail last (.tail state among)

theorem CarriesOn.trans {first second third : GroupPolicyState} (earlier : CarriesOn first second)
    (later : CarriesOn second third) : CarriesOn first third :=
  ⟨earlier.1.trans later.1, Nat.le_trans earlier.2 later.2⟩

instance : Trans CarriesOn CarriesOn CarriesOn := ⟨CarriesOn.trans⟩

theorem mem_recordMessages {states : List GroupPolicyState} {state : GroupPolicyState}
    (member : state ∈ states) {record : VerifiedPolicyRecord} (inState : record ∈ state.records) :
    hashedBytes groupId record ∈ recordMessages groupId (states.map (·.records)) :=
  mem_flatMap.mpr
    ⟨state.records, mem_map_of_mem member, mem_map_of_mem inState⟩

/-- Adopted policy never rolls back: of any two snapshots adopted in a sequence of verified ones,
the later one has all record hashes of the earlier one in front, keeps its revokes and has no
lower authority generation. -/
theorem adopted_policy_never_rolls_back (crypto : Crypto) (servicePublicKey : List UInt8)
    (groupId : FolderGroupId) (states : List GroupPolicyState)
    (verified : ∀ state ∈ states, Verified crypto servicePublicKey groupId state)
    (collisionFree : DigestCollisionFree crypto (recordMessages groupId (states.map (·.records)))) :
    (adopted crypto none states).Pairwise fun earlier later =>
      earlier.records.map (·.recordHash) <+: later.records.map (·.recordHash) ∧
      (∀ record ∈ earlier.records, ∀ deviceId, record.action = .revoke deviceId →
        ∃ kept ∈ later.records, kept.recordHash = record.recordHash ∧
          kept.seq = record.seq ∧ kept.action = .revoke deviceId) ∧
      earlier.authorityGeneration ≤ later.authorityGeneration := by
  have step : ∀ earlier ∈ states, ∀ later ∈ states,
      later.watermarkVerdict crypto (some (earlier.toWatermark crypto)) =
        .accept (later.toWatermark crypto) → CarriesOn earlier later := by
    intro earlier member later following accepted
    obtain ⟨_, _, chained⟩ := (verified earlier member).chained
    obtain ⟨_, _, next⟩ := (verified later following).chained
    refine ⟨?_, (GroupPolicyState.watermarkVerdict_accept_iff.mp accepted).2.1⟩
    exact chained.essence_prefix collisionFree next (fun _ => mem_recordMessages member)
      (fun _ => mem_recordMessages following) accepted
  have carried : (adopted crypto none states).Pairwise CarriesOn := by
    cases states with
    | nil => exact List.Pairwise.nil
    | cons first states =>
      apply List.isChain_iff_pairwise.mp
      apply isChain_adopted
      intro earlier member later following
      exact step earlier member later (.tail first following)
  apply carried.imp
  intro earlier later carries
  obtain ⟨rest, whole⟩ := carries.1
  refine ⟨?_, ?_, carries.2⟩
  · have hashes := carries.1.map Prod.fst
    rw [List.map_map, List.map_map] at hashes
    exact hashes
  · intro record member deviceId revokes
    have essence : record.essence ∈ later.records.map (·.essence) := by
      rw [← whole]
      exact List.mem_append_left rest (List.mem_map_of_mem member)
    obtain ⟨kept, inLater, same⟩ := List.mem_map.mp essence
    simp only [VerifiedPolicyRecord.essence, Prod.mk.injEq] at same
    exact ⟨kept, inLater, same.1, same.2.1, same.2.2.trans revokes⟩

/-! A group whose log revokes one device after another, signed by one key. -/

namespace SampleLog

def key : VerifyingKey := 7

def group : FolderGroupId := "g"

/-- The record that revokes a device on top of the hash of the one before it. -/
def revoked (seq : Nat) (prev : BitVec 256) (deviceId : DeviceId) : VerifiedPolicyRecord :=
  let unsigned : VerifiedPolicyRecord :=
    { seq := seq, prevRecordHash := prev, recordHash := 0, epoch := seq,
      signerKeyId := fingerprintSigningKey Crypto.sample key, action := .revoke deviceId,
      signature := 0 }
  let signed := { unsigned with
    signature := Crypto.sampleSign key (signingBytes group unsigned) }
  { signed with recordHash := Crypto.sample.sha256 (hashedBytes group signed) }

def first : VerifiedPolicyRecord := revoked 1 zeroHash "d"

def second : VerifiedPolicyRecord := revoked 2 first.recordHash "e"

def wire (record : VerifiedPolicyRecord) (deviceId : DeviceId) : PolicyRecord :=
  { groupId := group, seq := record.seq, prevRecordHash := putHash record.prevRecordHash,
    recordHash := putHash record.recordHash, epoch := record.epoch,
    actionType := actionRevoke, deviceId := deviceId, signingKeyFingerprint := [], role := 0,
    newAuthorityKey := [], signerKeyId := putHash record.signerKeyId,
    signature := beBytes 64 record.signature.toNat }

def empty : GroupPolicyLog :=
  { groupId := group, currentSeq := 0, currentEpoch := 0, policyHead := putHash zeroHash,
    records := [] }

def short : GroupPolicyLog :=
  { groupId := group, currentSeq := 1, currentEpoch := 1,
    policyHead := putHash first.recordHash, records := [wire first "d"] }

def long : GroupPolicyLog :=
  { groupId := group, currentSeq := 2, currentEpoch := 2,
    policyHead := putHash second.recordHash, records := [wire second "e", wire first "d"] }

def snapshot (log : GroupPolicyLog) : GroupPolicyState :=
  match verifyGroupPolicyLogWithBase Crypto.sample (putHash key) none log with
  | .ok state => state
  | .error _ =>
    { currentSeq := 0, currentEpoch := 0, policyHead := 0, finalAuthorityKey := 0,
      authorityGeneration := 0, records := [], authorityKeyHistory := fun _ => none }

theorem verify_snapshot {log : GroupPolicyLog}
    (passes : (verifyGroupPolicyLogWithBase Crypto.sample (putHash key) none log).isOk = true) :
    verifyGroupPolicyLogWithBase Crypto.sample (putHash key) none log = .ok (snapshot log) := by
  rw [snapshot]
  cases result : verifyGroupPolicyLogWithBase Crypto.sample (putHash key) none log with
  | ok state => rfl
  | error reason =>
    rw [result] at passes
    cases passes

theorem verified_snapshot {log : GroupPolicyLog} (ofGroup : log.groupId = group)
    (passes : (verifyGroupPolicyLogWithBase Crypto.sample (putHash key) none log).isOk = true) :
    Verified Crypto.sample (putHash key) group (snapshot log) :=
  Verified.fresh ofGroup (verify_snapshot passes)

end SampleLog

set_option maxRecDepth 8192 in
open SampleLog in
theorem adopted_policy_never_rolls_back_revoke :
    ((adopted Crypto.sample none [snapshot short, snapshot empty, snapshot long]).map
        (·.currentSeq)) = [1, 2] ∧
      (adopted Crypto.sample none [snapshot short, snapshot empty, snapshot long]).Pairwise
        fun earlier later => earlier.records.map (·.recordHash) <+:
          later.records.map (·.recordHash) := by
  refine ⟨by decide, ?_⟩
  apply (adopted_policy_never_rolls_back Crypto.sample (putHash key) SampleLog.group
    [snapshot short, snapshot empty, snapshot long] _ _).imp
  · intro earlier later carries
    exact carries.1
  · intro state member
    simp only [List.mem_cons, List.not_mem_nil, or_false] at member
    rcases member with same | same | same
    · rw [same]
      exact verified_snapshot rfl (by decide)
    · rw [same]
      exact verified_snapshot rfl (by decide)
    · rw [same]
      exact verified_snapshot rfl (by decide)
  · unfold DigestCollisionFree
    decide

/-- A verified snapshot that starts with an adopted one is adopted over its watermark exactly
when the adopted one holds a record or the new one holds none. -/
theorem forward_snapshot_adopted_iff (crypto : Crypto) (servicePublicKey : List UInt8)
    (groupId : FolderGroupId) (earlier later : GroupPolicyState)
    (stored : Option PolicyWatermark) (watermark : PolicyWatermark)
    (verifiedEarlier : Verified crypto servicePublicKey groupId earlier)
    (accepted : earlier.watermarkVerdict crypto stored = .accept watermark)
    (verifiedLater : Verified crypto servicePublicKey groupId later)
    (forward : earlier.records <+: later.records) :
    (∃ adopted, later.watermarkVerdict crypto (some watermark) = .accept adopted) ↔
      earlier.records ≠ [] ∨ later.records = [] := by
  obtain ⟨serviceKey, pinned, chained⟩ := verifiedEarlier.chained
  obtain ⟨otherKey, samePin, next⟩ := verifiedLater.chained
  cases pinned.symm.trans samePin
  rw [GroupPolicyState.watermark_of_accept accepted, ← chained.accept_iff next forward]
  constructor
  · rintro ⟨adopted, accepts⟩
    rw [accepts, GroupPolicyState.watermark_of_accept accepts]
  · intro accepts
    exact ⟨_, accepts⟩

set_option maxRecDepth 8192 in
open SampleLog in
theorem forward_snapshot_adopted_iff_longer :
    ∃ adopted, (snapshot long).watermarkVerdict Crypto.sample
      (some ((snapshot short).toWatermark Crypto.sample)) = .accept adopted :=
  (forward_snapshot_adopted_iff Crypto.sample (putHash key) SampleLog.group (snapshot short)
    (snapshot long) none _ (verified_snapshot rfl (by decide)) rfl
    (verified_snapshot rfl (by decide)) (by decide)).mpr
    (Or.inl (by decide))

set_option maxRecDepth 8192 in
/-- A device that adopted the empty chain refuses the first record of the group. -/
theorem empty_watermark_refuses_first_record :
    ¬∀ (crypto : Crypto) (servicePublicKey : List UInt8) (groupId : FolderGroupId)
        (earlier later : GroupPolicyState) (stored : Option PolicyWatermark)
        (watermark : PolicyWatermark),
      Verified crypto servicePublicKey groupId earlier →
      earlier.watermarkVerdict crypto stored = .accept watermark →
      Verified crypto servicePublicKey groupId later →
      earlier.records <+: later.records →
      ∃ adopted, later.watermarkVerdict crypto (some watermark) = .accept adopted := by
  intro always
  obtain ⟨adopted, accepts⟩ := always Crypto.sample (putHash SampleLog.key) SampleLog.group
    (SampleLog.snapshot SampleLog.empty) (SampleLog.snapshot SampleLog.short) none _
    (SampleLog.verified_snapshot rfl (by decide)) rfl
    (SampleLog.verified_snapshot rfl (by decide)) (by decide)
  have refused : ((SampleLog.snapshot SampleLog.short).watermarkVerdict Crypto.sample
      (some ((SampleLog.snapshot SampleLog.empty).toWatermark Crypto.sample)) matches
        .accept _) = false := by
    decide
  rw [accepts] at refused
  cases refused

end Yadorilink.Policy
