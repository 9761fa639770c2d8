import Yadorilink.Policy.Incremental

/-! What a verified policy chain answers: whose checkpoint may vouch for a device at a point of the
chain, and under which authority key. The answers about a point look at the records up to it. -/

namespace Yadorilink.Policy

open Fallible List Option

/-! ## Members -/

def WriterRole.isWriter : WriterRole → Bool
  | .viewer => false
  | .editor => true
  | .owner => true

structure GroupMember where
  deviceId : DeviceId
  role : WriterRole
  signingKeyFingerprint : BitVec 256
deriving DecidableEq

inductive WriterSnapshotError where
  | futureSequence (requested current : Nat)
  | missingSequence (requested : Nat)
deriving DecidableEq

/-- Inserting into a map in the order of the device ids; a device's earlier grant is replaced. -/
def insertMember (member : GroupMember) : List GroupMember → List GroupMember
  | [] => [member]
  | head :: rest =>
    if member.deviceId < head.deviceId then member :: head :: rest
    else if member.deviceId = head.deviceId then member :: rest
    else head :: insertMember member rest

def replayGrants (grants : List GroupMember) (record : VerifiedPolicyRecord) : List GroupMember :=
  match record.action with
  | .grant deviceId signingKeyFingerprint role =>
    insertMember ⟨deviceId, role, signingKeyFingerprint⟩ grants
  | .revoke deviceId => grants.filter fun member => member.deviceId ≠ deviceId
  | .rotateAuthority _ => grants

namespace GroupPolicyState

def membersUpTo (state : GroupPolicyState) (authSeq : Nat) : List GroupMember :=
  (state.records.filter fun record => record.seq ≤ authSeq).foldl replayGrants []

def membersAt (state : GroupPolicyState) (authSeq : Nat) :
    Except WriterSnapshotError (List GroupMember) :=
  if state.currentSeq < authSeq then .error (.futureSequence authSeq state.currentSeq)
  else if 1 ≤ authSeq ∧ (state.records.find? fun record => record.seq = authSeq).isNone then
    .error (.missingSequence authSeq)
  else .ok (state.membersUpTo authSeq)

/-! ## Points of the chain -/

/-- The key in effect at a policy head, if it is the one the caller names. The empty chain's point
is given up with the first rotation. -/
def resolveAuthorityKey (crypto : Crypto) (state : GroupPolicyState) : AuthorityKeyFor :=
  fun signerKeyId policyHead =>
    if policyHead = zeroHash ∧ 0 < state.authorityGeneration then none
    else
      match state.authorityKeyHistory policyHead with
      | none => none
      | some rawKey =>
        if crypto.sha256 (putHash rawKey) ≠ signerKeyId then none
        else if crypto.validKey rawKey then some rawKey
        else none

/-- Whether the chain holds `head` at `seq`, with the device a writer there under the key. -/
def writerAtPolicyPoint (state : GroupPolicyState) (deviceId : DeviceId)
    (signingKeyFingerprint : BitVec 256) (seq : Nat) (head : BitVec 256) : Bool :=
  if seq = 0 then decide (head = zeroHash ∧ state.authorityGeneration = 0)
  else if state.recordHeadAt seq ≠ some head then false
  else
    match state.membersAt seq with
    | .error _ => false
    | .ok members => members.any fun member =>
      decide (member.deviceId = deviceId ∧
        member.signingKeyFingerprint = signingKeyFingerprint) && member.role.isWriter

end GroupPolicyState

/-! ## What is admitted on a chain -/

/-- A published delta is taken when its evidence verifies and the chain vouches for the point its
checkpoint is pinned at. -/
def GroupPolicyState.admitsDelta (crypto : Crypto) (state : GroupPolicyState)
    (groupId : FolderGroupId) (input : ProofCarryingDelta) : Bool :=
  (verifyProofCarryingDelta crypto input groupId (state.resolveAuthorityKey crypto)).isOk &&
    state.writerAtPolicyPoint input.envelope.checkpoint.deviceId
      input.envelope.checkpoint.signingKeyFingerprint input.envelope.checkpoint.policySeq
      input.envelope.checkpoint.policyHead

/-- What the evidence of a sealed checkpoint decodes to. -/
structure NativeCheckpointSealProof where
  authorityCheckpoint : AuthorizationCheckpoint
  authorityCheckpointSignature : Signature
  sealerPublicKey : VerifyingKey
  merkleProof : MerkleProof
deriving DecidableEq

inductive NativeCheckpointSealRefusal where
  | evidenceMissing
  | signerNotAuthorized (sealer : DeviceId)
deriving DecidableEq

def nativeCheckpointSealLeaf (crypto : Crypto) (groupId : FolderGroupId)
    (checkpointHash : BitVec 256) : BitVec 256 :=
  crypto.sha256 (nativeDomainTag "YLNKnsl" ++ writeLenPrefixed groupId ++ putHash checkpointHash)

def sealRefusal (sealer : DeviceId) : CheckpointAdmissionError → NativeCheckpointSealRefusal
  | .unknownOrInvalidSignerKey => .signerNotAuthorized sealer
  | .badCheckpointSignature => .signerNotAuthorized sealer
  | .deviceMismatch => .signerNotAuthorized sealer
  | .signingKeyFingerprintMismatch => .signerNotAuthorized sealer
  | .groupMismatch => .evidenceMissing
  | .leafCountMismatch => .evidenceMissing
  | .leafIndexOutOfRange => .evidenceMissing
  | .proofDepthMismatch => .evidenceMissing
  | .merkleProofDoesNotMatchCheckpoint => .evidenceMissing

/-- Whether the evidence authorizes the sealer to seal this checkpoint. -/
def verifyNativeCheckpointSealAuthorization (crypto : Crypto) (groupId : FolderGroupId)
    (checkpointHash : BitVec 256) (sealer : DeviceId)
    (evidence : Option NativeCheckpointSealProof) (policy : GroupPolicyState) :
    Except NativeCheckpointSealRefusal Unit :=
  match evidence with
  | none => .error .evidenceMissing
  | some proof =>
    if !crypto.validKey proof.sealerPublicKey then .error (.signerNotAuthorized sealer)
    else
      match verifyChangeAdmission crypto groupId sealer proof.sealerPublicKey
          (nativeCheckpointSealLeaf crypto groupId checkpointHash) proof.merkleProof
          proof.authorityCheckpoint proof.authorityCheckpointSignature
          (policy.resolveAuthorityKey crypto) with
      | .error error => .error (sealRefusal sealer error)
      | .ok () =>
        if policy.writerAtPolicyPoint sealer proof.authorityCheckpoint.signingKeyFingerprint
            proof.authorityCheckpoint.policySeq proof.authorityCheckpoint.policyHead then .ok ()
        else .error (.signerNotAuthorized sealer)

/-! ## The key in effect at a record -/

def PolicyAction.newKey? : PolicyAction → Option VerifyingKey
  | .rotateAuthority newAuthorityKey => some newAuthorityKey
  | _ => none

/-- The key set by the last rotation among the records, or the key the group started with. -/
def lastKey (serviceKey : VerifyingKey) (records : List VerifiedPolicyRecord) : VerifyingKey :=
  (records.reverse.findSome? fun record => record.action.newKey?).getD serviceKey

theorem foldl_keyBehind_eq_lastKey (serviceKey : VerifyingKey)
    (records : List VerifiedPolicyRecord) :
    records.foldl keyBehind serviceKey = lastKey serviceKey records := by
  induction records using List.reverseRecOn with
  | nil => rfl
  | append_singleton records record induction =>
    rw [foldl_append, induction, lastKey, lastKey, reverse_append, reverse_singleton,
      singleton_append, findSome?_cons, foldl_cons, foldl_nil, keyBehind]
    cases record.action with
    | grant deviceId fingerprint role => rfl
    | revoke deviceId => rfl
    | rotateAuthority newKey => rfl

variable {crypto : Crypto} {groupId : FolderGroupId} {serviceKey : VerifyingKey}
  {records : List VerifiedPolicyRecord} {record : VerifiedPolicyRecord}

/-- The history has the key in effect at the head of each record, and at the empty chain's, and
nothing else. -/
structure KeysKnown (crypto : Crypto) (serviceKey : VerifyingKey)
    (records : List VerifiedPolicyRecord) (history : BitVec 256 → Option VerifyingKey) : Prop where
  start : (history zeroHash).isSome = true
  complete : ∀ record ∈ records, (history record.recordHash).isSome = true
  sound : ∀ head key, history head = some key → (head = zeroHash ∧ key = serviceKey) ∨
    ∃ index record, records[index]? = some record ∧ record.recordHash = head ∧
      key = lastKey serviceKey (records.take index) ∧ crypto.validKey key = true

theorem KeysKnown.snoc {records : List VerifiedPolicyRecord}
    {history : BitVec 256 → Option VerifyingKey} {record : VerifiedPolicyRecord}
    (known : KeysKnown crypto serviceKey records history)
    (valid : crypto.validKey (lastKey serviceKey records) = true) :
    KeysKnown crypto serviceKey (records ++ [record]) fun hash =>
      if hash = record.recordHash then some (lastKey serviceKey records) else history hash where
  start := by
    split
    · rfl
    · exact known.start
  complete := by
    intro other member
    split
    · rfl
    · rename_i differ
      rcases mem_append.mp member with among | last
      · exact known.complete other among
      · rw [mem_singleton.mp last] at differ
        exact absurd rfl differ
  sound := by
    intro head key found
    split at found
    · rename_i same
      cases found
      refine .inr ⟨records.length, record, ?_, same.symm, ?_, valid⟩
      · rw [getElem?_append_right (Nat.le_refl _), Nat.sub_self]
        rfl
      · rw [take_left]
    · rcases known.sound head key found with start | earlier
      · exact .inl start
      · rcases earlier with ⟨index, other, at_, hash, same, usable⟩
        have within := (List.getElem?_eq_some_iff.mp at_).1
        refine .inr ⟨index, other, ?_, hash, ?_, usable⟩
        · rw [getElem?_append_left within, at_]
        · rw [take_append_of_le_length (Nat.le_of_lt within), same]

theorem KeysKnown.foldlM {progress last : Progress} {records : List PolicyRecord}
    (carries : progress.Carries crypto groupId serviceKey)
    (known : KeysKnown crypto serviceKey progress.records progress.authorityKeyHistory)
    (passed : records.foldlM (verifyNext crypto groupId) progress = .ok last) :
    KeysKnown crypto serviceKey last.records last.authorityKeyHistory := by
  induction records generalizing progress with
  | nil =>
    cases passed
    exact known
  | cons record rest induction =>
    obtain ⟨next, stepped, later⟩ := bind_eq_ok_iff.mp passed
    apply induction (verifyNext_carries carries stepped) _ later
    rcases verifyNext_ok stepped with ⟨seq, verified, verifies, kept⟩
    have key : progress.authorityKey = lastKey serviceKey progress.records :=
      carries.key.trans (foldl_keyBehind_eq_lastKey serviceKey progress.records)
    have valid := (verifyRecord_parsed verifies).2
    rw [kept, Progress.keep]
    dsimp only
    rw [insertRecord_last, key]
    · apply known.snoc
      rw [← key]
      exact valid
    · intro earlier member
      have bound := carries.linked.seq_le member
      have number := (verifyRecord_ok verifies).1
      have expected := carries.seq
      omega

theorem keysKnown_nil (serviceKey : VerifyingKey) :
    KeysKnown crypto serviceKey [] fun hash => if hash = zeroHash then some serviceKey else none where
  start := rfl
  complete := by
    intro record member
    cases member
  sound := by
    intro head key found
    split at found
    · rename_i zero
      cases found
      exact .inl ⟨zero, rfl⟩
    · cases found

/-- A snapshot with its chain and the keys at its heads. -/
structure GroupPolicyState.Keyed (crypto : Crypto) (groupId : FolderGroupId)
    (serviceKey : VerifyingKey) (state : GroupPolicyState) : Prop where
  chained : state.Chained crypto groupId serviceKey
  known : KeysKnown crypto serviceKey state.records state.authorityKeyHistory

theorem closeLog_keyed {log : GroupPolicyLog} {currentHead : BitVec 256} {progress : Progress}
    {state : GroupPolicyState} (carries : progress.Carries crypto groupId serviceKey)
    (known : KeysKnown crypto serviceKey progress.records progress.authorityKeyHistory)
    (closed : closeLog log currentHead progress = .ok state) :
    state.Keyed crypto groupId serviceKey := by
  refine ⟨closeLog_chained carries closed, ?_⟩
  rw [closeLog] at closed
  split at closed
  · cases closed
  · split at closed
    · cases closed
    · split at closed
      · cases closed
      · cases closed
        exact known

theorem startHistory_eq {base : GroupPolicyState}
    (known : (base.authorityKeyHistory zeroHash).isSome = true) (pinned : VerifyingKey) :
    (startProgress pinned (some base)).authorityKeyHistory = base.authorityKeyHistory := by
  funext hash
  rw [startProgress]
  dsimp only
  split
  · rename_i zero
    rcases isSome_iff_exists.mp known with ⟨key, found⟩
    rw [zero, found, some_or]
  · rfl

theorem verifyWithBase_empty {servicePublicKey : List UInt8} {log : GroupPolicyLog}
    {base state : GroupPolicyState} (empty : log.records = [])
    (passed : verifyGroupPolicyLogWithBase crypto servicePublicKey (some base) log = .ok state) :
    state = base := by
  rw [verifyGroupPolicyLogWithBase, empty] at passed
  obtain ⟨_, _, passed⟩ := bind_eq_ok_iff.mp passed
  obtain ⟨_, _, passed⟩ := bind_eq_ok_iff.mp passed
  dsimp only at passed
  split at passed
  · split at passed
    · cases passed
      rfl
    · cases passed
  · rename_i some
    exact absurd rfl some

theorem Verified.keyed {servicePublicKey : List UInt8} {state : GroupPolicyState}
    (verified : Verified crypto servicePublicKey groupId state)
    (pinned : fixed 32 servicePublicKey "service public key" = .ok serviceKey) :
    state.Keyed crypto groupId serviceKey := by
  induction verified with
  | @fresh log state ofGroup passed =>
    obtain ⟨sameKey, currentHead, progress, samePin, _, folded, closed⟩ :=
      (verifyWithBase_ok_iff (.inl rfl)).mp passed
    cases pinned.symm.trans samePin
    rw [ofGroup] at folded
    have carries : (startProgress serviceKey none).Carries crypto groupId serviceKey :=
      carries_startProgress serviceKey
    exact closeLog_keyed (foldlM_carries carries folded)
      (KeysKnown.foldlM carries (keysKnown_nil serviceKey) folded) closed
  | @extended base log state earlier ofGroup passed keyed =>
    by_cases empty : log.records = []
    · rw [verifyWithBase_empty empty passed]
      exact keyed
    · obtain ⟨sameKey, currentHead, progress, samePin, _, folded, closed⟩ :=
        (verifyWithBase_ok_iff (.inr empty)).mp passed
      cases pinned.symm.trans samePin
      rw [ofGroup] at folded
      have carries := keyed.chained.carries serviceKey
      refine closeLog_keyed (foldlM_carries carries folded)
        (KeysKnown.foldlM carries ?_ folded) closed
      rw [startHistory_eq keyed.known.start]
      exact keyed.known

/-! ## Heads of a chain -/

theorem Linked.hash_getElem? (linked : Linked crypto groupId records) (member : record ∈ records) :
    record.recordHash = crypto.sha256 (hashedBytes groupId record) := by
  induction linked with
  | nil => cases member
  | @snoc records last linked seq prev hash induction =>
    rcases mem_append.mp member with among | here
    · exact induction among
    · rw [mem_singleton.mp here]
      exact hash

theorem Linked.index_eq (linked : Linked crypto groupId records) (bounded : records.length < 2 ^ 64)
    (collisionFree : DigestCollisionFree crypto (records.map (hashedBytes groupId)))
    {first second : Nat} {other : VerifiedPolicyRecord} (found : records[first]? = some record)
    (foundOther : records[second]? = some other) (same : record.recordHash = other.recordHash) :
    first = second := by
  have member := mem_of_getElem? found
  have otherMember := mem_of_getElem? foundOther
  rw [linked.hash_getElem? member, linked.hash_getElem? otherMember] at same
  have bytes := collisionFree _ (mem_map_of_mem member) _ (mem_map_of_mem otherMember) same
  have written := (hashedBytes_injective bytes).2.2
  have bound := linked.seq_le member
  have otherBound := linked.seq_le otherMember
  have numbers : record.seq = other.seq :=
    beBytes_injective (by omega) (by omega) written
  rw [linked.seq_getElem? found, linked.seq_getElem? foundOther] at numbers
  omega

namespace GroupPolicyState

variable {state : GroupPolicyState}

theorem Keyed.resolve_record (keyed : state.Keyed crypto groupId serviceKey)
    (bounded : state.records.length < 2 ^ 64)
    (collisionFree : DigestCollisionFree crypto (state.records.map (hashedBytes groupId)))
    {index : Nat} (found : state.records[index]? = some record)
    (nonzero : record.recordHash ≠ zeroHash) (signerKeyId : BitVec 256) :
    state.resolveAuthorityKey crypto signerKeyId record.recordHash =
      if fingerprintSigningKey crypto (lastKey serviceKey (state.records.take index)) =
          signerKeyId then
        some (lastKey serviceKey (state.records.take index))
      else none := by
  rcases isSome_iff_exists.mp
    (keyed.known.complete record (mem_of_getElem? found)) with ⟨key, kept⟩
  rcases keyed.known.sound _ key kept with start | earlier
  · exact absurd start.1 nonzero
  · rcases earlier with ⟨other, otherRecord, foundOther, sameHash, sameKey, valid⟩
    have here : other = index :=
      keyed.chained.linked.index_eq bounded collisionFree foundOther found sameHash
    rw [here] at sameKey
    rw [resolveAuthorityKey, if_neg (fun both => nonzero both.1), kept, ← sameKey]
    dsimp only
    rw [fingerprintSigningKey, valid]
    by_cases named : crypto.sha256 (putHash key) = signerKeyId
    · rw [if_pos named, if_neg (not_not.mpr named), if_pos rfl]
    · rw [if_neg named, if_pos named]

theorem Keyed.resolve_outside (keyed : state.Keyed crypto groupId serviceKey) {head : BitVec 256}
    (nonzero : head ≠ zeroHash) (outside : head ∉ state.records.map (·.recordHash))
    (signerKeyId : BitVec 256) : state.resolveAuthorityKey crypto signerKeyId head = none := by
  have unknown : state.authorityKeyHistory head = none := by
    cases kept : state.authorityKeyHistory head with
    | none => rfl
    | some key =>
      rcases keyed.known.sound head key kept with start | earlier
      · exact absurd start.1 nonzero
      · rcases earlier with ⟨index, record, found, hash, _, _⟩
        exact absurd (mem_map.mpr ⟨record, mem_of_getElem? found, hash⟩) outside
  rw [resolveAuthorityKey, if_neg (fun both => nonzero both.1), unknown]

/-- At the empty chain's head, the key the group started with is resolved until the first
rotation. -/
theorem Keyed.resolve_zero (keyed : state.Keyed crypto groupId serviceKey)
    (signerKeyId : BitVec 256) :
    state.resolveAuthorityKey crypto signerKeyId zeroHash =
      if state.authorityGeneration = 0 ∧ fingerprintSigningKey crypto serviceKey = signerKeyId ∧
          crypto.validKey serviceKey = true then
        some serviceKey
      else none := by
  rw [resolveAuthorityKey]
  by_cases rotated : 0 < state.authorityGeneration
  · rw [if_pos ⟨rfl, rotated⟩, if_neg (fun all => absurd all.1 (Nat.ne_of_gt rotated))]
  · have unrotated : rotations state.records = 0 := by
      rw [← keyed.chained.generation]
      omega
    rcases isSome_iff_exists.mp keyed.known.start with ⟨key, kept⟩
    have same : key = serviceKey := by
      rcases keyed.known.sound _ key kept with start | earlier
      · exact start.2
      · rcases earlier with ⟨index, record, _, _, sameKey, _⟩
        have none : rotations (state.records.take index) = 0 := by
          have whole := rotations_append (state.records.take index) (state.records.drop index)
          rw [take_append_drop, unrotated] at whole
          omega
        rw [sameKey, ← foldl_keyBehind_eq_lastKey, foldl_keyBehind serviceKey none]
    rw [if_neg (fun both => rotated both.2), kept, same]
    dsimp only
    rw [fingerprintSigningKey]
    by_cases named : crypto.sha256 (putHash serviceKey) = signerKeyId
    · by_cases valid : crypto.validKey serviceKey = true
      · rw [if_neg (not_not.mpr named), if_pos valid, if_pos ⟨by omega, named, valid⟩]
      · rw [if_neg (not_not.mpr named), if_neg valid, if_neg (fun all => valid all.2.2)]
    · rw [if_pos named, if_neg (fun all => named all.2.1)]

/-! ## Growth -/

variable {earlier later : GroupPolicyState} {seq : Nat}

theorem filter_of_prefix {more : List VerifiedPolicyRecord}
    (linked : Linked crypto groupId (records ++ more)) (within : seq ≤ records.length) :
    (records ++ more).filter (fun record => record.seq ≤ seq) =
      records.filter fun record => record.seq ≤ seq := by
  have beyond : more.filter (fun record => decide (record.seq ≤ seq)) = [] := by
    rw [filter_eq_nil_iff]
    intro record member small
    rcases mem_iff_getElem?.mp member with ⟨index, found⟩
    have number := @Linked.seq_getElem? crypto groupId _ linked (records.length + index) record
      (by rw [getElem?_append_right (Nat.le_add_right _ _), Nat.add_sub_cancel_left, found])
    have bound : record.seq ≤ seq := of_decide_eq_true small
    omega
  rw [filter_append, beyond, append_nil]

theorem find?_of_prefix {more : List VerifiedPolicyRecord}
    (linked : Linked crypto groupId (records ++ more)) (positive : 1 ≤ seq)
    (within : seq ≤ records.length) :
    (records ++ more).find? (fun record => record.seq = seq) =
      records.find? fun record => record.seq = seq := by
  obtain ⟨index, rfl⟩ := Nat.exists_eq_add_of_le' positive
  rw [linked.find?_seq, linked.of_append.find?_seq, getElem?_append_left (by omega)]

theorem Chained.writerAtPolicyPoint_eq (chained : earlier.Chained crypto groupId serviceKey)
    (next : later.Chained crypto groupId serviceKey) (forward : earlier.records <+: later.records)
    (positive : 1 ≤ seq) (within : seq ≤ earlier.currentSeq) (deviceId : DeviceId)
    (signingKeyFingerprint head : BitVec 256) :
    later.writerAtPolicyPoint deviceId signingKeyFingerprint seq head =
      earlier.writerAtPolicyPoint deviceId signingKeyFingerprint seq head := by
  obtain ⟨more, whole⟩ := forward
  have linked := next.linked
  rw [← whole] at linked
  have bound : seq ≤ earlier.records.length := chained.seq ▸ within
  have longer : seq ≤ later.currentSeq := by
    rw [next.seq, ← whole, length_append]
    omega
  have heads : later.recordHeadAt seq = earlier.recordHeadAt seq := by
    rw [recordHeadAt, recordHeadAt, ← whole, find?_of_prefix linked positive bound]
  have members : later.membersAt seq = earlier.membersAt seq := by
    rw [membersAt, membersAt, if_neg (Nat.not_lt.mpr within), if_neg (Nat.not_lt.mpr longer),
      membersUpTo, membersUpTo, ← whole, find?_of_prefix linked positive bound,
      filter_of_prefix linked bound]
  have notZero : seq ≠ 0 := by omega
  rw [writerAtPolicyPoint, writerAtPolicyPoint, heads, members, if_neg notZero, if_neg notZero]

theorem Chained.point_of_writer (chained : earlier.Chained crypto groupId serviceKey)
    {deviceId : DeviceId} {signingKeyFingerprint head : BitVec 256}
    (writer : earlier.writerAtPolicyPoint deviceId signingKeyFingerprint seq head = true) :
    (seq = 0 ∧ head = zeroHash ∧ earlier.authorityGeneration = 0) ∨
      (1 ≤ seq ∧ seq ≤ earlier.currentSeq ∧
        ∃ record, earlier.records[seq - 1]? = some record ∧ record.recordHash = head) := by
  rw [writerAtPolicyPoint] at writer
  split at writer
  · rename_i zero
    exact .inl ⟨zero, of_decide_eq_true writer⟩
  · rename_i positive
    split at writer
    · cases writer
    · rename_i held
      rw [not_not, recordHeadAt] at held
      rcases map_eq_some_iff.mp held with ⟨record, found, hash⟩
      obtain ⟨index, rfl⟩ := Nat.exists_eq_add_of_le' (Nat.one_le_iff_ne_zero.mpr positive)
      rw [chained.linked.find?_seq] at found
      have within := (List.getElem?_eq_some_iff.mp found).1
      refine .inr ⟨by omega, ?_, record, ?_, hash⟩
      · rw [chained.seq]
        omega
      · rw [Nat.add_sub_cancel]
        exact found

section

variable (keyed : earlier.Keyed crypto groupId serviceKey)

include keyed

theorem Keyed.resolve_record_eq
    (next : later.Keyed crypto groupId serviceKey) (forward : earlier.records <+: later.records)
    (bounded : later.records.length < 2 ^ 64)
    (collisionFree : DigestCollisionFree crypto (later.records.map (hashedBytes groupId)))
    {index : Nat} (found : earlier.records[index]? = some record)
    (nonzero : record.recordHash ≠ zeroHash) (signerKeyId : BitVec 256) :
    later.resolveAuthorityKey crypto signerKeyId record.recordHash =
        earlier.resolveAuthorityKey crypto signerKeyId record.recordHash ∧
      earlier.resolveAuthorityKey crypto signerKeyId record.recordHash =
        if fingerprintSigningKey crypto (lastKey serviceKey (earlier.records.take index)) =
            signerKeyId then
          some (lastKey serviceKey (earlier.records.take index))
        else none := by
  obtain ⟨more, whole⟩ := forward
  have within := (List.getElem?_eq_some_iff.mp found).1
  have size : earlier.records.length ≤ later.records.length := by
    rw [← whole, length_append]
    omega
  have fewer : DigestCollisionFree crypto (earlier.records.map (hashedBytes groupId)) := by
    intro first firstIn second secondIn
    rw [← whole, map_append] at collisionFree
    exact collisionFree first (mem_append_left _ firstIn) second
      (mem_append_left _ secondIn)
  have foundLater : later.records[index]? = some record := by
    rw [← whole, getElem?_append_left within, found]
  have front : later.records.take index = earlier.records.take index := by
    rw [← whole, take_append_of_le_length (Nat.le_of_lt within)]
  have before := keyed.resolve_record (Nat.lt_of_le_of_lt size bounded) fewer found nonzero
    signerKeyId
  refine ⟨?_, before⟩
  rw [next.resolve_record bounded collisionFree foundLater nonzero, front, before]

theorem Keyed.generation_zero
    (next : later.Keyed crypto groupId serviceKey) (forward : earlier.records <+: later.records)
    (unrotated : later.authorityGeneration = 0) : earlier.authorityGeneration = 0 := by
  obtain ⟨more, whole⟩ := forward
  rw [next.chained.generation, ← whole, rotations_append] at unrotated
  rw [keyed.chained.generation]
  omega

/-- A point the earlier chain vouches for is answered alike by the later one, unless it is the empty
chain's and the authority has rotated since. -/
theorem Keyed.answers_of_writer
    (next : later.Keyed crypto groupId serviceKey) (forward : earlier.records <+: later.records)
    (bounded : later.records.length < 2 ^ 64)
    (collisionFree : DigestCollisionFree crypto (later.records.map (hashedBytes groupId)))
    {deviceId : DeviceId} {signingKeyFingerprint head : BitVec 256}
    (writer : earlier.writerAtPolicyPoint deviceId signingKeyFingerprint seq head = true)
    (kept : head ≠ zeroHash ∨ later.authorityGeneration = 0) :
    later.writerAtPolicyPoint deviceId signingKeyFingerprint seq head = true ∧
      ∀ signerKeyId, later.resolveAuthorityKey crypto signerKeyId head =
        earlier.resolveAuthorityKey crypto signerKeyId head := by
  have atZero : later.authorityGeneration = 0 → ∀ signerKeyId,
      later.resolveAuthorityKey crypto signerKeyId zeroHash =
        earlier.resolveAuthorityKey crypto signerKeyId zeroHash := by
    intro unrotated signerKeyId
    rw [next.resolve_zero, keyed.resolve_zero, unrotated,
      keyed.generation_zero next forward unrotated]
  rcases keyed.chained.point_of_writer writer with start | recorded
  · rcases start with ⟨zero, empty, _⟩
    have unrotated := kept.resolve_left (not_not.mpr empty)
    refine ⟨?_, ?_⟩
    · rw [writerAtPolicyPoint, if_pos zero]
      exact decide_eq_true ⟨empty, unrotated⟩
    · rw [empty]
      exact atZero unrotated
  · rcases recorded with ⟨positive, within, record, found, hash⟩
    refine ⟨?_, ?_⟩
    · rw [keyed.chained.writerAtPolicyPoint_eq next.chained forward positive within]
      exact writer
    · intro signerKeyId
      by_cases zero : head = zeroHash
      · rw [zero]
        exact atZero (kept.resolve_left (not_not.mpr zero)) signerKeyId
      · rw [← hash]
        rw [← hash] at zero
        exact (keyed.resolve_record_eq next forward bounded collisionFree found zero signerKeyId).1

end

end GroupPolicyState

/-! ## Admission -/

theorem verifyChangeAdmission_congr {first second : AuthorityKeyFor}
    {checkpoint : AuthorizationCheckpoint}
    (same : first checkpoint.signerKeyId checkpoint.policyHead =
      second checkpoint.signerKeyId checkpoint.policyHead)
    (deviceId : DeviceId) (authorKey : VerifyingKey) (changeHash : BitVec 256)
    (proof : MerkleProof) (signature : Signature) :
    verifyChangeAdmission crypto groupId deviceId authorKey changeHash proof checkpoint signature
        first =
      verifyChangeAdmission crypto groupId deviceId authorKey changeHash proof checkpoint signature
        second := by
  rw [verifyChangeAdmission, verifyChangeAdmission, verifyCheckpointAuthorization,
    verifyCheckpointAuthorization, same]

theorem seal_ok_iff {checkpointHash : BitVec 256} {sealer : DeviceId}
    {evidence : Option NativeCheckpointSealProof} {policy : GroupPolicyState} :
    verifyNativeCheckpointSealAuthorization crypto groupId checkpointHash sealer evidence policy =
        .ok () ↔
      ∃ proof, evidence = some proof ∧ crypto.validKey proof.sealerPublicKey = true ∧
        verifyChangeAdmission crypto groupId sealer proof.sealerPublicKey
          (nativeCheckpointSealLeaf crypto groupId checkpointHash) proof.merkleProof
          proof.authorityCheckpoint proof.authorityCheckpointSignature
          (policy.resolveAuthorityKey crypto) = .ok () ∧
        policy.writerAtPolicyPoint sealer proof.authorityCheckpoint.signingKeyFingerprint
          proof.authorityCheckpoint.policySeq proof.authorityCheckpoint.policyHead = true := by
  unfold verifyNativeCheckpointSealAuthorization
  constructor
  · intro passed
    cases evidence with
    | none => cases passed
    | some proof =>
      dsimp only at passed
      split at passed
      · cases passed
      · rename_i valid
        split at passed
        · cases passed
        · rename_i admitted
          split at passed
          · rename_i writer
            exact ⟨proof, rfl, by simpa using valid, admitted, writer⟩
          · cases passed
  · intro parts
    rcases parts with ⟨proof, rfl, valid, admitted, writer⟩
    simp [valid, admitted, writer]

/-- Authorization answers are stable while a chain grows. What a point of the earlier chain is
answered about writers, the later chain answers too; the head of a record resolves in both to the
key of the last rotation before it, and a head that is neither a record's nor the empty chain's to
nothing; and what is admitted on the earlier chain stays admitted on the later one, but for what is
pinned at the empty chain's head, which the first rotation retires. -/
theorem authorization_stable (crypto : Crypto) (servicePublicKey : List UInt8)
    (groupId : FolderGroupId) (serviceKey : VerifyingKey) (earlier later : GroupPolicyState)
    (pinned : fixed 32 servicePublicKey "service public key" = .ok serviceKey)
    (verifiedEarlier : Verified crypto servicePublicKey groupId earlier)
    (verifiedLater : Verified crypto servicePublicKey groupId later)
    (forward : earlier.records <+: later.records)
    (bounded : later.currentSeq < 2 ^ 64)
    (collisionFree : DigestCollisionFree crypto (later.records.map (hashedBytes groupId))) :
    (∀ seq, 1 ≤ seq → seq ≤ earlier.currentSeq → ∀ deviceId signingKeyFingerprint head,
      later.writerAtPolicyPoint deviceId signingKeyFingerprint seq head =
        earlier.writerAtPolicyPoint deviceId signingKeyFingerprint seq head) ∧
    (∀ index record, earlier.records[index]? = some record → record.recordHash ≠ zeroHash →
      ∀ signerKeyId, later.resolveAuthorityKey crypto signerKeyId record.recordHash =
            earlier.resolveAuthorityKey crypto signerKeyId record.recordHash ∧
          earlier.resolveAuthorityKey crypto signerKeyId record.recordHash =
            if fingerprintSigningKey crypto (lastKey serviceKey (earlier.records.take index)) =
                signerKeyId then
              some (lastKey serviceKey (earlier.records.take index))
            else none) ∧
    (∀ head, head ≠ zeroHash → head ∉ earlier.records.map (·.recordHash) → ∀ signerKeyId,
      earlier.resolveAuthorityKey crypto signerKeyId head = none) ∧
    (∀ signerKeyId, earlier.resolveAuthorityKey crypto signerKeyId zeroHash =
      if earlier.authorityGeneration = 0 ∧ fingerprintSigningKey crypto serviceKey = signerKeyId ∧
          crypto.validKey serviceKey = true then
        some serviceKey
      else none) ∧
    (∀ input, input.envelope.checkpoint.policyHead ≠ zeroHash ∨ later.authorityGeneration = 0 →
      earlier.admitsDelta crypto groupId input = true →
      later.admitsDelta crypto groupId input = true) ∧
    ∀ checkpointHash sealer proof,
      proof.authorityCheckpoint.policyHead ≠ zeroHash ∨ later.authorityGeneration = 0 →
      verifyNativeCheckpointSealAuthorization crypto groupId checkpointHash sealer (some proof)
        earlier = .ok () →
      verifyNativeCheckpointSealAuthorization crypto groupId checkpointHash sealer (some proof)
        later = .ok () := by
  have keyed := verifiedEarlier.keyed pinned
  have next := verifiedLater.keyed pinned
  rw [next.chained.seq] at bounded
  refine ⟨?_, ?_, ?_, keyed.resolve_zero, ?_, ?_⟩
  · intro seq positive within
    exact keyed.chained.writerAtPolicyPoint_eq next.chained forward positive within
  · intro index record found nonzero
    exact keyed.resolve_record_eq next forward bounded collisionFree found nonzero
  · intro head nonzero outside
    exact keyed.resolve_outside nonzero outside
  · intro input kept admitted
    rw [GroupPolicyState.admitsDelta, Bool.and_eq_true] at admitted
    rcases keyed.answers_of_writer next forward bounded collisionFree admitted.2 kept with
      ⟨writer, resolved⟩
    rw [GroupPolicyState.admitsDelta, Bool.and_eq_true, verifyProofCarryingDelta,
      verifyChangeAdmission_congr (resolved input.envelope.checkpoint.signerKeyId),
      ← verifyProofCarryingDelta]
    exact ⟨admitted.1, writer⟩
  · intro checkpointHash sealer proof kept accepted
    rcases seal_ok_iff.mp accepted with ⟨same, decoded, valid, admitted, wrote⟩
    cases decoded
    rcases keyed.answers_of_writer next forward bounded collisionFree wrote kept with
      ⟨writer, resolved⟩
    refine seal_ok_iff.mpr ⟨proof, rfl, valid, ?_, writer⟩
    rw [verifyChangeAdmission_congr (resolved proof.authorityCheckpoint.signerKeyId)]
    exact admitted

/-! A group whose log grants a device, rotates the authority and revokes the device again. -/

namespace SamplePolicy

/-- The record that does `action` on top of the hash of the one before it. -/
def signed (signer : VerifyingKey) (seq : Nat) (prev : BitVec 256) (action : PolicyAction) :
    VerifiedPolicyRecord :=
  let unsigned : VerifiedPolicyRecord :=
    { seq := seq, prevRecordHash := prev, recordHash := 0, epoch := seq,
      signerKeyId := fingerprintSigningKey Crypto.sample signer, action := action, signature := 0 }
  let signed := { unsigned with
    signature := Crypto.sampleSign signer (signingBytes SampleLog.group unsigned) }
  { signed with recordHash := Crypto.sample.sha256 (hashedBytes SampleLog.group signed) }

def granted : VerifiedPolicyRecord := signed SampleLog.key 1 zeroHash (.grant "d" 5 .editor)

def rotated : VerifiedPolicyRecord :=
  signed SampleLog.key 2 granted.recordHash (.rotateAuthority 9)

def revoked : VerifiedPolicyRecord := signed 9 3 rotated.recordHash (.revoke "d")

def wire (record : VerifiedPolicyRecord) : PolicyRecord :=
  let unsigned : PolicyRecord :=
    { groupId := SampleLog.group, seq := record.seq,
      prevRecordHash := putHash record.prevRecordHash, recordHash := putHash record.recordHash,
      epoch := record.epoch, actionType := actionRevoke, deviceId := "d",
      signingKeyFingerprint := putHash 5, role := 1, newAuthorityKey := putHash 9,
      signerKeyId := putHash record.signerKeyId,
      signature := beBytes 64 record.signature.toNat }
  match record.action with
  | .grant _ _ _ => { unsigned with actionType := actionGrantWithRole }
  | .revoke _ => unsigned
  | .rotateAuthority _ => { unsigned with actionType := actionRotateAuthority }

def logOf (records : List VerifiedPolicyRecord) (last : VerifiedPolicyRecord) : GroupPolicyLog :=
  { groupId := SampleLog.group, currentSeq := last.seq, currentEpoch := last.epoch,
    policyHead := putHash last.recordHash, records := (records ++ [last]).map wire }

def before : GroupPolicyState := SampleLog.snapshot (logOf [] granted)

def after : GroupPolicyState := SampleLog.snapshot (logOf [granted, rotated] revoked)

/-- A seal that the group's first authority vouched for before anything was recorded. -/
def sealProof : NativeCheckpointSealProof :=
  let checkpoint : AuthorizationCheckpoint :=
    { groupId := SampleLog.group, deviceId := "d",
      signingKeyFingerprint := fingerprintSigningKey Crypto.sample 3,
      merkleRoot := leafHash Crypto.sample
        (nativeCheckpointSealLeaf Crypto.sample SampleLog.group 1),
      leafCount := 1, checkpointSeq := 1,
      signerKeyId := fingerprintSigningKey Crypto.sample SampleLog.key,
      policyEpoch := 0, policySeq := 0, policyHead := zeroHash, issuedAtUnix := 0 }
  { authorityCheckpoint := checkpoint
    authorityCheckpointSignature :=
      Crypto.sampleSign SampleLog.key (canonicalSigningBytes checkpoint)
    sealerPublicKey := 3
    merkleProof := ⟨0, 1, []⟩ }

end SamplePolicy

set_option maxRecDepth 8192 in
open SamplePolicy in
/-- The device was a writer before it was revoked, under the key of that time. -/
theorem authorization_stable_revoked : after.writerAtPolicyPoint "d" 5 1 granted.recordHash = true ∧
      after.resolveAuthorityKey Crypto.sample (fingerprintSigningKey Crypto.sample SampleLog.key)
        granted.recordHash = some SampleLog.key := by
  have stable := authorization_stable Crypto.sample (putHash SampleLog.key) SampleLog.group
    SampleLog.key before after (fixed_putHash _ _) (SampleLog.verified_snapshot rfl (by decide))
    (SampleLog.verified_snapshot rfl (by decide)) (by decide) (by decide)
    (by unfold DigestCollisionFree; decide)
  refine ⟨?_, ?_⟩
  · rw [stable.1 1 (Nat.le_refl 1) (by decide)]
    decide
  · have resolved := stable.2.1 0 granted (by decide) (by decide)
      (fingerprintSigningKey Crypto.sample SampleLog.key)
    rw [resolved.1, resolved.2]
    exact if_pos (by decide)

set_option maxRecDepth 8192 in
open SamplePolicy in
/-- The empty chain's head is no record's, and resolves to the first key; and a seal pinned there is
good until the authority rotates. -/
theorem empty_chain_point_retired :
    (¬∀ (crypto : Crypto) (servicePublicKey : List UInt8) (groupId : FolderGroupId)
        (state : GroupPolicyState), Verified crypto servicePublicKey groupId state →
      ∀ head, head ∉ state.records.map (·.recordHash) → ∀ signerKeyId,
        state.resolveAuthorityKey crypto signerKeyId head = none) ∧
    ¬∀ (crypto : Crypto) (servicePublicKey : List UInt8) (groupId : FolderGroupId)
        (earlier later : GroupPolicyState), Verified crypto servicePublicKey groupId earlier →
      Verified crypto servicePublicKey groupId later → earlier.records <+: later.records →
      ∀ checkpointHash sealer proof,
        verifyNativeCheckpointSealAuthorization crypto groupId checkpointHash sealer (some proof)
          earlier = .ok () →
        verifyNativeCheckpointSealAuthorization crypto groupId checkpointHash sealer (some proof)
          later = .ok () := by
  have verifiedBefore : Verified Crypto.sample (putHash SampleLog.key) SampleLog.group before :=
    SampleLog.verified_snapshot rfl (by decide)
  have verifiedAfter : Verified Crypto.sample (putHash SampleLog.key) SampleLog.group after :=
    SampleLog.verified_snapshot rfl (by decide)
  refine ⟨?_, ?_⟩
  · intro nothing
    have absent := nothing _ _ _ before verifiedBefore zeroHash (by decide)
      (fingerprintSigningKey Crypto.sample SampleLog.key)
    revert absent
    decide
  · intro always
    have kept := always _ _ _ before after verifiedBefore verifiedAfter (by decide) 1 "d" sealProof
      (by decide)
    revert kept
    decide

end Yadorilink.Policy
