import Yadorilink.Policy.Authorization

/-! One head, one policy. A log may reach a device whole or in parts, and with other signatures on
its records; what the head fixes is enough for every answer. -/

namespace Yadorilink.Policy

open GroupPolicyState List

/-- A record with nothing but what its hash, its number and its action say. -/
def bareRecord (essence : BitVec 256 × Nat × PolicyAction) : VerifiedPolicyRecord where
  seq := essence.2.1
  prevRecordHash := zeroHash
  recordHash := essence.1
  epoch := 0
  signerKeyId := 0
  action := essence.2.2
  signature := 0

section Essence

variable {records others : List VerifiedPolicyRecord}
  (same : records.map (·.essence) = others.map (·.essence))

include same

/-- What does not look at the rest of a record reads the same from both logs. -/
theorem read_eq {α : Type} (read : List VerifiedPolicyRecord → α)
    (bare : ∀ records, read (records.map fun record => bareRecord record.essence) = read records) :
    read records = read others := by
  have bared := congrArg (List.map bareRecord) same
  rw [map_map, map_map] at bared
  rw [← bare records, ← bare others]
  exact congrArg read bared

theorem lastKey_take_eq (serviceKey : VerifyingKey) (count : Nat) :
    lastKey serviceKey (records.take count) = lastKey serviceKey (others.take count) := by
  refine read_eq same (fun records => lastKey serviceKey (records.take count)) ?_
  intro records
  rw [lastKey, lastKey, ← map_take, ← map_reverse, findSome?_map]
  rfl

end Essence

variable {crypto : Crypto} {groupId : FolderGroupId} {serviceKey : VerifyingKey}
  {first second : GroupPolicyState}

theorem membersAt_eq (same : first.records.map (·.essence) = second.records.map (·.essence))
    (seq : first.currentSeq = second.currentSeq) (point : Nat) :
    first.membersAt point = second.membersAt point := by
  have members : first.membersUpTo point = second.membersUpTo point := by
    refine read_eq same (fun records =>
      (records.filter fun record => record.seq ≤ point).foldl replayGrants []) ?_
    intro records
    rw [filter_map, foldl_map]
    rfl
  have known : (first.records.find? fun record => record.seq = point).isNone =
      (second.records.find? fun record => record.seq = point).isNone := by
    refine read_eq same (fun records =>
      (records.find? fun record => record.seq = point).isNone) ?_
    intro records
    rw [find?_map, Option.isNone_map]
    rfl
  rw [membersAt, membersAt, members, known, seq]

theorem recordHeadAt_eq (same : first.records.map (·.essence) = second.records.map (·.essence))
    (point : Nat) : first.recordHeadAt point = second.recordHeadAt point := by
  refine read_eq same (fun records =>
    (records.find? fun record => record.seq = point).map (·.recordHash)) ?_
  intro records
  rw [find?_map, Option.map_map]
  rfl

theorem GroupPolicyState.Keyed.resolve_eq (keyed : first.Keyed crypto groupId serviceKey)
    (other : second.Keyed crypto groupId serviceKey)
    (same : first.records.map (·.essence) = second.records.map (·.essence))
    (generation : first.authorityGeneration = second.authorityGeneration)
    (bounded : first.records.length < 2 ^ 64)
    (collisionFree : DigestCollisionFree crypto (first.records.map (hashedBytes groupId)))
    (collisionFreeOther : DigestCollisionFree crypto (second.records.map (hashedBytes groupId))) :
    first.resolveAuthorityKey crypto = second.resolveAuthorityKey crypto := by
  have lengths := read_eq same length fun _ => length_map _
  have hashes := read_eq same (List.map (·.recordHash)) fun _ => map_map
  funext signerKeyId head
  by_cases zero : head = zeroHash
  · rw [zero, keyed.resolve_zero, other.resolve_zero, generation]
  · by_cases inside : head ∈ first.records.map (·.recordHash)
    · rcases mem_iff_getElem?.mp inside with ⟨index, found⟩
      have foundOther := found
      rw [hashes] at foundOther
      rw [getElem?_map, Option.map_eq_some_iff] at found foundOther
      rcases found with ⟨record, found, rfl⟩
      rcases foundOther with ⟨twin, foundOther, sameHash⟩
      rw [keyed.resolve_record bounded collisionFree found zero, ← sameHash,
        other.resolve_record (lengths ▸ bounded) collisionFreeOther foundOther (sameHash ▸ zero),
        lastKey_take_eq same]
    · rw [keyed.resolve_outside zero inside, other.resolve_outside zero (hashes ▸ inside)]

/-- Devices that hold the same policy head at the same sequence give the same answers, however the
log came to each of them: about the members at every point, about the deltas that are admitted and
about the checkpoints that are sealed. -/
theorem policy_head_decides (crypto : Crypto) (servicePublicKey : List UInt8)
    (groupId : FolderGroupId) (first second : GroupPolicyState)
    (verified : Verified crypto servicePublicKey groupId first)
    (verifiedOther : Verified crypto servicePublicKey groupId second)
    (seq : first.currentSeq = second.currentSeq) (head : first.policyHead = second.policyHead)
    (bounded : first.currentSeq < 2 ^ 64)
    (collisionFree : DigestCollisionFree crypto
      (recordMessages groupId [first.records, second.records])) :
    (∀ point, first.membersAt point = second.membersAt point) ∧
    (∀ input, first.admitsDelta crypto groupId input = second.admitsDelta crypto groupId input) ∧
    ∀ checkpointHash sealer evidence,
      verifyNativeCheckpointSealAuthorization crypto groupId checkpointHash sealer evidence first =
        verifyNativeCheckpointSealAuthorization crypto groupId checkpointHash sealer evidence
          second := by
  rcases verified.chained with ⟨serviceKey, pinned, chained⟩
  have keyed := verified.keyed pinned
  have other := verifiedOther.keyed pinned
  have firstIn : ∀ record ∈ first.records, hashedBytes groupId record ∈
      recordMessages groupId ([first, second].map (·.records)) :=
    fun _ => mem_recordMessages (.head _)
  have secondIn : ∀ record ∈ second.records, hashedBytes groupId record ∈
      recordMessages groupId ([first, second].map (·.records)) :=
    fun _ => mem_recordMessages (.tail _ (.head _))
  have same := chained.linked.essence_eq collisionFree other.chained.linked firstIn secondIn
    (by rw [← chained.seq, seq, other.chained.seq]) (by rw [← chained.head, head, other.chained.head])
  have generation : first.authorityGeneration = second.authorityGeneration := by
    rw [chained.generation, other.chained.generation]
    refine read_eq same rotations ?_
    intro records
    rw [rotations, countP_map]
    rfl
  have resolve := keyed.resolve_eq other same generation (chained.seq ▸ bounded)
    (fun bytes hashed others hashedToo =>
      collisionFree bytes (forall_mem_map.mpr firstIn bytes hashed) others
        (forall_mem_map.mpr firstIn others hashedToo))
    (fun bytes hashed others hashedToo =>
      collisionFree bytes (forall_mem_map.mpr secondIn bytes hashed) others
        (forall_mem_map.mpr secondIn others hashedToo))
  have members := membersAt_eq same seq
  have writer : first.writerAtPolicyPoint = second.writerAtPolicyPoint := by
    funext deviceId fingerprint point head
    rw [writerAtPolicyPoint, writerAtPolicyPoint, generation, recordHeadAt_eq same, members]
  refine ⟨members, ?_, ?_⟩
  · intro input
    rw [admitsDelta, admitsDelta, resolve, writer]
  · intro checkpointHash sealer evidence
    unfold verifyNativeCheckpointSealAuthorization
    rw [resolve, writer]

set_option maxRecDepth 8192 in
open SamplePolicy in
/-- One device was sent the records in their order, the other the last record first. -/
theorem policy_head_decides_reversed :
    (SampleLog.snapshot { logOf [granted, rotated] revoked with
      records := [revoked, rotated, granted].map wire }).membersAt 1 =
      .ok [⟨"d", .editor, 5⟩] := by
  have same := policy_head_decides Crypto.sample (putHash SampleLog.key) SampleLog.group after
    (SampleLog.snapshot { logOf [granted, rotated] revoked with
      records := [revoked, rotated, granted].map wire })
    (SampleLog.verified_snapshot rfl (by decide)) (SampleLog.verified_snapshot rfl (by decide))
    (by decide) (by decide) (by decide) (by unfold DigestCollisionFree; decide)
  rw [← same.1 1]
  decide

end Yadorilink.Policy
