import Yadorilink.Domain.SignedDelta

/-! Publication evidence. A checkpoint is the authority's signature over the
Merkle root of a batch of delta hashes; with the proof that one delta is in the
batch, and the author's key, any receiver can decide offline whether the delta
may be admitted. -/

namespace Yadorilink

open Std

/-- What the authority signs for one device's batch. -/
structure AuthorizationCheckpoint where
  groupId : FolderGroupId
  deviceId : DeviceId
  signingKeyFingerprint : BitVec 256
  merkleRoot : BitVec 256
  /-- The exact size of the batch; the root alone does not fix it. -/
  leafCount : Nat
  checkpointSeq : Nat
  signerKeyId : BitVec 256
  policyEpoch : Nat
  policySeq : Nat
  policyHead : BitVec 256
  issuedAtUnix : Nat
deriving DecidableEq

/-- The audit path of one leaf, from its own level up to the root. -/
structure MerkleProof where
  leafIndex : Nat
  leafCount : Nat
  siblings : List (BitVec 256)
deriving DecidableEq

/-! ## Encoding -/

def putHash (hash : BitVec 256) : List UInt8 := beBytes 32 hash.toNat

def writeLenPrefixed (text : String) : List UInt8 :=
  putU64 (utf8Bytes text).length ++ utf8Bytes text

/-- The bytes the checkpoint's signature covers, and those it travels as. -/
def canonicalSigningBytes (checkpoint : AuthorizationCheckpoint) : List UInt8 :=
  utf8Bytes "ylchkpt1" ++ writeLenPrefixed checkpoint.groupId ++
    writeLenPrefixed checkpoint.deviceId ++ putHash checkpoint.signingKeyFingerprint ++
    putHash checkpoint.merkleRoot ++ putU64 checkpoint.leafCount ++
    putU64 checkpoint.checkpointSeq ++ putHash checkpoint.signerKeyId ++
    putU64 checkpoint.policyEpoch ++ putU64 checkpoint.policySeq ++
    putHash checkpoint.policyHead ++ putU64 checkpoint.issuedAtUnix

def encodeMerkleProof (proof : MerkleProof) : List UInt8 :=
  putU64 proof.leafIndex ++ putU64 proof.leafCount ++ proof.siblings.flatMap putHash

section Hashes

variable (crypto : Crypto)

def checkpointHash (checkpoint : AuthorizationCheckpoint) (signature : Signature) : BitVec 256 :=
  crypto.sha256 (canonicalSigningBytes checkpoint ++ beBytes 64 signature.toNat)

def fingerprintSigningKey (key : VerifyingKey) : BitVec 256 := crypto.sha256 (putHash key)

def leafHash (changeHash : BitVec 256) : BitVec 256 := crypto.sha256 (0 :: putHash changeHash)

def nodeHash (left right : BitVec 256) : BitVec 256 :=
  crypto.sha256 (1 :: putHash left ++ putHash right)

end Hashes

/-! ## Inclusion -/

/-- Climbs one level a turn. A level of odd length is completed by its last
node. -/
def climbLevels : Nat → Nat → Nat → Nat
  | 0, _, depth => depth
  | turns + 1, levelLen, depth =>
    if 1 < levelLen then climbLevels turns ((levelLen + levelLen % 2) / 2) (depth + 1)
    else depth

/-- How many siblings a proof in a batch of `leafCount` carries. Every level is
shorter than the one below it, so there are fewer levels than leaves. -/
def expectedProofDepth (leafCount : Nat) : Nat := climbLevels leafCount leafCount 0

/-- The root a proof leads to. A level's index says on which side the sibling
is. -/
def recomputeRootFromProof (crypto : Crypto) (changeHash : BitVec 256) (proof : MerkleProof) :
    BitVec 256 :=
  (proof.siblings.foldl (fun (climbed : BitVec 256 × Nat) sibling =>
    (if climbed.2 % 2 = 0 then nodeHash crypto climbed.1 sibling
      else nodeHash crypto sibling climbed.1, climbed.2 / 2))
    (leafHash crypto changeHash, proof.leafIndex)).1

inductive CheckpointAdmissionError where
  | unknownOrInvalidSignerKey
  | badCheckpointSignature
  | groupMismatch
  | deviceMismatch
  | signingKeyFingerprintMismatch
  | leafCountMismatch
  | leafIndexOutOfRange
  | proofDepthMismatch
  | merkleProofDoesNotMatchCheckpoint
deriving DecidableEq

/-- The authority key a verified policy chain has for a key id at a policy
head. -/
abbrev AuthorityKeyFor := BitVec 256 → BitVec 256 → Option VerifyingKey

section Verification

variable (crypto : Crypto)

def verifyCheckpointAuthorization (expectedGroupId : FolderGroupId) (authorDeviceId : DeviceId)
    (authorKey : VerifyingKey) (checkpoint : AuthorizationCheckpoint) (signature : Signature)
    (resolveAuthorityKey : AuthorityKeyFor) : Except CheckpointAdmissionError Unit :=
  match resolveAuthorityKey checkpoint.signerKeyId checkpoint.policyHead with
  | none => .error .unknownOrInvalidSignerKey
  | some authorityKey =>
    if !crypto.verify authorityKey (canonicalSigningBytes checkpoint) signature then
      .error .badCheckpointSignature
    else if checkpoint.groupId ≠ expectedGroupId then .error .groupMismatch
    else if checkpoint.deviceId ≠ authorDeviceId then .error .deviceMismatch
    else if checkpoint.signingKeyFingerprint ≠ fingerprintSigningKey crypto authorKey then
      .error .signingKeyFingerprintMismatch
    else .ok ()

def verifyChangeInclusion (changeHash : BitVec 256) (proof : MerkleProof)
    (checkpoint : AuthorizationCheckpoint) : Except CheckpointAdmissionError Unit :=
  if checkpoint.leafCount ≠ proof.leafCount then .error .leafCountMismatch
  else if proof.leafCount ≤ proof.leafIndex then .error .leafIndexOutOfRange
  else if proof.siblings.length ≠ expectedProofDepth proof.leafCount then
    .error .proofDepthMismatch
  else if recomputeRootFromProof crypto changeHash proof ≠ checkpoint.merkleRoot then
    .error .merkleProofDoesNotMatchCheckpoint
  else .ok ()

def verifyChangeAdmission (expectedGroupId : FolderGroupId) (authorDeviceId : DeviceId)
    (authorKey : VerifyingKey) (changeHash : BitVec 256) (proof : MerkleProof)
    (checkpoint : AuthorizationCheckpoint) (signature : Signature)
    (resolveAuthorityKey : AuthorityKeyFor) : Except CheckpointAdmissionError Unit := do
  verifyCheckpointAuthorization crypto expectedGroupId authorDeviceId authorKey checkpoint
    signature resolveAuthorityKey
  verifyChangeInclusion crypto changeHash proof checkpoint

end Verification

/-! ## Proof-carrying deltas -/

/-- A stored checkpoint with what a receiver needs to check it. -/
structure CheckpointEnvelope where
  checkpoint : AuthorizationCheckpoint
  signature : Signature
  authorSigningPublicKey : VerifyingKey
deriving DecidableEq

/-- Everything a receiver needs to verify one delta offline. -/
structure ProofCarryingDelta where
  delta : NativeDelta
  checkpointHash : BitVec 256
  envelope : CheckpointEnvelope
  proof : MerkleProof
deriving DecidableEq

inductive DeltaProofVerificationError where
  | undecodableDelta
  | groupMismatch (expected actual : FolderGroupId)
  | checkpointHashMismatch
  | checkpointGroupMismatch (delta checkpoint : FolderGroupId)
  | checkpointDeviceMismatch (delta checkpoint : DeviceId)
  | malformedAuthorKey
  | badDeltaSignature
  | notAdmissible (error : CheckpointAdmissionError)
deriving DecidableEq

/-- Verifies a proof-carrying delta in full. The checks rely on those before
them. -/
def verifyProofCarryingDelta (crypto : Crypto) (input : ProofCarryingDelta)
    (expectedGroupId : FolderGroupId) (resolveAuthorityKey : AuthorityKeyFor) :
    Except DeltaProofVerificationError Unit :=
  let delta := input.delta
  let checkpoint := input.envelope.checkpoint
  let authorKey := input.envelope.authorSigningPublicKey
  if !delta.decodable then .error .undecodableDelta
  else if delta.groupId ≠ expectedGroupId then
    .error (.groupMismatch expectedGroupId delta.groupId)
  else if checkpointHash crypto checkpoint input.envelope.signature ≠ input.checkpointHash then
    .error .checkpointHashMismatch
  else if checkpoint.groupId ≠ delta.groupId then
    .error (.checkpointGroupMismatch delta.groupId checkpoint.groupId)
  else if checkpoint.deviceId ≠ delta.author.device then
    .error (.checkpointDeviceMismatch delta.author.device checkpoint.deviceId)
  else if !crypto.validKey authorKey then .error .malformedAuthorKey
  else if !delta.verifySignature crypto authorKey then .error .badDeltaSignature
  else
    match verifyChangeAdmission crypto expectedGroupId delta.author.device authorKey
        (delta.deltaHash crypto).bits input.proof checkpoint input.envelope.signature
        resolveAuthorityKey with
    | .error error => .error (.notAdmissible error)
    | .ok () => .ok ()

theorem verifyProofCarryingDelta_ok {crypto : Crypto} {input : ProofCarryingDelta}
    {groupId : FolderGroupId} {resolveAuthorityKey : AuthorityKeyFor}
    (verified : verifyProofCarryingDelta crypto input groupId resolveAuthorityKey = .ok ()) :
    input.delta.decodable = true ∧ input.delta.groupId = groupId ∧
      crypto.validKey input.envelope.authorSigningPublicKey = true ∧
      input.delta.verifySignature crypto input.envelope.authorSigningPublicKey = true := by
  unfold verifyProofCarryingDelta at verified
  dsimp only at verified
  split at verified
  · cases verified
  rename_i decodes
  split at verified
  · cases verified
  rename_i sameGroup
  split at verified
  · cases verified
  split at verified
  · cases verified
  split at verified
  · cases verified
  split at verified
  · cases verified
  rename_i valid
  split at verified
  · cases verified
  rename_i signed
  exact ⟨by simpa using decodes, not_not.mp sameGroup, by simpa using valid, by simpa using signed⟩

end Yadorilink
