import Yadorilink.Domain.MerkleProofs

/-! The signed policy log of a group, as a device verifies it: every record names the hash of the
one before it and is signed by the authority key in effect, which a record may rotate. -/

namespace Yadorilink.Policy

/-! ## The wire -/

/-- One signed entry as it arrives, no field checked yet. -/
structure PolicyRecord where
  groupId : FolderGroupId
  seq : Nat
  prevRecordHash : List UInt8
  recordHash : List UInt8
  epoch : Nat
  actionType : Nat
  deviceId : DeviceId
  signingKeyFingerprint : List UInt8
  role : Nat
  newAuthorityKey : List UInt8
  signerKeyId : List UInt8
  signature : List UInt8

structure GroupPolicyLog where
  groupId : FolderGroupId
  currentSeq : Nat
  currentEpoch : Nat
  policyHead : List UInt8
  records : List PolicyRecord

def actionRevoke : Nat := 1

def actionRotateAuthority : Nat := 2

/-- The role-less grant was action 0, which is retired. -/
def actionGrantWithRole : Nat := 3

inductive WriterRole where
  | viewer
  | editor
  | owner
  deriving DecidableEq, Repr

def WriterRole.toWire : WriterRole → Nat
  | .viewer => 0
  | .editor => 1
  | .owner => 2

def WriterRole.fromWire : Nat → Except String WriterRole
  | 0 => .ok .viewer
  | 1 => .ok .editor
  | 2 => .ok .owner
  | other => .error ("policy record has invalid writer role " ++ toString other)

def fixed (width : Nat) (bytes : List UInt8) (field : String) :
    Except String (BitVec (8 * width)) :=
  if bytes.length = width then .ok (BitVec.ofNat (8 * width) (beValue bytes))
  else .error (field ++ " is not " ++ toString width ++ " bytes")

def zeroHash : BitVec 256 := 0

/-! ## Verified records -/

inductive PolicyAction where
  | grant (deviceId : DeviceId) (signingKeyFingerprint : BitVec 256) (role : WriterRole)
  | revoke (deviceId : DeviceId)
  | rotateAuthority (newAuthorityKey : VerifyingKey)
  deriving DecidableEq

structure VerifiedPolicyRecord where
  seq : Nat
  prevRecordHash : BitVec 256
  recordHash : BitVec 256
  epoch : Nat
  signerKeyId : BitVec 256
  action : PolicyAction
  signature : Signature
  deriving DecidableEq

def PolicyAction.signingBytes : PolicyAction → List UInt8
  | .grant deviceId signingKeyFingerprint role =>
    UInt8.ofNat actionGrantWithRole :: putStr deviceId ++ putHash signingKeyFingerprint ++
      [UInt8.ofNat role.toWire]
  | .revoke deviceId => UInt8.ofNat actionRevoke :: putStr deviceId
  | .rotateAuthority newAuthorityKey =>
    UInt8.ofNat actionRotateAuthority :: putHash newAuthorityKey

def signingBytes (groupId : FolderGroupId) (record : VerifiedPolicyRecord) : List UInt8 :=
  utf8Bytes "ylpolic1" ++ putStr groupId ++ putU64 record.seq ++ putHash record.prevRecordHash ++
    putU64 record.epoch ++ putHash record.signerKeyId ++ record.action.signingBytes

/-- What the record's hash is taken of: the signed bytes with their signature. -/
def hashedBytes (groupId : FolderGroupId) (record : VerifiedPolicyRecord) : List UInt8 :=
  signingBytes groupId record ++ beBytes 64 record.signature.toNat

def parseAction (record : PolicyRecord) : Except String PolicyAction :=
  if record.actionType = actionGrantWithRole then do
    let signingKeyFingerprint ← fixed 32 record.signingKeyFingerprint "signing_key_fingerprint"
    let role ← WriterRole.fromWire record.role
    .ok (.grant record.deviceId signingKeyFingerprint role)
  else if record.actionType = actionRevoke then .ok (.revoke record.deviceId)
  else if record.actionType = actionRotateAuthority then do
    let newAuthorityKey ← fixed 32 record.newAuthorityKey "new_authority_key"
    .ok (.rotateAuthority newAuthorityKey)
  else .error ("policy record " ++ toString record.seq ++ " has invalid action type")

/-- A record whose fields are all well formed, before its signature and hash are looked at. -/
def parseRecord (crypto : Crypto) (record : PolicyRecord) (authorityKey : VerifyingKey)
    (expectedPrev : BitVec 256) : Except String VerifiedPolicyRecord := do
  let prevRecordHash ← fixed 32 record.prevRecordHash "prev_record_hash"
  if prevRecordHash ≠ expectedPrev then
    .error ("policy record " ++ toString record.seq ++ " has a broken prev hash")
  else do
    let recordHash ← fixed 32 record.recordHash "record_hash"
    let signerKeyId ← fixed 32 record.signerKeyId "signer_key_id"
    if signerKeyId ≠ fingerprintSigningKey crypto authorityKey then
      .error ("policy record " ++ toString record.seq ++ " signer key id mismatch")
    else do
      let signature ← fixed 64 record.signature "signature"
      let action ← parseAction record
      .ok { seq := record.seq, prevRecordHash := prevRecordHash, recordHash := recordHash,
            epoch := record.epoch, signerKeyId := signerKeyId, action := action,
            signature := signature }

def verifyRecord (crypto : Crypto) (record : PolicyRecord) (authorityKey : VerifyingKey)
    (expectedPrev : BitVec 256) : Except String VerifiedPolicyRecord := do
  let verified ← parseRecord crypto record authorityKey expectedPrev
  if !crypto.validKey authorityKey then .error "invalid policy service public key"
  else if !crypto.verify authorityKey (signingBytes record.groupId verified) verified.signature then
    .error ("policy record " ++ toString record.seq ++ " signature verification failed")
  else if crypto.sha256 (hashedBytes record.groupId verified) ≠ verified.recordHash then
    .error ("policy record " ++ toString record.seq ++ " hash mismatch")
  else .ok verified

/-! ## The verified chain -/

/-- `records` are the values of the source's map in the order of their keys, which are their
sequence numbers. `authorityKeyHistory` gives the key that signed the record of a hash. -/
structure GroupPolicyState where
  currentSeq : Nat
  currentEpoch : Nat
  policyHead : BitVec 256
  finalAuthorityKey : VerifyingKey
  authorityGeneration : Nat
  records : List VerifiedPolicyRecord
  authorityKeyHistory : BitVec 256 → Option VerifyingKey

/-- Inserting into a map in key order; a record of the same sequence number is replaced. -/
def insertRecord (record : VerifiedPolicyRecord) :
    List VerifiedPolicyRecord → List VerifiedPolicyRecord
  | [] => [record]
  | head :: rest =>
    if record.seq < head.seq then record :: head :: rest
    else if record.seq = head.seq then record :: rest
    else head :: insertRecord record rest

/-- The running values of the verification loop. -/
structure Progress where
  authorityKey : VerifyingKey
  expectedPrev : BitVec 256
  expectedSeq : Nat
  authorityGeneration : Nat
  records : List VerifiedPolicyRecord
  authorityKeyHistory : BitVec 256 → Option VerifyingKey

/-- A verified record takes effect: it is kept, and a rotation changes the key of the next one. -/
def Progress.keep (progress : Progress) (verified : VerifiedPolicyRecord) : Progress :=
  { authorityKey :=
      match verified.action with
      | .rotateAuthority newAuthorityKey => newAuthorityKey
      | _ => progress.authorityKey
    expectedPrev := verified.recordHash
    expectedSeq := progress.expectedSeq + 1
    authorityGeneration :=
      match verified.action with
      | .rotateAuthority _ => progress.authorityGeneration + 1
      | _ => progress.authorityGeneration
    records := insertRecord verified progress.records
    authorityKeyHistory := fun hash =>
      if hash = verified.recordHash then some progress.authorityKey
      else progress.authorityKeyHistory hash }

def verifyNext (crypto : Crypto) (groupId : FolderGroupId) (progress : Progress)
    (record : PolicyRecord) : Except String Progress :=
  if record.groupId ≠ groupId then
    .error ("policy record group " ++ record.groupId ++ " does not match log group " ++ groupId)
  else if record.seq ≠ progress.expectedSeq then
    .error ("policy sequence gap at " ++ toString record.seq)
  else do
    let verified ← verifyRecord crypto record progress.authorityKey progress.expectedPrev
    .ok (progress.keep verified)

/-- Where the loop starts: behind the base, or at the empty chain. The empty chain's point
resolves to the key the loop starts with unless the base knows it already. -/
def startProgress (serviceKey : VerifyingKey) : Option GroupPolicyState → Progress
  | none =>
    { authorityKey := serviceKey, expectedPrev := zeroHash, expectedSeq := 1,
      authorityGeneration := 0, records := [],
      authorityKeyHistory := fun hash => if hash = zeroHash then some serviceKey else none }
  | some base =>
    { authorityKey := base.finalAuthorityKey, expectedPrev := base.policyHead,
      expectedSeq := base.currentSeq + 1, authorityGeneration := base.authorityGeneration,
      records := base.records
      authorityKeyHistory := fun hash =>
        if hash = zeroHash then
          (base.authorityKeyHistory zeroHash).or (some base.finalAuthorityKey)
        else base.authorityKeyHistory hash }

/-- The chain the loop built, if the log's own coordinates are its tip's. -/
def closeLog (log : GroupPolicyLog) (currentHead : BitVec 256) (progress : Progress) :
    Except String GroupPolicyState :=
  let last := progress.records.getLast?
  let derivedHead := (last.map (·.recordHash)).getD zeroHash
  let derivedSeq := (last.map (·.seq)).getD 0
  let derivedEpoch := (last.map (·.epoch)).getD 0
  if log.currentSeq ≠ derivedSeq then
    .error ("policy current_seq " ++ toString log.currentSeq ++ " does not match derived " ++
      toString derivedSeq)
  else if log.currentEpoch ≠ derivedEpoch then
    .error ("policy current_epoch " ++ toString log.currentEpoch ++ " does not match derived " ++
      toString derivedEpoch)
  else if currentHead ≠ derivedHead then
    .error "policy head does not match the verified chain"
  else
    .ok { currentSeq := derivedSeq, currentEpoch := derivedEpoch, policyHead := derivedHead,
          finalAuthorityKey := progress.authorityKey,
          authorityGeneration := progress.authorityGeneration, records := progress.records,
          authorityKeyHistory := progress.authorityKeyHistory }

/-- The records in the order of their sequence numbers, equal ones as they came. -/
def orderedRecords (log : GroupPolicyLog) : List PolicyRecord :=
  log.records.insertionSort fun first second => first.seq ≤ second.seq

def verifyRecords (crypto : Crypto) (serviceKey : VerifyingKey) (base : Option GroupPolicyState)
    (log : GroupPolicyLog) (currentHead : BitVec 256) : Except String GroupPolicyState := do
  let progress ← (orderedRecords log).foldlM (verifyNext crypto log.groupId)
    (startProgress serviceKey base)
  closeLog log currentHead progress

def verifyGroupPolicyLogWithBase (crypto : Crypto) (servicePublicKey : List UInt8)
    (base : Option GroupPolicyState) (log : GroupPolicyLog) : Except String GroupPolicyState := do
  let serviceKey ← fixed 32 servicePublicKey "service public key"
  let currentHead ← fixed 32 log.policyHead "policy head"
  match base with
  | none => verifyRecords crypto serviceKey none log currentHead
  | some base =>
    if log.records.isEmpty then
      if log.currentSeq = base.currentSeq ∧ log.currentEpoch = base.currentEpoch ∧
          currentHead = base.policyHead then .ok base
      else .error "policy snapshot has no records beyond the retained prefix"
    else verifyRecords crypto serviceKey (some base) log currentHead

def verifyGroupPolicyLog (crypto : Crypto) (servicePublicKey : List UInt8)
    (log : GroupPolicyLog) : Except String GroupPolicyState :=
  verifyGroupPolicyLogWithBase crypto servicePublicKey none log

/-! ## The rollback watermark -/

structure PolicyWatermark where
  highestVerifiedSeq : Nat
  highestVerifiedHead : BitVec 256
  authorityKeyGeneration : Nat
  authorityKeyFingerprint : BitVec 256
  deriving DecidableEq

inductive WatermarkVerdict where
  | accept (watermark : PolicyWatermark)
  | reject (reason : String)
  deriving DecidableEq

namespace GroupPolicyState

def authorityKeyFingerprint (crypto : Crypto) (state : GroupPolicyState) : BitVec 256 :=
  crypto.sha256 (putHash state.finalAuthorityKey)

def toWatermark (crypto : Crypto) (state : GroupPolicyState) : PolicyWatermark :=
  { highestVerifiedSeq := state.currentSeq
    highestVerifiedHead := state.policyHead
    authorityKeyGeneration := state.authorityGeneration
    authorityKeyFingerprint := state.authorityKeyFingerprint crypto }

def recordHeadAt (state : GroupPolicyState) (seq : Nat) : Option (BitVec 256) :=
  (state.records.find? fun record => record.seq = seq).map (·.recordHash)

/-- Whether this snapshot may be adopted over what the device already trusts. -/
def watermarkVerdict (crypto : Crypto) (state : GroupPolicyState) :
    Option PolicyWatermark → WatermarkVerdict
  | none => .accept (state.toWatermark crypto)
  | some stored =>
    if state.currentSeq < stored.highestVerifiedSeq then
      .reject ("policy rollback: snapshot seq " ++ toString state.currentSeq ++
        " is below verified watermark " ++ toString stored.highestVerifiedSeq)
    else if state.authorityGeneration < stored.authorityKeyGeneration then
      .reject ("policy authority rollback: snapshot generation " ++
        toString state.authorityGeneration ++ " is below verified " ++
        toString stored.authorityKeyGeneration)
    else if state.authorityGeneration = stored.authorityKeyGeneration ∧
        stored.authorityKeyFingerprint ≠ state.authorityKeyFingerprint crypto then
      .reject ("policy fork: snapshot at authority generation " ++
        toString state.authorityGeneration ++
        " presents a different authority key than the verified watermark")
    else if state.currentSeq = stored.highestVerifiedSeq then
      if state.policyHead ≠ stored.highestVerifiedHead then
        .reject ("policy fork: snapshot at seq " ++ toString state.currentSeq ++
          " has a different head than the verified watermark")
      else .accept (state.toWatermark crypto)
    else if state.recordHeadAt stored.highestVerifiedSeq = some stored.highestVerifiedHead then
      .accept (state.toWatermark crypto)
    else
      .reject ("policy fork: snapshot seq " ++ toString state.currentSeq ++
        " does not extend verified head at seq " ++ toString stored.highestVerifiedSeq)

end GroupPolicyState

end Yadorilink.Policy
