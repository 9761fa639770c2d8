import Yadorilink.Policy.PolicyLog

/-! What a verified policy log is: records numbered from one, each naming the hash of the one
before it. The head of such a chain stands for all of it. -/

namespace Yadorilink.Policy

open Fallible List

def headOf (records : List VerifiedPolicyRecord) : BitVec 256 :=
  (records.getLast?.map (·.recordHash)).getD zeroHash

def PolicyAction.isRotation : PolicyAction → Bool
  | .rotateAuthority _ => true
  | _ => false

def keyBehind (key : VerifyingKey) (record : VerifiedPolicyRecord) : VerifyingKey :=
  match record.action with
  | .rotateAuthority newAuthorityKey => newAuthorityKey
  | _ => key

def rotations (records : List VerifiedPolicyRecord) : Nat :=
  records.countP fun record => record.action.isRotation

/-- Records numbered from one, each bound to the one before it. -/
inductive Linked (crypto : Crypto) (groupId : FolderGroupId) : List VerifiedPolicyRecord → Prop where
  | nil : Linked crypto groupId []
  | snoc {records : List VerifiedPolicyRecord} {record : VerifiedPolicyRecord}
      (linked : Linked crypto groupId records) (seq : record.seq = records.length + 1)
      (prev : record.prevRecordHash = headOf records)
      (hash : record.recordHash = crypto.sha256 (hashedBytes groupId record)) :
      Linked crypto groupId (records ++ [record])

variable {crypto : Crypto} {groupId : FolderGroupId} {records : List VerifiedPolicyRecord}

theorem headOf_append (records : List VerifiedPolicyRecord) (record : VerifiedPolicyRecord) :
    headOf (records ++ [record]) = record.recordHash := by
  rw [headOf, getLast?_concat]
  rfl

theorem rotations_append (records more : List VerifiedPolicyRecord) :
    rotations (records ++ more) = rotations records + rotations more :=
  countP_append

theorem Linked.seq_getElem? (linked : Linked crypto groupId records) {index : Nat}
    {record : VerifiedPolicyRecord} (found : records[index]? = some record) :
    record.seq = index + 1 := by
  induction linked with
  | nil => cases found
  | @snoc records last linked seq prev hash induction =>
    rw [getElem?_append] at found
    split at found
    · exact induction found
    · rename_i beyond
      rw [getElem?_singleton] at found
      split at found
      · cases found
        omega
      · cases found

theorem Linked.seq_le (linked : Linked crypto groupId records) {record : VerifiedPolicyRecord}
    (member : record ∈ records) : record.seq ≤ records.length := by
  obtain ⟨index, found⟩ := mem_iff_getElem?.mp member
  have within := (List.getElem?_eq_some_iff.mp found).1
  have seq := linked.seq_getElem? found
  omega

theorem Linked.of_append {more : List VerifiedPolicyRecord}
    (linked : Linked crypto groupId (records ++ more)) : Linked crypto groupId records := by
  induction more using List.reverseRecOn with
  | nil =>
    rw [append_nil] at linked
    exact linked
  | append_singleton more last induction =>
    rw [← append_assoc] at linked
    generalize whole : records ++ more ++ [last] = all at linked
    cases linked with
    | nil => simp at whole
    | @snoc front record linked seq prev hash =>
      have parts := append_inj_left' whole rfl
      rw [← parts] at linked
      exact induction linked

theorem Linked.last_seq (linked : Linked crypto groupId records) :
    (records.getLast?.map (·.seq)).getD 0 = records.length := by
  cases linked with
  | nil => rfl
  | snoc linked seq prev hash =>
    rw [getLast?_concat, length_append, length_singleton]
    exact seq

theorem insertRecord_last {record : VerifiedPolicyRecord}
    (behind : ∀ earlier ∈ records, earlier.seq < record.seq) :
    insertRecord record records = records ++ [record] := by
  induction records with
  | nil => rfl
  | cons head rest induction =>
    have first := behind head mem_cons_self
    rw [insertRecord, if_neg (by omega), if_neg (by omega),
      induction fun earlier member => behind earlier (.tail head member),
      cons_append]

/-! ## Verification builds chains -/

/-- The values the loop carries are those of the chain it has built. -/
structure Progress.Carries (crypto : Crypto) (groupId : FolderGroupId) (serviceKey : VerifyingKey)
    (progress : Progress) : Prop where
  linked : Linked crypto groupId progress.records
  prev : progress.expectedPrev = headOf progress.records
  seq : progress.expectedSeq = progress.records.length + 1
  key : progress.authorityKey = progress.records.foldl keyBehind serviceKey
  generation : progress.authorityGeneration = rotations progress.records

/-- A state's coordinates are those of its records' chain. -/
structure GroupPolicyState.Chained (crypto : Crypto) (groupId : FolderGroupId)
    (serviceKey : VerifyingKey) (state : GroupPolicyState) : Prop where
  linked : Linked crypto groupId state.records
  seq : state.currentSeq = state.records.length
  head : state.policyHead = headOf state.records
  key : state.finalAuthorityKey = state.records.foldl keyBehind serviceKey
  generation : state.authorityGeneration = rotations state.records

variable {serviceKey : VerifyingKey} {record : PolicyRecord} {verified : VerifiedPolicyRecord}
  {progress : Progress} {state : GroupPolicyState}

theorem parseRecord_ok {key : VerifyingKey} {expected : BitVec 256}
    (parsed : parseRecord crypto record key expected = .ok verified) :
    verified.seq = record.seq ∧ verified.prevRecordHash = expected ∧
      verified.epoch = record.epoch ∧
      fixed 32 record.recordHash "record_hash" = .ok verified.recordHash := by
  rw [parseRecord] at parsed
  obtain ⟨prevRecordHash, _, parsed⟩ := bind_eq_ok_iff.mp parsed
  split at parsed
  · cases parsed
  · rename_i same
    obtain ⟨recordHash, hash, parsed⟩ := bind_eq_ok_iff.mp parsed
    obtain ⟨signerKeyId, _, parsed⟩ := bind_eq_ok_iff.mp parsed
    split at parsed
    · cases parsed
    · obtain ⟨signature, _, parsed⟩ := bind_eq_ok_iff.mp parsed
      obtain ⟨action, _, parsed⟩ := bind_eq_ok_iff.mp parsed
      cases parsed
      exact ⟨rfl, not_not.mp same, rfl, hash⟩

/-- A verified record carries its number, the hash it was expected to build on, and its own. -/
theorem verifyRecord_ok {key : VerifyingKey} {expected : BitVec 256}
    (passed : verifyRecord crypto record key expected = .ok verified) :
    verified.seq = record.seq ∧ verified.prevRecordHash = expected ∧
      verified.recordHash = crypto.sha256 (hashedBytes record.groupId verified) := by
  rw [verifyRecord] at passed
  obtain ⟨parsedRecord, parsed, passed⟩ := bind_eq_ok_iff.mp passed
  rcases parseRecord_ok parsed with ⟨seq, prev, _⟩
  split at passed
  · cases passed
  · split at passed
    · cases passed
    · split at passed
      · cases passed
      · rename_i hashed
        cases passed
        exact ⟨seq, prev, (not_not.mp hashed).symm⟩

section

variable (carries : progress.Carries crypto groupId serviceKey)

include carries

theorem Progress.Carries.keep
    (seq : verified.seq = progress.expectedSeq)
    (prev : verified.prevRecordHash = progress.expectedPrev)
    (hash : verified.recordHash = crypto.sha256 (hashedBytes groupId verified)) :
    (progress.keep verified).Carries crypto groupId serviceKey := by
  have number : verified.seq = progress.records.length + 1 := seq.trans carries.seq
  have records : insertRecord verified progress.records = progress.records ++ [verified] := by
    apply insertRecord_last
    intro earlier member
    have bound := carries.linked.seq_le member
    omega
  exact {
    linked := by
      rw [Progress.keep, records]
      exact .snoc carries.linked number (prev.trans carries.prev) hash
    prev := by
      rw [Progress.keep, records, headOf_append]
    seq := by
      rw [Progress.keep, records, length_append, length_singleton, ← carries.seq]
    key := by
      rw [Progress.keep, records, foldl_append, ← carries.key]
      rfl
    generation := by
      have counted : rotations [verified] = if verified.action.isRotation then 1 else 0 :=
        countP_singleton
      rw [Progress.keep, records, rotations_append, ← carries.generation, counted]
      dsimp only
      cases verified.action <;> rfl }

theorem verifyNext_carries {next : Progress}
    (passed : verifyNext crypto groupId progress record = .ok next) :
    next.Carries crypto groupId serviceKey := by
  rw [verifyNext] at passed
  split at passed
  · cases passed
  · rename_i sameGroup
    split at passed
    · cases passed
    · rename_i inOrder
      obtain ⟨verified, verifies, kept⟩ := bind_eq_ok_iff.mp passed
      rcases verifyRecord_ok verifies with ⟨seq, prev, hash⟩
      rw [not_not.mp sameGroup] at hash
      cases kept
      exact carries.keep (seq.trans (not_not.mp inOrder)) prev hash

theorem foldlM_carries {last : Progress} {records : List PolicyRecord}
    (passed : records.foldlM (verifyNext crypto groupId) progress = .ok last) :
    last.Carries crypto groupId serviceKey := by
  induction records generalizing progress with
  | nil =>
    cases passed
    exact carries
  | cons record rest induction =>
    obtain ⟨next, stepped, later⟩ := bind_eq_ok_iff.mp passed
    exact induction (verifyNext_carries carries stepped) later

theorem closeLog_chained {log : GroupPolicyLog} {currentHead : BitVec 256}
    (closed : closeLog log currentHead progress = .ok state) :
    state.Chained crypto groupId serviceKey := by
  rw [closeLog] at closed
  split at closed
  · cases closed
  · split at closed
    · cases closed
    · split at closed
      · cases closed
      · cases closed
        exact {
          linked := carries.linked
          seq := carries.linked.last_seq
          head := rfl
          key := carries.key
          generation := carries.generation }

end

theorem carries_startProgress (serviceKey : VerifyingKey) :
    (startProgress serviceKey none).Carries crypto groupId serviceKey where
  linked := .nil
  prev := rfl
  seq := rfl
  key := rfl
  generation := rfl

theorem GroupPolicyState.Chained.carries {base : GroupPolicyState}
    (chained : base.Chained crypto groupId serviceKey) (pinned : VerifyingKey) :
    (startProgress pinned (some base)).Carries crypto groupId serviceKey where
  linked := chained.linked
  prev := chained.head
  seq := congrArg (· + 1) chained.seq
  key := chained.key
  generation := chained.generation

theorem verifyRecords_chained {base : Option GroupPolicyState} {log : GroupPolicyLog}
    {currentHead : BitVec 256} (sameGroup : log.groupId = groupId)
    (from_ : ∀ earlier, base = some earlier → earlier.Chained crypto groupId serviceKey)
    (passed : verifyRecords crypto serviceKey base log currentHead = .ok state) :
    state.Chained crypto groupId serviceKey := by
  rw [verifyRecords, sameGroup] at passed
  obtain ⟨progress, folded, closed⟩ := bind_eq_ok_iff.mp passed
  apply closeLog_chained (foldlM_carries _ folded) closed
  cases base with
  | none => exact carries_startProgress serviceKey
  | some base => exact (from_ base rfl).carries serviceKey

/-- The snapshots of one group that a device can hold: verified from scratch, or on top of one
that was, under the same pinned key. -/
inductive Verified (crypto : Crypto) (servicePublicKey : List UInt8) (groupId : FolderGroupId) :
    GroupPolicyState → Prop where
  | fresh {log : GroupPolicyLog} {state : GroupPolicyState} (ofGroup : log.groupId = groupId)
      (passed : verifyGroupPolicyLogWithBase crypto servicePublicKey none log = .ok state) :
      Verified crypto servicePublicKey groupId state
  | extended {base : GroupPolicyState} {log : GroupPolicyLog} {state : GroupPolicyState}
      (earlier : Verified crypto servicePublicKey groupId base) (ofGroup : log.groupId = groupId)
      (passed : verifyGroupPolicyLogWithBase crypto servicePublicKey (some base) log = .ok state) :
      Verified crypto servicePublicKey groupId state

theorem Verified.chained {servicePublicKey : List UInt8}
    (verified : Verified crypto servicePublicKey groupId state) :
    ∃ serviceKey, fixed 32 servicePublicKey "service public key" = .ok serviceKey ∧
      state.Chained crypto groupId serviceKey := by
  induction verified with
  | fresh ofGroup passed =>
    rw [verifyGroupPolicyLogWithBase] at passed
    obtain ⟨serviceKey, pinned, passed⟩ := bind_eq_ok_iff.mp passed
    obtain ⟨currentHead, _, passed⟩ := bind_eq_ok_iff.mp passed
    exact ⟨serviceKey, pinned, verifyRecords_chained ofGroup (fun _ same => by cases same) passed⟩
  | @extended base log state earlier ofGroup passed induction =>
    obtain ⟨serviceKey, pinned, chained⟩ := induction
    refine ⟨serviceKey, pinned, ?_⟩
    rw [verifyGroupPolicyLogWithBase] at passed
    obtain ⟨sameKey, samePin, passed⟩ := bind_eq_ok_iff.mp passed
    cases pinned.symm.trans samePin
    obtain ⟨currentHead, _, passed⟩ := bind_eq_ok_iff.mp passed
    dsimp only at passed
    split at passed
    · split at passed
      · cases passed
        exact chained
      · cases passed
    · apply verifyRecords_chained ofGroup _ passed
      intro other same
      cases same
      exact chained

end Yadorilink.Policy
