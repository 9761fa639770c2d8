import Yadorilink.Policy.Watermarks

/-! Verifying a policy log in two parts. What the loop carries from one record to the next is what
a verified snapshot keeps, so the loop may stop behind any record and be taken up again. -/

namespace Yadorilink.Policy

open Fallible List

variable {crypto : Crypto} {groupId : FolderGroupId} {serviceKey : VerifyingKey}
  {record : PolicyRecord} {progress : Progress} {records : List PolicyRecord} {log : GroupPolicyLog}

/-! ## One record -/

theorem fixed_eq_ok_iff {width : Nat} {bytes : List UInt8} {field : String}
    {value : BitVec (8 * width)} :
    fixed width bytes field = .ok value ↔
      bytes.length = width ∧ BitVec.ofNat (8 * width) (beValue bytes) = value := by
  rw [fixed]
  split
  · rename_i sized
    rw [Except.ok.injEq]
    exact ⟨fun same => ⟨sized, same⟩, fun both => both.2⟩
  · rename_i missized
    constructor
    · intro failed
      cases failed
    · intro both
      exact absurd both.1 missized

theorem verifyRecord_parsed {key : VerifyingKey} {expected : BitVec 256}
    {verified : VerifiedPolicyRecord}
    (passed : verifyRecord crypto record key expected = .ok verified) :
    parseRecord crypto record key expected = .ok verified ∧ crypto.validKey key = true := by
  rw [verifyRecord] at passed
  obtain ⟨parsedRecord, parsed, passed⟩ := bind_eq_ok_iff.mp passed
  split at passed
  · cases passed
  · rename_i valid
    split at passed
    · cases passed
    · split at passed
      · cases passed
      · cases passed
        exact ⟨parsed, by simpa using valid⟩

theorem verifyNext_ok {next : Progress}
    (passed : verifyNext crypto groupId progress record = .ok next) :
    record.seq = progress.expectedSeq ∧ ∃ verified,
      verifyRecord crypto record progress.authorityKey progress.expectedPrev = .ok verified ∧
        next = progress.keep verified := by
  rw [verifyNext] at passed
  split at passed
  · cases passed
  · split at passed
    · cases passed
    · rename_i inOrder
      obtain ⟨verified, verifies, kept⟩ := bind_eq_ok_iff.mp passed
      cases kept
      exact ⟨not_not.mp inOrder, verified, verifies, rfl⟩

/-! ## The records of a log -/

theorem pairwise_of_foldlM {last : Progress}
    (passed : records.foldlM (verifyNext crypto groupId) progress = .ok last) :
    (∀ record ∈ records, progress.expectedSeq ≤ record.seq) ∧
      records.Pairwise fun first second => first.seq < second.seq := by
  induction records generalizing progress with
  | nil => simp
  | cons record rest induction =>
    obtain ⟨next, stepped, later⟩ := bind_eq_ok_iff.mp passed
    rcases verifyNext_ok stepped with ⟨seq, verified, _, kept⟩
    rcases induction later with ⟨behind, ordered⟩
    have number : next.expectedSeq = progress.expectedSeq + 1 := by
      rw [kept]
      rfl
    refine ⟨?_, pairwise_cons.mpr ⟨?_, ordered⟩⟩
    · intro other member
      rcases mem_cons.mp member with same | among
      · rw [same, seq]
      · have bound := behind other among
        omega
    · intro other among
      have bound := behind other among
      omega

theorem pairwise_orderedRecords (log : GroupPolicyLog) :
    (orderedRecords log).Pairwise fun first second => first.seq ≤ second.seq := by
  have total : Std.Total fun first second : PolicyRecord => first.seq ≤ second.seq :=
    ⟨fun first second => Nat.le_total first.seq second.seq⟩
  have trans : IsTrans PolicyRecord fun first second => first.seq ≤ second.seq :=
    ⟨fun _ _ _ => Nat.le_trans⟩
  exact pairwise_insertionSort _ log.records

theorem perm_orderedRecords (log : GroupPolicyLog) : (orderedRecords log).Perm log.records :=
  perm_insertionSort _ log.records

theorem orderedRecords_eq (same : log.records.Perm records)
    (ordered : records.Pairwise fun first second => first.seq < second.seq) :
    orderedRecords log = records := by
  have numbers : (records.map (·.seq)).Nodup :=
    pairwise_map.mpr (ordered.imp Nat.ne_of_lt)
  apply List.Perm.eq_of_pairwise _ (pairwise_orderedRecords log) (ordered.imp Nat.le_of_lt)
    ((perm_orderedRecords log).trans same)
  intro first second firstIn secondIn le ge
  exact inj_on_of_nodup_map numbers
    (same.mem_iff.mp ((perm_orderedRecords log).mem_iff.mp firstIn)) secondIn
    (Nat.le_antisymm le ge)

/-! ## Where the loop stops -/

theorem history_of_foldlM {last : Progress}
    (known : (progress.authorityKeyHistory zeroHash).isSome = true)
    (passed : records.foldlM (verifyNext crypto groupId) progress = .ok last) :
    (last.authorityKeyHistory zeroHash).isSome = true := by
  induction records generalizing progress with
  | nil =>
    cases passed
    exact known
  | cons record rest induction =>
    obtain ⟨next, stepped, later⟩ := bind_eq_ok_iff.mp passed
    rcases verifyNext_ok stepped with ⟨_, verified, _, kept⟩
    apply induction _ later
    rw [kept, Progress.keep]
    dsimp only
    split
    · rfl
    · exact known

theorem history_startProgress (serviceKey : VerifyingKey) (base : Option GroupPolicyState) :
    ((startProgress serviceKey base).authorityKeyHistory zeroHash).isSome = true := by
  cases base with
  | none => rfl
  | some base =>
    rw [startProgress]
    simp

theorem startProgress_closeLog {currentHead : BitVec 256} {base : GroupPolicyState}
    (carries : progress.Carries crypto groupId serviceKey)
    (known : (progress.authorityKeyHistory zeroHash).isSome = true)
    (closed : closeLog log currentHead progress = .ok base) (otherKey : VerifyingKey) :
    startProgress otherKey (some base) = progress := by
  rw [closeLog] at closed
  split at closed
  · cases closed
  · split at closed
    · cases closed
    · split at closed
      · cases closed
      · cases closed
        have history : (fun hash => if hash = zeroHash then
            (progress.authorityKeyHistory zeroHash).or (some progress.authorityKey)
          else progress.authorityKeyHistory hash) = progress.authorityKeyHistory := by
          funext hash
          split
          · rename_i zero
            rcases Option.isSome_iff_exists.mp known with ⟨key, found⟩
            rw [zero, found, Option.some_or]
          · rfl
        have prev : (progress.records.getLast?.map (·.recordHash)).getD zeroHash =
            progress.expectedPrev := carries.prev.symm
        have seq : (progress.records.getLast?.map (·.seq)).getD 0 + 1 = progress.expectedSeq := by
          rw [carries.linked.last_seq, carries.seq]
        rw [startProgress]
        dsimp only
        rw [history, prev, seq]

/-! ## A log that ends in its own last record -/

/-- The log's coordinates are those of its last record, or of the empty chain. -/
structure GroupPolicyLog.NamesTip (log : GroupPolicyLog) : Prop where
  seq : log.currentSeq = ((orderedRecords log).getLast?.map (·.seq)).getD 0
  epoch : log.currentEpoch = ((orderedRecords log).getLast?.map (·.epoch)).getD 0
  head : log.policyHead = ((orderedRecords log).getLast?.map (·.recordHash)).getD (putHash zeroHash)

theorem tip_of_foldlM {last : Progress} (carries : progress.Carries crypto groupId serviceKey)
    (passed : (records ++ [record]).foldlM (verifyNext crypto groupId) progress = .ok last) :
    ∃ verified, last.records.getLast? = some verified ∧ verified.seq = record.seq ∧
      verified.epoch = record.epoch ∧
        fixed 32 record.recordHash "record_hash" = .ok verified.recordHash := by
  rw [foldlM_append] at passed
  obtain ⟨middle, front, passed⟩ := bind_eq_ok_iff.mp passed
  obtain ⟨next, stepped, ended⟩ := bind_eq_ok_iff.mp passed
  cases ended
  have before := foldlM_carries carries front
  rcases verifyNext_ok stepped with ⟨seq, verified, verifies, kept⟩
  rcases verifyRecord_ok verifies with ⟨number, _, _⟩
  rcases parseRecord_ok (verifyRecord_parsed verifies).1 with ⟨_, _, epoch, hash⟩
  refine ⟨verified, ?_, number, epoch, hash⟩
  rw [kept, Progress.keep]
  dsimp only
  rw [insertRecord_last, getLast?_concat]
  intro earlier member
  have bound := before.linked.seq_le member
  have expected := before.seq
  omega

theorem fixed_putHash (hash : BitVec 256) (field : String) :
    fixed 32 (putHash hash) field = .ok hash := by
  rw [fixed_eq_ok_iff]
  refine ⟨beBytes_length 32 hash.toNat, ?_⟩
  rw [putHash, beValue_beBytes (by simpa using hash.isLt)]
  simp

theorem exists_closeLog {currentHead : BitVec 256}
    (seq : log.currentSeq = (progress.records.getLast?.map (·.seq)).getD 0)
    (epoch : log.currentEpoch = (progress.records.getLast?.map (·.epoch)).getD 0)
    (head : currentHead = (progress.records.getLast?.map (·.recordHash)).getD zeroHash) :
    ∃ base, closeLog log currentHead progress = .ok base := by
  rw [closeLog]
  rw [if_neg (not_not.mpr seq), if_neg (not_not.mpr epoch), if_neg (not_not.mpr head)]
  exact ⟨_, rfl⟩

theorem closeLog_of_namesTip (tip : log.NamesTip)
    (passed : (orderedRecords log).foldlM (verifyNext crypto groupId)
      (startProgress serviceKey none) = .ok progress) :
    ∃ currentHead base, fixed 32 log.policyHead "policy head" = .ok currentHead ∧
      closeLog log currentHead progress = .ok base := by
  rcases eq_nil_or_concat (orderedRecords log) with empty | some
  · have seq := tip.seq
    have epoch := tip.epoch
    have head := tip.head
    rw [empty] at passed seq epoch head
    cases passed
    have closes : ∃ base, closeLog log zeroHash (startProgress serviceKey none) = .ok base :=
      exists_closeLog seq epoch rfl
    rcases closes with ⟨base, closed⟩
    refine ⟨zeroHash, base, ?_, closed⟩
    rw [head]
    exact fixed_putHash zeroHash _
  · rcases some with ⟨front, record, split⟩
    rw [concat_eq_append] at split
    have seq := tip.seq
    have epoch := tip.epoch
    have head := tip.head
    rw [split, getLast?_concat] at seq epoch head
    rw [split] at passed
    rcases tip_of_foldlM (carries_startProgress serviceKey) passed with
      ⟨verified, last, sameSeq, sameEpoch, hash⟩
    have closes : ∃ base, closeLog log verified.recordHash progress = .ok base := by
      apply exists_closeLog
      · rw [last, seq]
        exact sameSeq.symm
      · rw [last, epoch]
        exact sameEpoch.symm
      · rw [last]
        rfl
    rcases closes with ⟨base, closed⟩
    refine ⟨verified.recordHash, base, ?_, closed⟩
    rw [head]
    exact fixed_eq_ok_iff.mpr (fixed_eq_ok_iff.mp hash)

/-! ## The two ways of verifying a log -/

/-- A log cut in two: the front holds some of its records and the back the others, under the
coordinates of the whole. -/
structure GroupPolicyLog.CutInto (whole front back : GroupPolicyLog) : Prop where
  frontGroup : front.groupId = whole.groupId
  backGroup : back.groupId = whole.groupId
  records : whole.records.Perm (front.records ++ back.records)
  rest : back.records ≠ []
  seq : back.currentSeq = whole.currentSeq
  epoch : back.currentEpoch = whole.currentEpoch
  head : back.policyHead = whole.policyHead

theorem verifyWithBase_ok_iff {servicePublicKey : List UInt8} {base : Option GroupPolicyState}
    {state : GroupPolicyState} (loops : base = none ∨ log.records ≠ []) :
    verifyGroupPolicyLogWithBase crypto servicePublicKey base log = .ok state ↔
      ∃ serviceKey currentHead progress,
        fixed 32 servicePublicKey "service public key" = .ok serviceKey ∧
        fixed 32 log.policyHead "policy head" = .ok currentHead ∧
        (orderedRecords log).foldlM (verifyNext crypto log.groupId)
          (startProgress serviceKey base) = .ok progress ∧
        closeLog log currentHead progress = .ok state := by
  have unfolded : verifyGroupPolicyLogWithBase crypto servicePublicKey base log = (do
      let serviceKey ← fixed 32 servicePublicKey "service public key"
      let currentHead ← fixed 32 log.policyHead "policy head"
      verifyRecords crypto serviceKey base log currentHead) := by
    rw [verifyGroupPolicyLogWithBase]
    cases base with
    | none => rfl
    | some base =>
      have some : log.records.isEmpty = false := by
        rcases loops with absent | some
        · cases absent
        · exact isEmpty_eq_false_iff.mpr some
      simp only [some, Bool.false_eq_true, if_false]
  rw [unfolded]
  constructor
  · intro passed
    obtain ⟨serviceKey, pinned, passed⟩ := bind_eq_ok_iff.mp passed
    obtain ⟨currentHead, head, passed⟩ := bind_eq_ok_iff.mp passed
    obtain ⟨progress, folded, closed⟩ := bind_eq_ok_iff.mp passed
    exact ⟨serviceKey, currentHead, progress, pinned, head, folded, closed⟩
  · intro parts
    obtain ⟨serviceKey, currentHead, progress, pinned, head, folded, closed⟩ := parts
    exact bind_eq_ok_iff.mpr ⟨serviceKey, pinned, bind_eq_ok_iff.mpr ⟨currentHead, head,
      bind_eq_ok_iff.mpr ⟨progress, folded, closed⟩⟩⟩

variable {whole front back : GroupPolicyLog}

section

variable (cut : whole.CutInto front back)

include cut

theorem GroupPolicyLog.CutInto.closeLog_eq
    (currentHead : BitVec 256) (progress : Progress) :
    closeLog back currentHead progress = closeLog whole currentHead progress := by
  rw [closeLog, closeLog, cut.seq, cut.epoch]

theorem GroupPolicyLog.CutInto.ordered_perm :
    whole.records.Perm (orderedRecords front ++ orderedRecords back) :=
  cut.records.trans ((perm_orderedRecords front).symm.append (perm_orderedRecords back).symm)

theorem GroupPolicyLog.CutInto.resumed_iff {servicePublicKey : List UInt8}
    {base state : GroupPolicyState}
    (verified : verifyGroupPolicyLog crypto servicePublicKey front = .ok base) :
    verifyGroupPolicyLogWithBase crypto servicePublicKey (some base) back = .ok state ↔
      ∃ serviceKey currentHead progress,
        fixed 32 servicePublicKey "service public key" = .ok serviceKey ∧
        fixed 32 whole.policyHead "policy head" = .ok currentHead ∧
        (orderedRecords front ++ orderedRecords back).foldlM (verifyNext crypto whole.groupId)
          (startProgress serviceKey none) = .ok progress ∧
        closeLog whole currentHead progress = .ok state := by
  obtain ⟨serviceKey, frontHead, middle, pinned, _, toMiddle, closed⟩ :=
    (verifyWithBase_ok_iff (.inl rfl)).mp verified
  have carries := foldlM_carries (carries_startProgress serviceKey) toMiddle
  have resumed : ∀ otherKey, startProgress otherKey (some base) = middle :=
    startProgress_closeLog carries (history_of_foldlM (history_startProgress _ _) toMiddle) closed
  rw [cut.frontGroup] at toMiddle
  rw [verifyWithBase_ok_iff (.inr cut.rest), cut.backGroup, cut.head]
  constructor
  · intro parts
    obtain ⟨otherKey, currentHead, progress, samePin, head, folded, closes⟩ := parts
    cases pinned.symm.trans samePin
    rw [resumed] at folded
    rw [cut.closeLog_eq] at closes
    refine ⟨serviceKey, currentHead, progress, pinned, head, ?_, closes⟩
    rw [foldlM_append, toMiddle]
    exact folded
  · intro parts
    obtain ⟨otherKey, currentHead, progress, samePin, head, folded, closes⟩ := parts
    cases pinned.symm.trans samePin
    rw [foldlM_append, toMiddle] at folded
    rw [← cut.closeLog_eq] at closes
    refine ⟨serviceKey, currentHead, progress, pinned, head, ?_, closes⟩
    rw [resumed]
    exact folded

/-- Where the numbers of the back are behind those of the front, an accepted log is worked through
front first. -/
theorem GroupPolicyLog.CutInto.orderedRecords_append
    (behind : ∀ first ∈ front.records, ∀ second ∈ back.records, first.seq < second.seq)
    (distinct : (orderedRecords whole).Pairwise fun first second => first.seq < second.seq) :
    orderedRecords whole = orderedRecords front ++ orderedRecords back := by
  have sorted : (orderedRecords front ++ orderedRecords back).Pairwise
      fun first second => first.seq ≤ second.seq := by
    refine pairwise_append.mpr
      ⟨pairwise_orderedRecords front, pairwise_orderedRecords back, ?_⟩
    intro first inFront second inBack
    exact Nat.le_of_lt (behind first ((perm_orderedRecords front).mem_iff.mp inFront) second
      ((perm_orderedRecords back).mem_iff.mp inBack))
  have numbers : ((orderedRecords front ++ orderedRecords back).map (·.seq)).Nodup :=
    (((perm_orderedRecords whole).trans cut.ordered_perm).map (·.seq)).nodup_iff.mp
      (pairwise_map.mpr (distinct.imp Nat.ne_of_lt))
  apply orderedRecords_eq cut.ordered_perm
  exact (sorted.and (pairwise_map.mp numbers)).imp fun both => Nat.lt_of_le_of_ne both.1 both.2

end

/-- Verifying a log in two parts is verifying it at once. Cut behind any of its records, an
accepted log has an accepted front, named by its own last record, and the back on top of it gives
the snapshot of the whole; and what is accepted in two parts is accepted as a whole. -/
theorem incremental_verification_eq_full (crypto : Crypto) (servicePublicKey : List UInt8)
    (whole front back : GroupPolicyLog) (cut : whole.CutInto front back) :
    ((∀ first ∈ front.records, ∀ second ∈ back.records, first.seq < second.seq) →
      front.NamesTip → ∀ state, verifyGroupPolicyLog crypto servicePublicKey whole = .ok state →
        ∃ base, verifyGroupPolicyLog crypto servicePublicKey front = .ok base ∧
          verifyGroupPolicyLogWithBase crypto servicePublicKey (some base) back = .ok state) ∧
    ∀ base state, verifyGroupPolicyLog crypto servicePublicKey front = .ok base →
      verifyGroupPolicyLogWithBase crypto servicePublicKey (some base) back = .ok state →
      verifyGroupPolicyLog crypto servicePublicKey whole = .ok state := by
  refine ⟨?_, ?_⟩
  · intro behind tip state verified
    obtain ⟨serviceKey, currentHead, progress, pinned, head, folded, closed⟩ :=
      (verifyWithBase_ok_iff (.inl rfl)).mp verified
    rw [cut.orderedRecords_append behind (pairwise_of_foldlM folded).2] at folded
    have parts := folded
    rw [List.foldlM_append, ← cut.frontGroup] at parts
    obtain ⟨middle, toMiddle, _⟩ := bind_eq_ok_iff.mp parts
    rcases closeLog_of_namesTip tip toMiddle with ⟨frontHead, base, named, closes⟩
    have accepted : verifyGroupPolicyLog crypto servicePublicKey front = .ok base :=
      (verifyWithBase_ok_iff (.inl rfl)).mpr
        ⟨serviceKey, frontHead, middle, pinned, named, toMiddle, closes⟩
    exact ⟨base, accepted, (cut.resumed_iff accepted).mpr
      ⟨serviceKey, currentHead, progress, pinned, head, folded, closed⟩⟩
  · intro base state verified resumed
    obtain ⟨serviceKey, currentHead, progress, pinned, head, folded, closed⟩ :=
      (cut.resumed_iff verified).mp resumed
    rw [← orderedRecords_eq cut.ordered_perm (pairwise_of_foldlM folded).2] at folded
    exact (verifyWithBase_ok_iff (.inl rfl)).mpr
      ⟨serviceKey, currentHead, progress, pinned, head, folded, closed⟩

set_option maxRecDepth 8192 in
open SampleLog in
/-- The log of two records, verified record by record. -/
theorem two_records_one_by_one :
    ∃ base, verifyGroupPolicyLog Crypto.sample (putHash key) short = .ok base ∧
      verifyGroupPolicyLogWithBase Crypto.sample (putHash key) (some base)
        { long with records := [wire second "e"] } = .ok (snapshot long) := by
  apply (incremental_verification_eq_full Crypto.sample (putHash key) long short
    { long with records := [wire second "e"] } ?_).1
  · intro first inFront second inBack
    cases List.mem_singleton.mp inFront
    cases List.mem_singleton.mp inBack
    decide
  · exact ⟨rfl, rfl, rfl⟩
  · exact verify_snapshot (by decide)
  · exact {
      frontGroup := rfl
      backGroup := rfl
      records := List.Perm.swap _ _ []
      rest := List.cons_ne_nil _ _
      seq := rfl
      epoch := rfl
      head := rfl }

end Yadorilink.Policy
