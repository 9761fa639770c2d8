import Yadorilink.Domain.DeltaCodec
import Yadorilink.Projection.ProviderProjector

/-! Row identities as they are stored. The length of the device name is written in two bytes, so
an identity is read back exactly when its device name is short enough for them. -/

namespace Yadorilink

open List

inductive NativeRowIdentityError where
  | shorterThanHeader
  | deviceTruncated
  | deviceNotUtf8
  | sourceNotUtf8
  | sequenceZero

namespace NativeRowIdentity

/-- `provenance (32) || seq (u64) || incarnation (16) || device length (u16) || device || source
path`; the length is narrowed to its two bytes. -/
def toBytes (identity : NativeRowIdentity) : List UInt8 :=
  let device := utf8Bytes identity.dot.author.device
  beBytes 32 identity.provenance.bits.toNat ++ putU64 identity.dot.seq ++
    beBytes 16 identity.dot.author.incarnation.toNat ++ beBytes 2 (device.length % 2 ^ 16) ++
    device ++ utf8Bytes identity.sourcePath

def fromBytes (bytes : List UInt8) : Except NativeRowIdentityError NativeRowIdentity :=
  let fixed := 32 + 8 + 16 + 2
  if bytes.length < fixed then
    .error .shorterThanHeader
  else
    let provenance := BitVec.ofNat 256 (beValue (bytes.take 32))
    let seq := beValue ((bytes.drop 32).take 8)
    let incarnation := BitVec.ofNat 128 (beValue ((bytes.drop 40).take 16))
    let deviceLen := beValue ((bytes.drop 56).take 2)
    let rest := bytes.drop fixed
    if rest.length < deviceLen then
      .error .deviceTruncated
    else
      match fromUtf8 (rest.take deviceLen) with
      | none => .error .deviceNotUtf8
      | some device =>
        match fromUtf8 (rest.drop deviceLen) with
        | none => .error .sourceNotUtf8
        | some source =>
          if seq = 0 then .error .sequenceZero
          else .ok ⟨source, ⟨⟨device, incarnation⟩, seq⟩, ⟨provenance⟩⟩

theorem bits_beBytes {count : Nat} (value : BitVec (8 * count)) :
    BitVec.ofNat (8 * count) (beValue (beBytes count value.toNat)) = value := by
  rw [beValue_beBytes (by rw [ByteReader.byte_pow]; exact value.isLt), BitVec.ofNat_toNat,
    BitVec.setWidth_eq]

theorem beBytes_bits {count : Nat} {bytes : List UInt8} (length : bytes.length = count) :
    beBytes count (BitVec.ofNat (8 * count) (beValue bytes)).toNat = bytes := by
  have fits := beValue_lt length
  rw [ByteReader.byte_pow] at fits
  rw [BitVec.toNat_ofNat, Nat.mod_eq_of_lt fits, beBytes_beValue length]

/-- What is read of the fixed fields and the names after them. -/
theorem fromBytes_append {provenance seq incarnation width rest : List UInt8}
    (provenanceLength : provenance.length = 32) (seqLength : seq.length = 8)
    (incarnationLength : incarnation.length = 16) (widthLength : width.length = 2)
    {identity : NativeRowIdentity} :
    fromBytes (provenance ++ (seq ++ (incarnation ++ (width ++ rest)))) = .ok identity ↔
      beValue width ≤ rest.length ∧ beValue seq ≠ 0 ∧ ∃ device source,
        fromUtf8 (rest.take (beValue width)) = some device ∧
        fromUtf8 (rest.drop (beValue width)) = some source ∧
        ⟨source, ⟨⟨device, BitVec.ofNat 128 (beValue incarnation)⟩, beValue seq⟩,
          ⟨BitVec.ofNat 256 (beValue provenance)⟩⟩ = identity := by
  have enough : ¬(provenance ++ (seq ++ (incarnation ++ (width ++ rest)))).length <
      32 + 8 + 16 + 2 := by
    simp only [length_append]
    omega
  rw [fromBytes]
  simp only [if_neg enough]
  rw [show (40 : Nat) = 32 + 8 by rfl, show (56 : Nat) = 32 + 8 + 16 by rfl]
  simp only [← drop_drop, drop_left' provenanceLength, take_left' provenanceLength,
    drop_left' seqLength, take_left' seqLength, drop_left' incarnationLength,
    take_left' incarnationLength, drop_left' widthLength, take_left' widthLength]
  by_cases truncated : rest.length < beValue width
  · simp [truncated]
  · cases fromUtf8 (rest.take (beValue width)) with
    | none => simp [truncated]
    | some device =>
      cases fromUtf8 (rest.drop (beValue width)) with
      | none => simp [truncated]
      | some source =>
        by_cases zero : beValue seq = 0
        · simp [truncated, zero]
        · simp [truncated, zero, Nat.le_of_not_lt truncated]

/-- An identity is read off its own bytes and no others, and only with a device name whose length
fits its field. -/
theorem fromBytes_eq_ok_iff {bytes : List UInt8} {identity : NativeRowIdentity} :
    fromBytes bytes = .ok identity ↔
      identity.toBytes = bytes ∧ 1 ≤ identity.dot.seq ∧ identity.dot.seq < 2 ^ 64 ∧
        (utf8Bytes identity.dot.author.device).length < 2 ^ 16 := by
  constructor
  · intro read
    have split : ∀ (bytes : List UInt8) (count : Nat), count ≤ bytes.length →
        ∃ front back, bytes = front ++ back ∧ front.length = count :=
      fun bytes count enough => ⟨bytes.take count, bytes.drop count,
        (take_append_drop count bytes).symm, length_take_of_le enough⟩
    have enough : 58 ≤ bytes.length := by
      by_contra short
      simp [fromBytes, Nat.lt_of_not_le short] at read
    rcases split bytes 32 (by omega) with ⟨provenance, bytes, rfl, provenanceLength⟩
    rcases split bytes 8 (by grind) with ⟨seq, bytes, rfl, seqLength⟩
    rcases split bytes 16 (by grind) with ⟨incarnation, bytes, rfl, incarnationLength⟩
    rcases split bytes 2 (by grind) with ⟨width, rest, rfl, widthLength⟩
    rw [fromBytes_append provenanceLength seqLength incarnationLength widthLength] at read
    rcases read with ⟨within, positive, device, source, deviceRead, sourceRead, rfl⟩
    have deviceLength := length_take_of_le within
    have widthFits : beValue width < 2 ^ 16 := beValue_lt widthLength
    have seqFits := beValue_lt seqLength
    refine ⟨?_, Nat.pos_of_ne_zero positive, seqFits, ?_⟩
    · simp only [toBytes, utf8Bytes_of_fromUtf8 deviceRead, utf8Bytes_of_fromUtf8 sourceRead,
        deviceLength, Nat.mod_eq_of_lt widthFits, putU64, beBytes_beValue seqLength,
        beBytes_beValue widthLength, append_assoc, take_append_drop]
      rw [@beBytes_bits 32 _ provenanceLength, @beBytes_bits 16 _ incarnationLength]
    · rw [utf8Bytes_of_fromUtf8 deviceRead, deviceLength]
      exact widthFits
  · intro stored
    rcases stored with ⟨rfl, positive, seqFits, deviceFits⟩
    have widthRead := @beValue_beBytes _ 2 deviceFits
    have seqRead := @beValue_beBytes _ 8 seqFits
    simp only [toBytes, putU64, append_assoc, Nat.mod_eq_of_lt deviceFits]
    rw [fromBytes_append (beBytes_length 32 _) (beBytes_length 8 _) (beBytes_length 16 _)
      (beBytes_length 2 _), widthRead, seqRead, take_left, drop_left]
    refine ⟨by simp, by omega, _, _, fromUtf8_utf8Bytes _, fromUtf8_utf8Bytes _, ?_⟩
    rw [@bits_beBytes 16, @bits_beBytes 32]

/-- A stored identity is read back exactly when its device name takes fewer than `2 ^ 16` bytes,
and whatever is read is spelt in one way. -/
theorem rowIdentity_survives_storage_iff (identity : NativeRowIdentity) (bytes : List UInt8) :
    (1 ≤ identity.dot.seq → identity.dot.seq < 2 ^ 64 →
      (fromBytes identity.toBytes = .ok identity ↔
        (utf8Bytes identity.dot.author.device).length < 2 ^ 16)) ∧
    (fromBytes bytes = .ok identity → identity.toBytes = bytes) := by
  simp only [fromBytes_eq_ok_iff]
  constructor
  · intro positive fits
    simp only [true_and, positive, fits]
  · intro read
    exact read.1

theorem length_utf8Bytes_replicate (count : Nat) :
    (utf8Bytes (String.ofList (List.replicate count 'a'))).length = count := by
  rw [length_utf8Bytes, PathRules.byteLength, String.toList_ofList, map_replicate,
    sum_replicate, show Char.utf8Size 'a' = 1 by rfl, smul_eq_mul, Nat.mul_one]

/-- A device name of `2 ^ 16` bytes is stored with the length 0. -/
theorem rowIdentity_lost_for_long_device :
    ¬∀ identity : NativeRowIdentity, validatePath identity.sourcePath = .ok () →
      1 ≤ identity.dot.seq → identity.dot.seq < 2 ^ 64 →
        fromBytes identity.toBytes = .ok identity := by
  intro survives
  have read := survives
    ⟨"a", ⟨⟨String.ofList (List.replicate (2 ^ 16) 'a'), 1⟩, 1⟩, ⟨0⟩⟩ (by decide) (by simp) (by simp)
  rw [fromBytes_eq_ok_iff, length_utf8Bytes_replicate] at read
  omega

end NativeRowIdentity

end Yadorilink
