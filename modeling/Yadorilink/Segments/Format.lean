import Yadorilink.Segments.VectoredWrites

/-! The on-disk shape of a segment file: a file header, then self-describing records, each a
header, the payload and a checksum of the payload. -/

namespace Yadorilink.Segments

open FileBytes List

/-! ## Little-endian numbers -/

/-- The `count` low bytes of a number, least significant first. -/
def leBytes : Nat → Nat → Bytes
  | 0, _ => []
  | count + 1, value => UInt8.ofNat value :: leBytes count (value / 256)

def leValue : Bytes → Nat
  | [] => 0
  | byte :: bytes => byte.toNat + 256 * leValue bytes

@[simp] theorem length_leBytes (count value : Nat) : (leBytes count value).length = count := by
  induction count generalizing value with
  | zero => rfl
  | succ count induction => rw [leBytes, length_cons, induction]

theorem leValue_leBytes (count value : Nat) :
    leValue (leBytes count value) = value % 256 ^ count := by
  induction count generalizing value with
  | zero => rw [leBytes, leValue, Nat.pow_zero, Nat.mod_one]
  | succ count induction =>
    rw [leBytes, leValue, induction, Nat.pow_succ', Nat.mod_mul, UInt8.toNat_ofNat']

theorem leValue_leBytes_of_lt {count value : Nat} (fits : value < 256 ^ count) :
    leValue (leBytes count value) = value := by
  rw [leValue_leBytes, Nat.mod_eq_of_lt fits]

/-! ## Checksums -/

def crcShift (value : UInt32) : UInt32 :=
  if value &&& 1 = 1 then (0xEDB88320 : UInt32) ^^^ (value >>> 1) else value >>> 1

def crcTable (index : UInt32) : UInt32 :=
  Nat.repeat crcShift 8 index

def crc32 (data : Bytes) : UInt32 :=
  ~~~ data.foldl
    (fun crc byte => crcTable ((crc ^^^ byte.toUInt32) &&& 0xFF) ^^^ (crc >>> 8)) 0xFFFFFFFF

/-! ## Headers -/

def segmentMagic : Nat := 0x594c5347

def recordMagic : Nat := 0x594c4252

def segmentFormatVersion : Nat := 1

def segmentHeaderLen : Nat := 16

def recordHeaderLen : Nat := 48

def recordTrailerLen : Nat := 4

def recordOverhead : Nat := recordHeaderLen + recordTrailerLen

def rawHashLen : Nat := 32

/-- A content hash as its raw bytes. -/
structure RawHash where
  bytes : Bytes
  sized : bytes.length = rawHashLen
  deriving DecidableEq

def recordLen (payloadLen : Nat) : Nat := recordOverhead + payloadLen

def encodeSegmentHeader (segmentId : Nat) : Bytes :=
  leBytes 4 segmentMagic ++ leBytes 2 segmentFormatVersion ++ leBytes 2 0 ++ leBytes 8 segmentId

def frameFields (hash : RawHash) (payloadLen : Nat) : Bytes :=
  leBytes 4 recordMagic ++ (leBytes 2 segmentFormatVersion ++ (leBytes 2 0 ++ (hash.bytes ++
    leBytes 4 payloadLen)))

def frameHeader (hash : RawHash) (payloadLen : Nat) : Bytes :=
  frameFields hash payloadLen ++ leBytes 4 (crc32 (frameFields hash payloadLen)).toNat

def frameTrailer (payload : Bytes) : Bytes :=
  leBytes 4 (crc32 payload).toNat

/-- A record as the three pieces it is written in. -/
structure RecordFrame where
  hash : RawHash
  payload : Bytes
  deriving DecidableEq

def RecordFrame.pieces (frame : RecordFrame) : List Bytes :=
  [frameHeader frame.hash frame.payload.length, frame.payload, frameTrailer frame.payload]

def RecordFrame.bytes (frame : RecordFrame) : Bytes := frame.pieces.flatten

def RecordFrame.len (frame : RecordFrame) : Nat :=
  recordHeaderLen + frame.payload.length + recordTrailerLen

structure RecordHeader where
  hash : RawHash
  payloadLen : Nat
  deriving DecidableEq

def RecordHeader.recordLen (header : RecordHeader) : Nat :=
  Segments.recordLen header.payloadLen

inductive HeaderReject where
  | truncated
  | badMagic
  | badChecksum
  | lengthOverrunsFile
  deriving DecidableEq, Repr

/-- Reads the record header at the start of `bytes`, with `remaining` bytes left in the file. -/
def decodeRecordHeader (bytes : Bytes) (remaining : Nat) : Except HeaderReject RecordHeader :=
  if sized : bytes.length < recordHeaderLen ∨ remaining < recordHeaderLen then .error .truncated
  else if leValue (bytes.take 4) ≠ recordMagic then .error .badMagic
  else if (crc32 (bytes.take (recordHeaderLen - 4))).toNat ≠
      leValue ((bytes.drop (recordHeaderLen - 4)).take 4) then .error .badChecksum
  else
    let header : RecordHeader :=
      { hash := ⟨(bytes.drop 8).take rawHashLen, by
          have long : recordHeaderLen ≤ bytes.length := Nat.le_of_not_lt fun short =>
            sized (.inl short)
          rw [recordHeaderLen] at long
          rw [List.length_take, List.length_drop, rawHashLen]
          omega⟩
        payloadLen := leValue ((bytes.drop 40).take 4) }
    if remaining < header.recordLen then .error .lengthOverrunsFile else .ok header

def payloadChecksumMatches (payload trailer : Bytes) : Bool :=
  trailer.length = recordTrailerLen && (crc32 payload).toNat = leValue trailer

/-! ## Reading a record back -/

def u64Limit : Nat := 2 ^ 64 - 1

/-- Where the index says a block is. -/
structure BlockLocation where
  segmentId : Nat
  recordOffset : Nat
  length : Nat
  deriving DecidableEq, Repr

def BlockLocation.payloadOffset (location : BlockLocation) : Nat :=
  location.recordOffset + recordHeaderLen

/-- Why a record could not be read back. A failing read call is not among them: it says nothing
about the record. -/
inductive RecordReadError where
  | segmentUnavailable
  | framingInvalid (detail : String)
  | hashMismatch
  | payloadCorrupt
  deriving DecidableEq, Repr

def readExactAt (file : Bytes) (offset count : Nat) : Except RecordReadError Bytes :=
  let read := readAt file offset count
  if read.length = count then .ok read else .error .segmentUnavailable

def rejectedHeader : HeaderReject → RecordReadError
  | .truncated | .lengthOverrunsFile => .framingInvalid "record header is truncated"
  | .badMagic => .framingInvalid "no record header at the indexed offset"
  | .badChecksum => .framingInvalid "record header checksum mismatch"

/-- Reads one record's payload and checks the framing around it against the index. -/
def readRecordPayload (file : Bytes) (location : BlockLocation) (expectedHash : RawHash) :
    Except RecordReadError Bytes := do
  let headerBytes ← readExactAt file location.recordOffset recordHeaderLen
  match decodeRecordHeader headerBytes u64Limit with
  | .error reject => .error (rejectedHeader reject)
  | .ok header =>
    if header.hash ≠ expectedHash then .error .hashMismatch
    else if header.payloadLen ≠ location.length then
      .error (.framingInvalid ("record declares " ++ toString header.payloadLen ++
        " payload bytes where the index recorded " ++ toString location.length))
    else
      let payload ← readExactAt file location.payloadOffset header.payloadLen
      let trailer ← readExactAt file (location.payloadOffset + header.payloadLen)
        recordTrailerLen
      if payloadChecksumMatches payload trailer then .ok payload else .error .payloadCorrupt

/-! ## Records read back as they were written -/

theorem length_frameFields (hash : RawHash) (payloadLen : Nat) :
    (frameFields hash payloadLen).length = recordHeaderLen - 4 := by
  simp only [frameFields, length_append, length_leBytes, hash.sized, rawHashLen,
    recordHeaderLen]

theorem length_frameHeader (hash : RawHash) (payloadLen : Nat) :
    (frameHeader hash payloadLen).length = recordHeaderLen := by
  rw [frameHeader, length_append, length_frameFields, length_leBytes, recordHeaderLen]

theorem RecordFrame.bytes_eq (frame : RecordFrame) :
    frame.bytes = frameHeader frame.hash frame.payload.length ++
      (frame.payload ++ frameTrailer frame.payload) := by
  rw [RecordFrame.bytes, RecordFrame.pieces, flatten_cons, flatten_cons,
    flatten_singleton]

theorem RecordFrame.length_bytes (frame : RecordFrame) : frame.bytes.length = frame.len := by
  rw [frame.bytes_eq, length_append, length_append, length_frameHeader, frameTrailer,
    length_leBytes, RecordFrame.len, recordTrailerLen]
  omega

theorem RecordFrame.len_eq (frame : RecordFrame) : frame.len = recordLen frame.payload.length := by
  rw [RecordFrame.len, recordLen, recordOverhead]
  omega

theorem leValue_crc32 (data : Bytes) : leValue (leBytes 4 (crc32 data).toNat) =
    (crc32 data).toNat :=
  leValue_leBytes_of_lt (crc32 data).toNat_lt

theorem decodeRecordHeader_frameHeader (hash : RawHash) {payloadLen : Nat}
    (fits : payloadLen < 2 ^ 32) :
    decodeRecordHeader (frameHeader hash payloadLen) u64Limit = .ok ⟨hash, payloadLen⟩ := by
  have long := length_frameHeader hash payloadLen
  have magic : (frameHeader hash payloadLen).take 4 = leBytes 4 recordMagic := by
    rw [frameHeader, frameFields, append_assoc]
    exact take_left' (length_leBytes 4 _)
  have fields : (frameHeader hash payloadLen).take (recordHeaderLen - 4) =
      frameFields hash payloadLen :=
    take_left' (length_frameFields hash payloadLen)
  have checksum : ((frameHeader hash payloadLen).drop (recordHeaderLen - 4)).take 4 =
      leBytes 4 (crc32 (frameFields hash payloadLen)).toNat := by
    rw [frameHeader, drop_left' (length_frameFields hash payloadLen)]
    exact take_of_length_le (Nat.le_of_eq (length_leBytes 4 _))
  have afterFlags : (frameHeader hash payloadLen).drop 8 =
      hash.bytes ++ (leBytes 4 payloadLen ++
        leBytes 4 (crc32 (frameFields hash payloadLen)).toNat) := by
    have front : frameHeader hash payloadLen =
        (leBytes 4 recordMagic ++ leBytes 2 segmentFormatVersion ++ leBytes 2 0) ++
          (hash.bytes ++ (leBytes 4 payloadLen ++
            leBytes 4 (crc32 (frameFields hash payloadLen)).toNat)) := by
      rw [frameHeader, frameFields]
      simp only [append_assoc]
    rw [front]
    apply drop_left'
    rw [length_append, length_append, length_leBytes, length_leBytes, length_leBytes]
  have named : ((frameHeader hash payloadLen).drop 8).take rawHashLen = hash.bytes := by
    rw [afterFlags]
    exact take_left' hash.sized
  have declared : ((frameHeader hash payloadLen).drop 40).take 4 = leBytes 4 payloadLen := by
    have behind : (frameHeader hash payloadLen).drop 40 = leBytes 4 payloadLen ++
        leBytes 4 (crc32 (frameFields hash payloadLen)).toNat := by
      rw [show (40 : Nat) = 8 + rawHashLen from rfl, ← drop_drop, afterFlags]
      exact drop_left' hash.sized
    rw [behind]
    exact take_left' (length_leBytes 4 _)
  unfold decodeRecordHeader
  have whole : ¬((frameHeader hash payloadLen).length < recordHeaderLen ∨
      u64Limit < recordHeaderLen) := by
    rw [long]
    decide
  rw [dif_neg whole, if_neg, if_neg]
  · simp only [named, declared]
    rw [leValue_leBytes_of_lt fits, if_neg]
    have small : 48 + 4 + payloadLen ≤ 2 ^ 64 - 1 := by omega
    exact Nat.not_lt.mpr small
  · rw [fields, checksum, leValue_crc32]
    exact fun differ => differ rfl
  · rw [magic, leValue_leBytes_of_lt (by decide)]
    exact fun differ => differ rfl

theorem readAt_drop (file : Bytes) (offset skipped count : Nat) :
    readAt file (offset + skipped) count =
      ((readAt file offset (skipped + count)).drop skipped) := by
  rw [readAt, readAt, drop_take, drop_drop, Nat.add_sub_cancel_left]

theorem readAt_front (file : Bytes) (offset : Nat) {count whole : Nat} (within : count ≤ whole) :
    readAt file offset count = (readAt file offset whole).take count := by
  rw [readAt, readAt, take_take, Nat.min_eq_left within]

theorem readRecordPayload_of_record {file : Bytes} {location : BlockLocation} {frame : RecordFrame}
    (record : readAt file location.recordOffset frame.len = frame.bytes)
    (length : location.length = frame.payload.length) (fits : frame.payload.length < 2 ^ 32) :
    readRecordPayload file location frame.hash = .ok frame.payload := by
  have header : readAt file location.recordOffset recordHeaderLen =
      frameHeader frame.hash frame.payload.length := by
    have shorter : recordHeaderLen ≤ frame.len := by
      rw [RecordFrame.len, Nat.add_assoc]
      exact Nat.le_add_right _ _
    rw [readAt_front file _ shorter, record, frame.bytes_eq]
    exact take_left' (length_frameHeader _ _)
  have rest : readAt file location.payloadOffset (frame.payload.length + recordTrailerLen) =
      frame.payload ++ frameTrailer frame.payload := by
    rw [BlockLocation.payloadOffset, readAt_drop, ← Nat.add_assoc]
    change (readAt file location.recordOffset frame.len).drop recordHeaderLen = _
    rw [record, frame.bytes_eq]
    exact drop_left' (length_frameHeader _ _)
  have payload : readAt file location.payloadOffset frame.payload.length = frame.payload := by
    rw [readAt_front file _ (Nat.le_add_right _ recordTrailerLen), rest]
    exact take_left' rfl
  have trailer : readAt file (location.payloadOffset + frame.payload.length) recordTrailerLen =
      frameTrailer frame.payload := by
    rw [readAt_drop, rest]
    exact drop_left' rfl
  have trailerLength : (frameTrailer frame.payload).length = recordTrailerLen :=
    length_leBytes 4 _
  have checked : payloadChecksumMatches frame.payload (frameTrailer frame.payload) = true := by
    rw [payloadChecksumMatches, trailerLength, frameTrailer, leValue_crc32]
    simp
  simp only [readRecordPayload, readExactAt, header, length_frameHeader, if_true,
    bind, Except.bind, decodeRecordHeader_frameHeader frame.hash fits, length,
    payload, trailer, trailerLength, checked]
  simp

end Yadorilink.Segments
