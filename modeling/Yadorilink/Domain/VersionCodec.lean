import Yadorilink.Domain.Codec

/-! Versions as they are stored and sent. A version travels as its canonical
encoding; its hash is derived again by whoever decodes it. -/

namespace Yadorilink

open Reading Fallible FileVersion ByteReader List

/-! ## Decoding -/

def recordKindFromByte (byte : UInt8) : Except ChangeError RecordKind :=
  if byte = 0 then .ok .file
  else if byte = 1 then .ok .directory
  else if byte = 2 then .ok .symlink
  else .error (.unknownRecordKind byte)

/-- The text these bytes encode, if they encode one. -/
def fromUtf8 (bytes : List UInt8) : Option String := String.fromUTF8? ⟨bytes.toArray⟩

def replicatedXattrAllowedPrefix : String := "user."

namespace FileMeta

def decodeUnixMode : ByteReader (Option Nat) := do
  let flag ← ByteReader.u8
  if flag = 0 then
    return none
  else if flag = 1 then do
    let mode ← ByteReader.u32
    if replicatedModeMask < mode then
      throw (.unixModeOutOfRange mode)
    else
      return some mode
  else
    throw (.badUnixModeFlag flag)

def decodeSymlinkTarget : ByteReader (Option (List UInt8)) := do
  let flag ← ByteReader.u8
  if flag = 0 then
    return none
  else if flag = 1 then do
    let target ← ByteReader.lenBytes
    return some target
  else
    throw (.badSymlinkFlag flag)

/-- One attribute after the bytes of its name, which must follow `previous` and
be of the namespace that is replicated. -/
def decodeXattr (previous : Option (List UInt8)) :
    ByteReader (List UInt8 × String × List UInt8) := do
  let nameBytes ← ByteReader.lenBytes
  let value ← ByteReader.lenBytes
  if previous.any fun previous => !bytesLt previous nameBytes then
    throw .xattrsUnsorted
  else
    match fromUtf8 nameBytes with
    | none => throw .xattrNameNotUtf8
    | some name =>
      if !name.startsWith replicatedXattrAllowedPrefix then
        throw (.xattrOutsideAllowList name)
      else
        return (nameBytes, name, value)

def decodeXattrs : Nat → Option (List UInt8) → ByteReader (List (String × List UInt8))
  | 0, _ => return []
  | count + 1, previous => do
      let (nameBytes, xattr) ← decodeXattr previous
      let rest ← decodeXattrs count (some nameBytes)
      return xattr :: rest

def decode : ByteReader FileMeta := do
  let kindByte ← ByteReader.u8
  let recordKind ← (recordKindFromByte kindByte : ByteReader RecordKind)
  let unixMode ← decodeUnixMode
  let mtimeUnixNanos ← ByteReader.i64
  let symlinkTarget ← decodeSymlinkTarget
  let xattrCount ← ByteReader.boundedCount 8 maxXattrs
  let xattrs ← decodeXattrs xattrCount none
  return { mtimeUnixNanos, unixMode, symlinkTarget, recordKind, xattrs }

end FileMeta

def VersionBlock.decode : ByteReader VersionBlock := do
  let hash ← ByteReader.lenBytes
  let size ← ByteReader.u32
  return { hash, size }

/-- A version with the hash it is known by. -/
structure HashedVersion where
  versionHash : VersionHash
  version : FileVersion
deriving DecidableEq

def FileVersion.decode : ByteReader FileVersion := do
  let tag ← ByteReader.take 8
  if tag ≠ utf8Bytes "YLNKver" ++ [4] then
    throw .badVersionDomainTag
  else
    let size ← ByteReader.u64
    let blockCount ← ByteReader.boundedCount 8 maxBlocks
    let blocks ← repeated VersionBlock.decode blockCount
    let fileMeta ← FileMeta.decode
    ByteReader.expectEnd
    return { blocks, size, fileMeta }

namespace HashedVersion

def new (crypto : Crypto) (version : FileVersion) : HashedVersion :=
  ⟨version.computeHash crypto, version⟩

/-- Structural validation, as the caller sees its failures. -/
def checkStructure (version : FileVersion) : Except ChangeError Unit :=
  version.validateStructure.mapError .structure_

/-- What every stored or received version is checked for. -/
def verifyHash (crypto : Crypto) (version : HashedVersion) : Except ChangeError Unit :=
  if version.version.computeHash crypto ≠ version.versionHash then
    .error .hashMismatch
  else
    checkStructure version.version

theorem verifyHash_new (crypto : Crypto) (version : FileVersion) :
    (new crypto version).verifyHash crypto = checkStructure version := by
  rw [verifyHash, if_neg (fun different => different rfl), new]

def fromCanonicalEncoding (crypto : Crypto) (bytes : List UInt8) :
    Except ChangeError HashedVersion := do
  let (version, _) ← FileVersion.decode.run bytes
  checkStructure version
  return new crypto version

end HashedVersion

/-! ## Texts -/

theorem toByteArray_utf8Bytes (text : String) :
    (⟨(utf8Bytes text).toArray⟩ : ByteArray) = text.toByteArray := by
  rw [← String.utf8Encode_toList, List.utf8Encode, utf8Bytes]
  apply ByteArray.ext
  simp

theorem fromUtf8_utf8Bytes (text : String) : fromUtf8 (utf8Bytes text) = some text := by
  rw [fromUtf8, toByteArray_utf8Bytes, String.fromUTF8?, dif_pos text.isValidUTF8]
  rfl

variable {bytes : List UInt8}

theorem utf8Bytes_of_fromUtf8 {text : String} (decoded : fromUtf8 bytes = some text) :
    utf8Bytes text = bytes := by
  rw [fromUtf8, String.fromUTF8?] at decoded
  split at decoded
  · have same := toByteArray_utf8Bytes text
    cases decoded
    have arrays := congrArg ByteArray.data same
    exact toArray_inj arrays
  · cases decoded

theorem bytesLt_trans {first second third : List UInt8} (lower : bytesLt first second = true)
    (upper : bytesLt second third = true) : bytesLt first third = true := by
  simp only [bytesLt, decide_eq_true_eq] at lower upper ⊢
  exact Std.TransCmp.lt_trans lower upper

/-! ## What is accepted is well formed -/

variable {rest : List UInt8} {previous : Option (List UInt8)} {xattrs : List (String × List UInt8)}

namespace FileMeta

theorem decodeUnixMode_ok {mode : Option Nat} (ran : decodeUnixMode.run bytes = .ok (mode, rest)) :
    mode.all (fun mode => mode ≤ replicatedModeMask) = true := by
  rcases run_bind_eq_ok_iff.mp ran with ⟨flag, afterFlag, _, decided⟩
  split at decided
  · cases decided
    rfl
  · split at decided
    · rcases run_bind_eq_ok_iff.mp decided with ⟨value, afterMode, _, checked⟩
      by_cases beyond : replicatedModeMask < value
      · rw [if_pos beyond] at checked
        cases checked
      · rw [if_neg beyond] at checked
        cases checked
        simpa using beyond
    · cases decided

theorem decodeXattr_ok {nameBytes value : List UInt8} {name : String}
    (ran : (decodeXattr previous).run bytes = .ok ((nameBytes, name, value), rest)) :
    nameBytes = utf8Bytes name ∧ name.startsWith replicatedXattrAllowedPrefix = true ∧
      ∀ earlier, previous = some earlier → bytesLt earlier nameBytes = true := by
  rcases run_bind_eq_ok_iff.mp ran with ⟨readName, afterName, _, named⟩
  rcases run_bind_eq_ok_iff.mp named with ⟨readValue, afterValue, _, checked⟩
  split at checked
  · cases checked
  · rename_i sorted
    split at checked
    · cases checked
    · rename_i text decoded
      split at checked
      · cases checked
      · rename_i allowed
        cases checked
        refine ⟨(utf8Bytes_of_fromUtf8 decoded).symm, by simpa using allowed, ?_⟩
        intro earlier isPrevious
        simpa [isPrevious] using sorted

/-- The attributes read after `previous` are few as announced, sorted after it
and of the replicated namespace. -/
theorem decodeXattrs_ok {count : Nat}
    (ran : (decodeXattrs count previous).run bytes = .ok (xattrs, rest)) :
    xattrs.length = count ∧
      (∀ xattr ∈ xattrs, xattr.1.startsWith replicatedXattrAllowedPrefix = true ∧
        ∀ earlier, previous = some earlier → bytesLt earlier (utf8Bytes xattr.1) = true) ∧
      (xattrs.map fun xattr => utf8Bytes xattr.1).Pairwise
        fun earlier later => bytesLt earlier later = true := by
  induction count generalizing previous bytes xattrs with
  | zero =>
    cases ran
    simp
  | succ count induction =>
    rcases run_bind_eq_ok_iff.mp ran with ⟨⟨nameBytes, name, value⟩, afterFirst, first, others⟩
    rcases run_bind_eq_ok_iff.mp others with ⟨tail, afterTail, readTail, finished⟩
    cases finished
    rcases decodeXattr_ok first with ⟨rfl, allowed, follows⟩
    rcases induction readTail with ⟨length, each, sorted⟩
    refine ⟨by simp [length], ?_, ?_⟩
    · intro xattr member
      rcases mem_cons.mp member with rfl | later
      · exact ⟨allowed, follows⟩
      · refine ⟨(each xattr later).1, fun earlier isPrevious => ?_⟩
        exact bytesLt_trans (follows earlier isPrevious) ((each xattr later).2 _ rfl)
    · rw [map_cons, pairwise_cons]
      refine ⟨?_, sorted⟩
      intro laterName member
      rcases mem_map.mp member with ⟨xattr, inTail, rfl⟩
      exact (each xattr inTail).2 _ rfl

theorem decode_ok {fileMeta : FileMeta} (ran : decode.run bytes = .ok (fileMeta, rest)) :
    fileMeta.isValid = true := by
  rcases run_bind_eq_ok_iff.mp ran with ⟨_, _, _, ran⟩
  rcases run_bind_eq_ok_iff.mp ran with ⟨_, _, _, ran⟩
  rcases run_bind_eq_ok_iff.mp ran with ⟨_, _, readMode, ran⟩
  rcases run_bind_eq_ok_iff.mp ran with ⟨_, _, _, ran⟩
  rcases run_bind_eq_ok_iff.mp ran with ⟨_, _, _, ran⟩
  rcases run_bind_eq_ok_iff.mp ran with ⟨_, _, readCount, ran⟩
  rcases run_bind_eq_ok_iff.mp ran with ⟨_, _, readXattrs, finished⟩
  cases finished
  rcases decodeXattrs_ok readXattrs with ⟨length, each, sorted⟩
  have few := run_boundedCount_le readCount
  simp only [isValid, Bool.and_eq_true, decide_eq_true_eq, all_eq_true]
  exact ⟨⟨⟨decodeUnixMode_ok readMode, by omega⟩, sorted⟩,
    fun xattr member => (each xattr member).1⟩

end FileMeta

variable {version : FileVersion}

theorem decode_ok (ran : FileVersion.decode.run bytes = .ok (version, rest)) :
    version.fileMeta.isValid = true := by
  rcases run_bind_eq_ok_iff.mp ran with ⟨tag, _, _, ran⟩
  split at ran
  · cases ran
  · rcases run_bind_eq_ok_iff.mp ran with ⟨_, _, _, ran⟩
    rcases run_bind_eq_ok_iff.mp ran with ⟨_, _, _, ran⟩
    rcases run_bind_eq_ok_iff.mp ran with ⟨_, _, _, ran⟩
    rcases run_bind_eq_ok_iff.mp ran with ⟨_, _, readMeta, ran⟩
    rcases run_bind_eq_ok_iff.mp ran with ⟨_, _, _, finished⟩
    cases finished
    exact FileMeta.decode_ok readMeta

theorem HashedVersion.checkStructure_eq_ok_iff :
    checkStructure version = .ok () ↔ version.validateStructure = .ok () := by
  rw [checkStructure]
  cases version.validateStructure with
  | error fault => simp [Except.mapError]
  | ok passed => simp [Except.mapError]

theorem HashedVersion.decodable_of_fromCanonicalEncoding {crypto : Crypto}
    {version : HashedVersion} (decoded : fromCanonicalEncoding crypto bytes = .ok version) :
    version.version.decodable = true := by
  rcases bind_eq_ok_iff.mp decoded with ⟨⟨read, rest⟩, ran, decoded⟩
  rcases bind_eq_ok_iff.mp decoded with ⟨_, checked, finished⟩
  cases finished
  rw [FileVersion.decodable, Bool.and_eq_true]
  refine ⟨decode_ok ran, ?_⟩
  change read.validateStructure.isOk = true
  rw [checkStructure_eq_ok_iff.mp checked]
  rfl

/-! ## What is encoded is read back -/

/-- The ranges of the source's integer types. -/
structure FileVersion.InRange (version : FileVersion) : Prop where
  size : version.size < 2 ^ 64
  blockSizes : ∀ block ∈ version.blocks, block.size < 2 ^ 32
  mode : ∀ mode, version.fileMeta.unixMode = some mode → mode < 2 ^ 32
  mtimeLow : -2 ^ 63 ≤ version.fileMeta.mtimeUnixNanos
  mtimeHigh : version.fileMeta.mtimeUnixNanos < 2 ^ 63

theorem length_putLenBytes (bytes : List UInt8) :
    (putLenBytes bytes).length = 4 + bytes.length := by
  rw [putLenBytes, length_append, putU32, beBytes_length]

theorem length_encode_le {α : Type} {encode : α → List UInt8} {values : List α} {value : α}
    (member : value ∈ values) : (encode value).length ≤ (values.flatMap encode).length := by
  rcases append_of_mem member with ⟨front, back, rfl⟩
  rw [flatMap_append, flatMap_cons, length_append, length_append]
  omega

theorem mul_length_le_flatMap {α : Type} {encode : α → List UInt8} {least : Nat}
    (values : List α) (each : ∀ value ∈ values, least ≤ (encode value).length) :
    values.length * least ≤ (values.flatMap encode).length := by
  rw [length_flatMap]
  simpa using card_nsmul_le_sum (values.map fun value => (encode value).length) least
    (forall_mem_map.mpr each)

namespace FileMeta

def encodeXattr (xattr : String × List UInt8) : List UInt8 :=
  putStr xattr.1 ++ putLenBytes xattr.2

theorem length_encodeXattr (xattr : String × List UInt8) :
    (encodeXattr xattr).length = 8 + (utf8Bytes xattr.1).length + xattr.2.length := by
  rw [encodeXattr, length_append, putStr, length_putLenBytes, length_putLenBytes]
  omega

theorem reads_decodeXattr {xattr : String × List UInt8} (fits : (encodeXattr xattr).length < 2 ^ 32)
    (allowed : xattr.1.startsWith replicatedXattrAllowedPrefix = true)
    (follows : ∀ earlier, previous = some earlier → bytesLt earlier (utf8Bytes xattr.1) = true) :
    Reads (decodeXattr previous) (encodeXattr xattr) (utf8Bytes xattr.1, xattr) := by
  rw [length_encodeXattr] at fits
  intro rest
  rw [encodeXattr, putStr, append_assoc, decodeXattr,
    (reads_lenBytes (by omega)).run_bind,
    (reads_lenBytes (by omega)).run_bind]
  have sorted : (previous.any fun previous => !bytesLt previous (utf8Bytes xattr.1)) = false := by
    cases previous with
    | none => rfl
    | some earlier => simp [follows earlier rfl]
  simp only [sorted, Bool.false_eq_true, if_false, fromUtf8_utf8Bytes, allowed, Bool.not_true]
  rfl

theorem reads_decodeXattrs (fits : (xattrs.flatMap encodeXattr).length < 2 ^ 32)
    (each : ∀ xattr ∈ xattrs, xattr.1.startsWith replicatedXattrAllowedPrefix = true ∧
      ∀ earlier, previous = some earlier → bytesLt earlier (utf8Bytes xattr.1) = true)
    (sorted : (xattrs.map fun xattr => utf8Bytes xattr.1).Pairwise
      fun earlier later => bytesLt earlier later = true) :
    Reads (decodeXattrs xattrs.length previous) (xattrs.flatMap encodeXattr) xattrs := by
  induction xattrs generalizing previous with
  | nil => exact Reads.pure []
  | cons xattr others induction =>
    rw [flatMap_cons, length_append] at fits
    rw [map_cons, pairwise_cons] at sorted
    have first := each xattr mem_cons_self
    have later : Reads (decodeXattrs others.length (some (utf8Bytes xattr.1)))
        (others.flatMap encodeXattr) others := by
      apply induction (by omega) _ sorted.2
      intro other member
      refine ⟨(each other (.tail xattr member)).1, ?_⟩
      intro earlier isPrevious
      cases isPrevious
      exact sorted.1 _ (mem_map_of_mem member)
    exact (reads_decodeXattr (by omega) first.1 first.2).bind (later.finish (xattr :: ·))

def encodeUnixMode : Option Nat → List UInt8
  | none => [0]
  | some mode => 1 :: putU32 mode

def encodeSymlinkTarget : Option (List UInt8) → List UInt8
  | none => [0]
  | some target => 1 :: putLenBytes target

theorem encode_eq (fileMeta : FileMeta) : fileMeta.encode = [recordKindByte fileMeta.recordKind] ++
      (encodeUnixMode fileMeta.unixMode ++ (putI64 fileMeta.mtimeUnixNanos ++
        (encodeSymlinkTarget fileMeta.symlinkTarget ++ (putU32 fileMeta.xattrs.length ++
          fileMeta.xattrs.flatMap encodeXattr)))) := by
  have xattrs : (fun xattr => putStr xattr.1 ++ putLenBytes xattr.2) = encodeXattr := rfl
  cases mode : fileMeta.unixMode <;> cases target : fileMeta.symlinkTarget <;>
    simp [encode, encodeUnixMode, encodeSymlinkTarget, xattrs, mode, target]

theorem reads_recordKind (kind : RecordKind) :
    Reads (recordKindFromByte (recordKindByte kind) : ByteReader RecordKind) [] kind := by
  intro rest
  cases kind <;> rfl

theorem reads_decodeUnixMode {mode : Option Nat}
    (valid : mode.all (fun mode => mode ≤ replicatedModeMask) = true) :
    Reads decodeUnixMode (encodeUnixMode mode) mode := by
  intro rest
  cases mode with
  | none => exact reads_u8 0 |>.run_bind _ rest
  | some mode =>
    have within : mode ≤ replicatedModeMask := by simpa using valid
    have fits : mode < 2 ^ 32 := by
      rw [replicatedModeMask] at within
      omega
    rw [decodeUnixMode, encodeUnixMode, cons_append, ← singleton_append,
      (reads_u8 1).run_bind, if_neg (by decide), if_pos rfl,
      (reads_u32 fits).run_bind, if_neg (Nat.not_lt.mpr within)]
    rfl

theorem reads_decodeSymlinkTarget {target : Option (List UInt8)}
    (fits : ∀ bytes, target = some bytes → bytes.length < 2 ^ 32) :
    Reads decodeSymlinkTarget (encodeSymlinkTarget target) target := by
  intro rest
  cases target with
  | none => exact reads_u8 0 |>.run_bind _ rest
  | some target =>
    rw [decodeSymlinkTarget, encodeSymlinkTarget, cons_append, ← singleton_append,
      (reads_u8 1).run_bind, if_neg (by decide), if_pos rfl,
      (reads_lenBytes (fits target rfl)).run_bind]
    rfl

theorem reads_decode {fileMeta : FileMeta} (valid : fileMeta.isValid = true)
    (low : -2 ^ 63 ≤ fileMeta.mtimeUnixNanos) (high : fileMeta.mtimeUnixNanos < 2 ^ 63)
    (fits : fileMeta.encode.length < 2 ^ 32) : Reads decode fileMeta.encode fileMeta := by
  simp only [isValid, Bool.and_eq_true, decide_eq_true_eq, all_eq_true] at valid
  rcases valid with ⟨⟨⟨mode, few⟩, sorted⟩, allowed⟩
  rw [encode_eq] at fits ⊢
  simp only [length_append] at fits
  have targetFits : ∀ bytes, fileMeta.symlinkTarget = some bytes → bytes.length < 2 ^ 32 := by
    intro bytes isTarget
    simp only [isTarget, encodeSymlinkTarget, length_cons, length_putLenBytes] at fits
    omega
  have counted : fileMeta.xattrs.length * 8 ≤ (fileMeta.xattrs.flatMap encodeXattr).length :=
    mul_length_le_flatMap _ fun xattr _ => by rw [length_encodeXattr]; omega
  have readXattrs : Reads (decodeXattrs fileMeta.xattrs.length none)
      (fileMeta.xattrs.flatMap encodeXattr) fileMeta.xattrs :=
    reads_decodeXattrs (by omega) (fun xattr member => ⟨allowed xattr member, by simp⟩) sorted
  exact (reads_u8 _).bind <| (reads_recordKind _).bind <|
    (reads_decodeUnixMode mode).bind <| (reads_i64 low high).bind <|
    (reads_decodeSymlinkTarget targetFits).bind <|
    reads_boundedCount (by omega) few counted <| readXattrs.finish _

end FileMeta

theorem VersionBlock.reads_decode {block : VersionBlock} (hash : block.hash.length < 2 ^ 32)
    (size : block.size < 2 ^ 32) : Reads VersionBlock.decode block.encode block :=
  (reads_lenBytes hash).bind ((reads_u32 size).finish _)

theorem VersionBlock.length_encode (block : VersionBlock) :
    block.encode.length = 8 + block.hash.length := by
  rw [encode, length_append, length_putLenBytes, putU32, beBytes_length]
  omega

theorem canonicalEncoding_eq (version : FileVersion) :
    version.canonicalEncoding = (utf8Bytes "YLNKver" ++ [4]) ++ (putU64 version.size ++
      ((putU32 version.blocks.length ++ version.blocks.flatMap VersionBlock.encode) ++
        version.fileMeta.encode)) := by
  simp only [canonicalEncoding, append_assoc]

theorem run_decode (inRange : version.InRange)
    (valid : version.fileMeta.isValid = true) (few : version.blocks.length ≤ maxBlocks)
    (short : version.encodedLen ≤ maxEncodedVersionBytes) :
    FileVersion.decode.run version.canonicalEncoding = .ok (version, []) := by
  have fits : version.canonicalEncoding.length < 2 ^ 32 := by
    rw [encodedLen, maxEncodedVersionBytes] at short
    omega
  rw [canonicalEncoding_eq] at fits ⊢
  simp only [length_append] at fits
  have readMeta : Reads FileMeta.decode version.fileMeta.encode version.fileMeta :=
    FileMeta.reads_decode valid inRange.mtimeLow inRange.mtimeHigh (by omega)
  have readBlocks : Reads (repeated VersionBlock.decode version.blocks.length)
      (version.blocks.flatMap VersionBlock.encode) version.blocks := by
    apply reads_repeated
    intro block member
    have within : block.encode.length ≤ (version.blocks.flatMap VersionBlock.encode).length :=
      length_encode_le member
    rw [VersionBlock.length_encode] at within
    exact VersionBlock.reads_decode (by omega) (inRange.blockSizes block member)
  have counted : version.blocks.length * 8 ≤
      (version.blocks.flatMap VersionBlock.encode).length :=
    mul_length_le_flatMap _ fun block _ => by rw [VersionBlock.length_encode]; omega
  have readTag : Reads (ByteReader.take 8) (utf8Bytes "YLNKver" ++ [4])
      (utf8Bytes "YLNKver" ++ [4]) := reads_take (by decide)
  have longer : version.blocks.length * 8 ≤ (version.blocks.flatMap VersionBlock.encode ++
      (version.fileMeta.encode ++ [])).length := by
    rw [length_append]
    omega
  rw [decode, readTag.run_bind, if_neg (by simp), (reads_u64 inRange.size).run_bind,
    append_assoc, ← append_nil version.fileMeta.encode,
    run_boundedCount_bind (by rw [maxBlocks] at few; omega) few longer,
    readBlocks.run_bind, readMeta.run_bind]
  rfl

theorem validateStructure_ok (passed : version.validateStructure = .ok ()) :
    version.blocks.length ≤ maxBlocks ∧ version.encodedLen ≤ maxEncodedVersionBytes := by
  rw [validateStructure] at passed
  by_cases many : maxBlocks < version.blocks.length
  · rw [if_pos many] at passed
    cases passed
  · rw [if_neg many] at passed
    rcases bind_eq_ok_iff.mp passed with ⟨_, short, _⟩
    refine ⟨by omega, ?_⟩
    simp only [validateEncodedLen] at short
    by_cases longBlocks : maxEncodedVersionBytes < version.blocks.length * versionBlockEncodedBytes
    · rw [if_pos longBlocks, if_pos longBlocks] at short
      cases short
    · rw [if_neg longBlocks] at short
      by_cases long : maxEncodedVersionBytes < version.encodedLen
      · rw [if_pos long] at short
        cases short
      · omega

/-- A version that passes verification is read back from its encoding exactly
when its metadata is what decoding accepts. -/
theorem version_read_back_iff (crypto : Crypto) (version : HashedVersion)
    (inRange : version.version.InRange) (verified : version.verifyHash crypto = .ok ()) :
    HashedVersion.fromCanonicalEncoding crypto version.version.canonicalEncoding = .ok version ↔
      version.version.fileMeta.isValid = true := by
  constructor
  · intro decoded
    have decodable := HashedVersion.decodable_of_fromCanonicalEncoding decoded
    rw [FileVersion.decodable, Bool.and_eq_true] at decodable
    exact decodable.1
  · intro valid
    rw [HashedVersion.verifyHash] at verified
    by_cases different : version.version.computeHash crypto ≠ version.versionHash
    · rw [if_pos different] at verified
      cases verified
    · rw [if_neg different] at verified
      rw [not_not] at different
      have structured := validateStructure_ok
        (HashedVersion.checkStructure_eq_ok_iff.mp verified)
      rw [HashedVersion.fromCanonicalEncoding,
        run_decode inRange valid structured.1 structured.2]
      change (HashedVersion.checkStructure version.version >>= fun _ =>
        pure (HashedVersion.new crypto version.version)) = _
      rw [verified, HashedVersion.new, different]
      rfl

def FileVersion.withXattrs (xattrs : List (String × List UInt8)) : FileVersion :=
  ⟨[], 0, ⟨0, some 0o644, none, .file, xattrs⟩⟩

theorem inRange_withXattrs (xattrs : List (String × List UInt8)) :
    (FileVersion.withXattrs xattrs).InRange where
  size := Nat.two_pow_pos 64
  blockSizes := fun block member => absurd member List.not_mem_nil
  mode := by
    intro mode isMode
    cases isMode
    decide
  mtimeLow := by simp [withXattrs]
  mtimeHigh := by simp [withXattrs]

theorem validateStructure_withXattrs
    (short : (FileVersion.withXattrs xattrs).encodedLen ≤ maxEncodedVersionBytes) :
    (FileVersion.withXattrs xattrs).validateStructure = .ok () := by
  have noBlocks : (FileVersion.withXattrs xattrs).blocks.length = 0 := rfl
  have lengths : (FileVersion.withXattrs xattrs).validateEncodedLen = .ok () := by
    simp only [validateEncodedLen, noBlocks, Nat.zero_mul, Nat.not_lt_zero, if_false]
    rw [if_neg (by omega)]
  simp only [validateStructure, lengths, noBlocks]
  rfl

set_option maxRecDepth 8192 in
theorem version_read_back_tagged : HashedVersion.fromCanonicalEncoding Crypto.sample
        (FileVersion.withXattrs [("user.tag", [1])]).canonicalEncoding =
      .ok (HashedVersion.new Crypto.sample (FileVersion.withXattrs [("user.tag", [1])])) :=
  (version_read_back_iff Crypto.sample
    (HashedVersion.new Crypto.sample (FileVersion.withXattrs [("user.tag", [1])]))
    (inRange_withXattrs _) (by with_unfolding_all decide)).mpr (by with_unfolding_all decide)

/-- One attribute more than decoding reads, sorted and in the replicated
namespace. -/
def manyXattrs : List (String × List UInt8) :=
  (List.range (maxXattrs + 1)).map fun index =>
    (String.ofList (replicatedXattrAllowedPrefix.toList ++
      [Char.ofNat (48 + index / 100), Char.ofNat (48 + index / 10 % 10),
        Char.ofNat (48 + index % 10)]), [])

theorem length_flatMap_utf8EncodeChar_le (characters : List Char) :
    (characters.flatMap String.utf8EncodeChar).length ≤ characters.length * 4 := by
  induction characters with
  | nil => simp
  | cons character rest induction =>
    rw [flatMap_cons, length_append, String.length_utf8EncodeChar, length_cons]
    have size := Char.utf8Size_le_four character
    omega

theorem length_encodeXattr_le {xattr : String × List UInt8} (member : xattr ∈ manyXattrs) :
    (FileMeta.encodeXattr xattr).length ≤ 40 := by
  rcases mem_map.mp member with ⟨index, _, rfl⟩
  rw [FileMeta.length_encodeXattr, utf8Bytes, String.toList_ofList]
  have characters : (replicatedXattrAllowedPrefix.toList ++
      [Char.ofNat (48 + index / 100), Char.ofNat (48 + index / 10 % 10),
        Char.ofNat (48 + index % 10)]).length = 8 := by
    have five : replicatedXattrAllowedPrefix.toList.length = 5 := by decide
    rw [length_append, five]
    rfl
  have bytes := length_flatMap_utf8EncodeChar_le (replicatedXattrAllowedPrefix.toList ++
    [Char.ofNat (48 + index / 100), Char.ofNat (48 + index / 10 % 10),
      Char.ofNat (48 + index % 10)])
  rw [characters] at bytes
  simp only [length_nil]
  omega

theorem length_flatMap_le {α : Type} {encode : α → List UInt8} {most : Nat} (values : List α)
    (each : ∀ value ∈ values, (encode value).length ≤ most) :
    (values.flatMap encode).length ≤ values.length * most := by
  rw [length_flatMap]
  simpa using sum_le_card_nsmul (values.map fun value => (encode value).length) most
    (forall_mem_map.mpr each)

theorem verifyHash_withXattrs (crypto : Crypto) (count : xattrs.length ≤ 2 ^ 16)
    (each : ∀ xattr ∈ xattrs, (FileMeta.encodeXattr xattr).length ≤ 40) :
    (HashedVersion.new crypto (FileVersion.withXattrs xattrs)).verifyHash crypto = .ok () := by
  have short : (FileVersion.withXattrs xattrs).encodedLen ≤ maxEncodedVersionBytes := by
    have tag : (utf8Bytes "YLNKver" ++ [4]).length = 8 := by decide
    have total := length_flatMap_le xattrs each
    rw [FileVersion.encodedLen, canonicalEncoding_eq, FileMeta.encode_eq]
    simp only [length_append, tag, putU64, putU32, putI64, beBytes_length,
      FileVersion.withXattrs, flatMap_nil, length_nil, FileMeta.encodeUnixMode,
      FileMeta.encodeSymlinkTarget, length_cons, maxEncodedVersionBytes]
    omega
  rw [HashedVersion.verifyHash_new, HashedVersion.checkStructure_eq_ok_iff]
  exact validateStructure_withXattrs short

theorem length_manyXattrs : manyXattrs.length = maxXattrs + 1 := by
  rw [manyXattrs, length_map, length_range]

/-- A file with one attribute too many is stored and never read back. -/
theorem version_not_read_back : ¬∀ version : HashedVersion, version.version.InRange →
      version.verifyHash Crypto.sample = .ok () →
      HashedVersion.fromCanonicalEncoding Crypto.sample version.version.canonicalEncoding =
        .ok version := by
  intro always
  have decoded := always (HashedVersion.new Crypto.sample (FileVersion.withXattrs manyXattrs))
    (inRange_withXattrs _)
    (verifyHash_withXattrs Crypto.sample (by rw [length_manyXattrs, maxXattrs]; decide)
      fun xattr => length_encodeXattr_le)
  have decodable := HashedVersion.decodable_of_fromCanonicalEncoding decoded
  simp only [FileVersion.decodable, FileMeta.isValid, Bool.and_eq_true, decide_eq_true_eq]
    at decodable
  have few : manyXattrs.length ≤ maxXattrs := decodable.1.1.1.2
  rw [length_manyXattrs] at few
  omega

/-! ## What is accepted has one spelling -/

namespace FileMeta

theorem recordKindFromByte_eq_ok {byte : UInt8} {kind : RecordKind}
    (ran : (recordKindFromByte byte : ByteReader RecordKind).run bytes = .ok (kind, rest)) :
    byte = recordKindByte kind ∧ rest = bytes := by
  unfold recordKindFromByte at ran
  split at ran
  · rename_i isByte
    cases ran
    exact ⟨isByte, rfl⟩
  · split at ran
    · rename_i isByte
      cases ran
      exact ⟨isByte, rfl⟩
    · split at ran
      · rename_i isByte
        cases ran
        exact ⟨isByte, rfl⟩
      · cases ran

theorem spells_decodeUnixMode : Spells decodeUnixMode encodeUnixMode := by
  intro bytes mode rest ran
  rcases run_bind_eq_ok_iff.mp ran with ⟨flag, afterFlag, flags, decided⟩
  rw [spells_u8 _ _ _ flags]
  split at decided
  · rename_i absent
    cases decided
    rw [absent]
    rfl
  · split at decided
    · rename_i present
      rcases run_bind_eq_ok_iff.mp decided with ⟨value, afterMode, reads, checked⟩
      by_cases beyond : replicatedModeMask < value
      · rw [if_pos beyond] at checked
        cases checked
      · rw [if_neg beyond] at checked
        cases checked
        rw [spells_u32 _ _ _ reads, present]
        rfl
    · cases decided

theorem spells_decodeSymlinkTarget : Spells decodeSymlinkTarget encodeSymlinkTarget := by
  have encoding : encodeSymlinkTarget = putOptional putLenBytes := by
    funext target
    cases target <;> rfl
  rw [encoding]
  exact spells_optional spells_lenBytes

theorem spells_decodeXattr (previous : Option (List UInt8)) :
    Spells (decodeXattr previous) fun found => encodeXattr found.2 := by
  intro bytes found rest ran
  rcases found with ⟨nameBytes, name, value⟩
  have named := (decodeXattr_ok ran).1
  rcases run_bind_eq_ok_iff.mp ran with ⟨readName, afterName, names, ran⟩
  rcases run_bind_eq_ok_iff.mp ran with ⟨readValue, afterValue, values, checked⟩
  split at checked
  · cases checked
  · split at checked
    · cases checked
    · split at checked
      · cases checked
      · cases checked
        rw [spells_lenBytes _ _ _ names, spells_lenBytes _ _ _ values, named]
        simp only [encodeXattr, putStr, append_assoc]

theorem spells_decodeXattrs {count : Nat} :
    Spells (decodeXattrs count previous) fun xattrs => xattrs.flatMap encodeXattr := by
  induction count generalizing previous with
  | zero =>
    intro bytes xattrs rest ran
    cases ran
    rfl
  | succ count induction =>
    intro bytes xattrs rest ran
    rcases run_bind_eq_ok_iff.mp ran with ⟨⟨nameBytes, xattr⟩, afterFirst, first, ran⟩
    rcases run_bind_eq_ok_iff.mp ran with ⟨tail, afterTail, later, finished⟩
    cases finished
    rw [spells_decodeXattr _ _ _ _ first, induction _ _ _ later]
    simp only [flatMap_cons, append_assoc]

theorem spells_decode : Spells decode encode := by
  intro bytes fileMeta rest ran
  rcases run_bind_eq_ok_iff.mp ran with ⟨kindByte, _, reads, ran⟩
  rcases run_bind_eq_ok_iff.mp ran with ⟨kind, _, kinds, ran⟩
  rcases run_bind_eq_ok_iff.mp ran with ⟨mode, _, modes, ran⟩
  rcases run_bind_eq_ok_iff.mp ran with ⟨mtime, _, times, ran⟩
  rcases run_bind_eq_ok_iff.mp ran with ⟨target, _, targets, ran⟩
  rcases run_bind_eq_ok_iff.mp ran with ⟨count, _, counts, ran⟩
  rcases run_bind_eq_ok_iff.mp ran with ⟨xattrs, _, readXattrs, finished⟩
  cases finished
  rcases recordKindFromByte_eq_ok kinds with ⟨rfl, rfl⟩
  have length := (decodeXattrs_ok readXattrs).1
  rw [encode_eq, spells_u8 _ _ _ reads, spells_decodeUnixMode _ _ _ modes,
    spells_i64 _ _ _ times, spells_decodeSymlinkTarget _ _ _ targets,
    spells_boundedCount _ _ _ counts, spells_decodeXattrs _ _ _ readXattrs, ← length]
  simp only [append_assoc]

end FileMeta

theorem VersionBlock.spells_decode : Spells VersionBlock.decode VersionBlock.encode := by
  intro bytes block rest ran
  rcases run_bind_eq_ok_iff.mp ran with ⟨hash, _, hashes, ran⟩
  rcases run_bind_eq_ok_iff.mp ran with ⟨size, _, sizes, finished⟩
  cases finished
  rw [spells_lenBytes _ _ _ hashes, spells_u32 _ _ _ sizes,
    VersionBlock.encode, append_assoc]

theorem FileVersion.canonicalEncoding_of_decode
    (ran : FileVersion.decode.run bytes = .ok (version, rest)) :
    version.canonicalEncoding = bytes := by
  rcases run_bind_eq_ok_iff.mp ran with ⟨tag, afterTag, tags, ran⟩
  split at ran
  · cases ran
  · rename_i isTag
    rcases run_bind_eq_ok_iff.mp ran with ⟨size, _, sizes, ran⟩
    rcases run_bind_eq_ok_iff.mp ran with ⟨count, _, counts, ran⟩
    rcases run_bind_eq_ok_iff.mp ran with ⟨blocks, _, readBlocks, ran⟩
    rcases run_bind_eq_ok_iff.mp ran with ⟨fileMeta, _, readMeta, ran⟩
    rcases run_bind_eq_ok_iff.mp ran with ⟨_, _, ends, finished⟩
    cases finished
    rcases VersionBlock.spells_decode.repeated readBlocks with ⟨rfl, spelt⟩
    rw [canonicalEncoding_eq, (run_take_eq_ok tags).1, not_not.mp isTag,
      spells_u64 _ _ _ sizes, spells_boundedCount _ _ _ counts, spelt,
      FileMeta.spells_decode _ _ _ readMeta, (run_expectEnd_eq_ok ends).1]
    simp only [append_assoc, append_nil]

/-- Bytes that are accepted are the encoding of the version they give, and it passes verification.
Two accepted encodings give two versions, and two hashes as long as the digest tells them apart. -/
theorem accepted_encodings_apart (crypto : Crypto) :
    (∀ bytes version, HashedVersion.fromCanonicalEncoding crypto bytes = .ok version →
      version.version.canonicalEncoding = bytes ∧ version.verifyHash crypto = .ok ()) ∧
    ∀ first second firstVersion secondVersion,
      HashedVersion.fromCanonicalEncoding crypto first = .ok firstVersion →
      HashedVersion.fromCanonicalEncoding crypto second = .ok secondVersion → first ≠ second →
        firstVersion.version ≠ secondVersion.version ∧
        ∀ hashed : Set (List UInt8), Set.InjOn crypto.sha256 hashed →
          first ∈ hashed → second ∈ hashed →
            firstVersion.versionHash ≠ secondVersion.versionHash := by
  have accepted : ∀ bytes version,
      HashedVersion.fromCanonicalEncoding crypto bytes = .ok version →
        version.version.canonicalEncoding = bytes ∧ version.verifyHash crypto = .ok () ∧
          version.versionHash = ⟨crypto.sha256 bytes⟩ := by
    intro bytes version decoded
    rcases bind_eq_ok_iff.mp decoded with ⟨⟨read, rest⟩, ran, decoded⟩
    rcases bind_eq_ok_iff.mp decoded with ⟨_, checked, finished⟩
    cases finished
    have spelt := FileVersion.canonicalEncoding_of_decode ran
    refine ⟨spelt, ?_, ?_⟩
    · rw [HashedVersion.verifyHash_new]
      exact checked
    · rw [← spelt]
      rfl
  refine ⟨fun bytes version decoded =>
    ⟨(accepted bytes version decoded).1, (accepted bytes version decoded).2.1⟩, ?_⟩
  intro first second firstVersion secondVersion firstDecoded secondDecoded differ
  have firstSpelt := accepted _ _ firstDecoded
  have secondSpelt := accepted _ _ secondDecoded
  constructor
  · intro same
    rw [← firstSpelt.1, ← secondSpelt.1, same] at differ
    exact differ rfl
  · intro hashed collisionFree firstHashed secondHashed same
    rw [firstSpelt.2.2, secondSpelt.2.2, VersionHash.mk.injEq] at same
    exact differ (collisionFree firstHashed secondHashed same)

end Yadorilink
