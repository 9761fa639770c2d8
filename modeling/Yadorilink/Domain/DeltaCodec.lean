import Yadorilink.Domain.VersionCodec

/-! Signed deltas on the wire. A delta travels as its header, the signature over it and its ops;
the header commits to the ops by their digest. Each delta has one encoding, and the header alone
decides everything but the signature. -/

namespace Yadorilink

open Reading ByteReader List NativeDelta

variable {expected : List UInt8} {what : String} {seen : List SyncPath}

/-! ## Primitives -/

namespace ByteReader

def string : ByteReader String := do
  let bytes ← lenBytes
  match fromUtf8 bytes with
  | none => throw .notUtf8
  | some text => return text

/-- `count` bytes as a bit vector, most significant byte first. -/
def array (count : Nat) : ByteReader (BitVec (8 * count)) := do
  return BitVec.ofNat (8 * count) (beValue (← take count))

def array16 : ByteReader (BitVec 128) := array 16

def array32 : ByteReader (BitVec 256) := array 32

def array64 : ByteReader (BitVec 512) := array 64

end ByteReader

/-! ## Decoding -/

/-- How long the kind is that opens a domain tag. -/
def nativeTagKindLen : Nat := 7

def checkNativeTag (tag expected : List UInt8) (what : String) : Except ChangeError Unit :=
  if tag.length ≠ expected.length ∨
      tag.take nativeTagKindLen ≠ expected.take nativeTagKindLen then
    .error (.badNativeTag what)
  else if tag.getD nativeTagKindLen 0 ≠ expected.getD nativeTagKindLen 0 then
    .error (.unsupportedGeneration (tag.getD nativeTagKindLen 0) (expected.getD nativeTagKindLen 0))
  else
    .ok ()

def readNativeTag (expected : List UInt8) (what : String) : ByteReader Unit := do
  let tag ← ByteReader.take 8
  (checkNativeTag tag expected what : ByteReader Unit)

def decodeAuthorId : ByteReader AuthorId := do
  let device ← ByteReader.string
  let incarnation ← ByteReader.array16
  if incarnation = IncarnationId.reserved then
    throw (.reservedIncarnation device)
  else
    return ⟨device, incarnation⟩

def decodeDeltaHash : ByteReader DeltaHash := do
  return ⟨← ByteReader.array32⟩

def decodePut : ByteReader DeltaPut := do
  return ⟨⟨← ByteReader.array32⟩⟩

def decodeRecursivePart : ByteReader RecursivePart := do
  let operationId ← ByteReader.array16
  if operationId = 0 then
    throw .reservedOperationId
  else
    let partIndex ← ByteReader.u32
    let partCount ← ByteReader.u32
    if partCount = 0 ∨ partCount ≤ partIndex then
      throw (.partOutOfRange partIndex partCount)
    else
      return ⟨operationId, partIndex, partCount⟩

/-- The fields of a delta's header. -/
structure HeaderFields where
  groupId : FolderGroupId
  author : AuthorId
  seq : Nat
  prev : Option DeltaHash
  recursivePart : Option RecursivePart
  bodyDigest : BitVec 256

def HeaderFields.decode : ByteReader HeaderFields := do
  readNativeTag (nativeDomainTag "YLNKndH") "native delta header"
  let groupId ← ByteReader.string
  let author ← decodeAuthorId
  let seq ← ByteReader.u64
  if AuthorSeq.max < seq then
    throw (.seqTooHigh seq)
  else if seq < AuthorSeq.first then
    throw (.seqTooLow seq)
  else
    let prev ← ByteReader.optional .badPrevFlag decodeDeltaHash
    let recursivePart ← ByteReader.optional .badPartFlag decodeRecursivePart
    let bodyDigest ← ByteReader.array32
    return { groupId, author, seq, prev, recursivePart, bodyDigest }

def decodeHeadRef : ByteReader HeadRef := do
  let author ← decodeAuthorId
  let seq ← ByteReader.u64
  if ¬(AuthorSeq.first ≤ seq ∧ seq ≤ AuthorSeq.max) then
    throw (.namedSeqOutOfRange seq)
  else
    let provenance ← decodeDeltaHash
    return ⟨⟨author, seq⟩, provenance⟩

/-- One op, after ops at the paths of `seen`. -/
def decodeOp (seen : List SyncPath) : ByteReader DeltaOp := do
  let path ← ByteReader.string
  match validatePath path with
  | .error fault => throw (.invalidPath fault)
  | .ok _ =>
    if path ∈ seen then
      throw (.duplicatePath path)
    else
      let removesCount ← ByteReader.boundedCount 60 maxRemovesPerOp
      let removes ← repeated decodeHeadRef removesCount
      let put ← ByteReader.optional .badPutFlag decodePut
      return ⟨path, removes, put⟩

def decodeOpsFrom : Nat → List SyncPath → ByteReader (List DeltaOp)
  | 0, _ => return []
  | count + 1, seen => do
      let op ← decodeOp seen
      let rest ← decodeOpsFrom count (op.path :: seen)
      return op :: rest

def decodeOps : ByteReader (List DeltaOp) := do
  let opCount ← ByteReader.boundedCount 4 maxOps
  if opCount = 0 then
    throw .noOps
  else
    decodeOpsFrom opCount []

def NativeDelta.decode (crypto : Crypto) : ByteReader NativeDelta := do
  readNativeTag (nativeDomainTag "YLNKndl") "native delta"
  let header ← HeaderFields.decode
  let signature ← ByteReader.array64
  let body ← get
  let ops ← decodeOps
  ByteReader.expectEnd
  if crypto.sha256 (nativeDomainTag "YLNKndB" ++ body) ≠ header.bodyDigest then
    throw .hashMismatch
  else
    return {
      groupId := header.groupId
      author := header.author
      seq := header.seq
      prev := header.prev
      ops := ops
      recursivePart := header.recursivePart
      signature := signature }

def NativeDelta.fromWireBytes (crypto : Crypto) (bytes : List UInt8) :
    Except ChangeError NativeDelta := do
  let (delta, _) ← (decode crypto).run bytes
  return delta

/-! ## One spelling of the parts -/

namespace ByteReader

theorem spells_string : Spells string putStr := by
  intro bytes text rest ran
  rcases run_bind_eq_ok_iff.mp ran with ⟨read, middle, reads, decided⟩
  cases decoded : fromUtf8 read with
  | none =>
    rw [decoded] at decided
    cases decided
  | some found =>
    rw [decoded] at decided
    cases decided
    rw [spells_lenBytes _ _ _ reads, putStr, utf8Bytes_of_fromUtf8 decoded]

theorem byte_pow (count : Nat) : 256 ^ count = 2 ^ (8 * count) := by
  rw [Nat.pow_mul]

theorem spells_array (count : Nat) :
    Spells (array count) fun value => beBytes count value.toNat := by
  intro bytes value rest ran
  rcases run_bind_eq_ok_iff.mp ran with ⟨taken, middle, takes, finished⟩
  cases finished
  rcases run_take_eq_ok takes with ⟨rfl, length⟩
  have fits := beValue_lt length
  rw [byte_pow] at fits
  simp only [BitVec.toNat_ofNat, Nat.mod_eq_of_lt fits, beBytes_beValue length]

theorem spells_array16 : Spells array16 fun value => beBytes 16 value.toNat := spells_array 16

theorem spells_array32 : Spells array32 fun value => beBytes 32 value.toNat := spells_array 32

theorem spells_array64 : Spells array64 fun value => beBytes 64 value.toNat := spells_array 64

end ByteReader

theorem eq_of_checkNativeTag {tag : List UInt8}
    (length : expected.length = nativeTagKindLen + 1)
    (passed : checkNativeTag tag expected what = .ok ()) : tag = expected := by
  rw [checkNativeTag] at passed
  split at passed
  · cases passed
  · rename_i kind
    split at passed
    · cases passed
    · rename_i generation
      rw [not_or, not_not, not_not] at kind
      rw [not_not] at generation
      have last : ∀ {bytes : List UInt8}, bytes.length = nativeTagKindLen + 1 →
          bytes = bytes.take nativeTagKindLen ++ [bytes.getD nativeTagKindLen 0] := by
        intro bytes long
        have within : nativeTagKindLen < bytes.length := by omega
        rw [getD_eq_getElem _ _ within, take_append_getElem within,
          take_of_length_le (by omega)]
      rw [last (kind.1.trans length), last length, kind.2, generation]

theorem spells_readNativeTag
    (length : expected.length = nativeTagKindLen + 1) :
    Spells (readNativeTag expected what) fun _ => expected := by
  intro bytes done rest ran
  rcases run_bind_eq_ok_iff.mp ran with ⟨tag, middle, tags, checked⟩
  cases passes : checkNativeTag tag expected what with
  | error fault =>
    rw [passes] at checked
    cases checked
  | ok passed =>
    rw [passes] at checked
    cases checked
    rw [(run_take_eq_ok tags).1, eq_of_checkNativeTag length passes]

theorem spells_decodeAuthorId : Spells decodeAuthorId AuthorId.encode := by
  intro bytes author rest ran
  rcases run_bind_eq_ok_iff.mp ran with ⟨device, _, devices, ran⟩
  rcases run_bind_eq_ok_iff.mp ran with ⟨incarnation, _, incarnations, decided⟩
  split at decided
  · cases decided
  · cases decided
    rw [spells_string _ _ _ devices,
      spells_array16 _ _ _ incarnations, AuthorId.encode, append_assoc]

def putDeltaHash (hash : DeltaHash) : List UInt8 := beBytes 32 hash.bits.toNat

def DeltaPut.encode (put : DeltaPut) : List UInt8 := beBytes 32 put.version.bits.toNat

def RecursivePart.encode (part : RecursivePart) : List UInt8 :=
  beBytes 16 part.operationId.toNat ++ (putU32 part.partIndex ++ putU32 part.partCount)

theorem spells_decodeDeltaHash : Spells decodeDeltaHash putDeltaHash := by
  intro bytes hash rest ran
  rcases run_bind_eq_ok_iff.mp ran with ⟨bits, _, reads, finished⟩
  cases finished
  exact spells_array32 _ _ _ reads

theorem spells_decodePut : Spells decodePut DeltaPut.encode := by
  intro bytes put rest ran
  rcases run_bind_eq_ok_iff.mp ran with ⟨bits, _, reads, finished⟩
  cases finished
  exact spells_array32 _ _ _ reads

theorem spells_decodeRecursivePart : Spells decodeRecursivePart RecursivePart.encode := by
  intro bytes part rest ran
  rcases run_bind_eq_ok_iff.mp ran with ⟨operationId, _, ids, decided⟩
  split at decided
  · cases decided
  · rcases run_bind_eq_ok_iff.mp decided with ⟨index, _, indices, decided⟩
    rcases run_bind_eq_ok_iff.mp decided with ⟨count, _, counts, decided⟩
    split at decided
    · cases decided
    · cases decided
      rw [spells_array16 _ _ _ ids, spells_u32 _ _ _ indices,
        spells_u32 _ _ _ counts, RecursivePart.encode]
      simp only [append_assoc]

theorem spells_decodeHeadRef : Spells decodeHeadRef NativeDelta.headRefEncoding := by
  intro bytes removal rest ran
  rcases run_bind_eq_ok_iff.mp ran with ⟨author, _, authors, ran⟩
  rcases run_bind_eq_ok_iff.mp ran with ⟨seq, _, seqs, decided⟩
  split at decided
  · cases decided
  · rcases run_bind_eq_ok_iff.mp decided with ⟨provenance, _, provenances, finished⟩
    cases finished
    rw [spells_decodeAuthorId _ _ _ authors, spells_u64 _ _ _ seqs,
      spells_decodeDeltaHash _ _ _ provenances, headRefEncoding, putDeltaHash]
    simp only [append_assoc]

theorem opEncoding_eq (op : DeltaOp) :
    NativeDelta.opEncoding op = putStr op.path ++ ((putU32 op.removes.length ++
      op.removes.flatMap NativeDelta.headRefEncoding) ++ putOptional DeltaPut.encode op.put) := by
  rcases op with ⟨path, removes, put⟩
  cases put with
  | none => simp only [opEncoding, putOptional, append_assoc]
  | some put => simp only [opEncoding, putOptional, DeltaPut.encode, append_assoc]

theorem spells_decodeOp (seen : List SyncPath) : Spells (decodeOp seen) NativeDelta.opEncoding := by
  intro bytes op rest ran
  rcases run_bind_eq_ok_iff.mp ran with ⟨path, _, paths, decided⟩
  split at decided
  · cases decided
  · split at decided
    · cases decided
    · rcases run_bind_eq_ok_iff.mp decided with ⟨count, _, counts, ran⟩
      rcases run_bind_eq_ok_iff.mp ran with ⟨removes, _, removals, ran⟩
      rcases run_bind_eq_ok_iff.mp ran with ⟨put, _, puts, finished⟩
      cases finished
      rcases spells_decodeHeadRef.repeated removals with ⟨rfl, spelt⟩
      rw [opEncoding_eq, spells_string _ _ _ paths,
        spells_boundedCount _ _ _ counts, spelt,
        spells_optional spells_decodePut _ _ _ puts]
      simp only [append_assoc]

theorem decodeOpsFrom_eq_ok {count : Nat} {bytes rest : List UInt8}
    {ops : List DeltaOp} (ran : (decodeOpsFrom count seen).run bytes = .ok (ops, rest)) :
    ops.length = count ∧ bytes = ops.flatMap NativeDelta.opEncoding ++ rest := by
  induction count generalizing seen bytes ops with
  | zero =>
    cases ran
    exact ⟨rfl, rfl⟩
  | succ count induction =>
    rcases run_bind_eq_ok_iff.mp ran with ⟨op, _, first, ran⟩
    rcases run_bind_eq_ok_iff.mp ran with ⟨others, _, later, finished⟩
    cases finished
    rcases induction later with ⟨length, spelt⟩
    refine ⟨by rw [length_cons, length], ?_⟩
    rw [spells_decodeOp _ _ _ _ first, spelt, flatMap_cons, append_assoc]

theorem spells_decodeOps : Spells decodeOps fun ops =>
    putU32 ops.length ++ ops.flatMap NativeDelta.opEncoding := by
  intro bytes ops rest ran
  rcases run_bind_eq_ok_iff.mp ran with ⟨count, _, counts, decided⟩
  split at decided
  · cases decided
  · rcases decodeOpsFrom_eq_ok decided with ⟨rfl, spelt⟩
    rw [spells_boundedCount _ _ _ counts, spelt, append_assoc]

/-! ## Headers -/

def HeaderFields.encode (header : HeaderFields) : List UInt8 :=
  nativeDomainTag "YLNKndH" ++ (putStr header.groupId ++ (header.author.encode ++
    (putU64 header.seq ++ (putOptional putDeltaHash header.prev ++
      (putOptional RecursivePart.encode header.recursivePart ++
        beBytes 32 header.bodyDigest.toNat)))))

def NativeDelta.header (crypto : Crypto) (delta : NativeDelta) : HeaderFields where
  groupId := delta.groupId
  author := delta.author
  seq := delta.seq
  prev := delta.prev
  recursivePart := delta.recursivePart
  bodyDigest := delta.bodyDigest crypto

theorem NativeDelta.unsignedHeaderEncoding_eq (crypto : Crypto) (delta : NativeDelta) :
    delta.unsignedHeaderEncoding crypto = (delta.header crypto).encode := by
  rcases delta with ⟨groupId, author, seq, prev, ops, part, signature⟩
  cases prev <;> cases part <;>
    simp [unsignedHeaderEncoding, header, HeaderFields.encode, putOptional, putDeltaHash,
      RecursivePart.encode, bodyDigest, bodyEncoding]

theorem HeaderFields.spells_decode : Spells HeaderFields.decode HeaderFields.encode := by
  intro bytes header rest ran
  rcases run_bind_eq_ok_iff.mp ran with ⟨_, _, tags, ran⟩
  rcases run_bind_eq_ok_iff.mp ran with ⟨groupId, _, groups, ran⟩
  rcases run_bind_eq_ok_iff.mp ran with ⟨author, _, authors, ran⟩
  rcases run_bind_eq_ok_iff.mp ran with ⟨seq, _, seqs, decided⟩
  split at decided
  · cases decided
  · split at decided
    · cases decided
    · rcases run_bind_eq_ok_iff.mp decided with ⟨prev, _, prevs, ran⟩
      rcases run_bind_eq_ok_iff.mp ran with ⟨part, _, parts, ran⟩
      rcases run_bind_eq_ok_iff.mp ran with ⟨digest, _, digests, finished⟩
      cases finished
      rw [spells_readNativeTag (by decide) _ _ _ tags, spells_string _ _ _ groups,
        spells_decodeAuthorId _ _ _ authors, spells_u64 _ _ _ seqs,
        spells_optional spells_decodeDeltaHash _ _ _ prevs,
        spells_optional spells_decodeRecursivePart _ _ _ parts,
        spells_array32 _ _ _ digests, HeaderFields.encode]
      simp only [append_assoc]

theorem NativeDelta.toWireBytes_of_decode {crypto : Crypto} {bytes rest : List UInt8}
    {delta : NativeDelta} (ran : (NativeDelta.decode crypto).run bytes = .ok (delta, rest)) :
    delta.toWireBytes crypto = bytes := by
  rcases run_bind_eq_ok_iff.mp ran with ⟨_, _, tags, ran⟩
  rcases run_bind_eq_ok_iff.mp ran with ⟨header, _, headers, ran⟩
  rcases run_bind_eq_ok_iff.mp ran with ⟨signature, _, signatures, ran⟩
  rcases run_bind_eq_ok_iff.mp ran with ⟨body, _, looks, ran⟩
  rcases run_bind_eq_ok_iff.mp ran with ⟨ops, _, readOps, ran⟩
  rcases run_bind_eq_ok_iff.mp ran with ⟨_, _, ends, decided⟩
  cases looks
  split at decided
  · cases decided
  · rename_i digests
    rw [not_not] at digests
    cases decided
    have spelt := spells_decodeOps _ _ _ readOps
    dsimp only at spelt
    rw [(run_expectEnd_eq_ok ends).1, append_nil] at spelt
    have covered : NativeDelta.header crypto
        ⟨header.groupId, header.author, header.seq, header.prev, ops, header.recursivePart,
          signature⟩ = header := by
      rw [NativeDelta.header, bodyDigest, bodyEncoding, ← spelt, digests]
    rw [toWireBytes, unsignedHeaderEncoding_eq, covered, bodyEncoding, ← spelt,
      spells_readNativeTag (by decide) _ _ _ tags, HeaderFields.spells_decode _ _ _ headers,
      spells_array64 _ _ _ signatures]
    simp only [append_assoc]

/-! ## What is encoded is read back -/

namespace ByteReader

theorem reads_string {text : String} (fits : (utf8Bytes text).length < 2 ^ 32) :
    Reads string (putStr text) text := by
  intro rest
  rw [string, putStr, (reads_lenBytes fits).run_bind]
  simp only [fromUtf8_utf8Bytes]
  rfl

theorem reads_array (count : Nat) (value : BitVec (8 * count)) :
    Reads (array count) (beBytes count value.toNat) value := by
  have fits : value.toNat < 256 ^ count := by
    rw [byte_pow]
    exact value.isLt
  have reads := (reads_take (beBytes_length count value.toNat)).finish fun bytes =>
    BitVec.ofNat (8 * count) (beValue bytes)
  rw [beValue_beBytes fits, BitVec.ofNat_toNat, BitVec.setWidth_eq] at reads
  exact reads

theorem reads_array16 (value : BitVec 128) : Reads array16 (beBytes 16 value.toNat) value :=
  reads_array 16 value

theorem reads_array32 (value : BitVec 256) : Reads array32 (beBytes 32 value.toNat) value :=
  reads_array 32 value

theorem reads_array64 (value : BitVec 512) : Reads array64 (beBytes 64 value.toNat) value :=
  reads_array 64 value

end ByteReader

theorem reads_readNativeTag
    (length : expected.length = 8) : Reads (readNativeTag expected what) expected () := by
  have passes : checkNativeTag expected expected what = .ok () := by simp [checkNativeTag]
  intro rest
  rw [readNativeTag, (reads_take length).run_bind, passes]
  rfl

/-- The text fits the length that is written before it. -/
def FitsLength (text : String) : Prop := (utf8Bytes text).length < 2 ^ 32

theorem reads_decodeAuthorId {author : AuthorId} (valid : author.isValid = true)
    (fits : FitsLength author.device) : Reads decodeAuthorId author.encode author := by
  intro rest
  rw [decodeAuthorId, AuthorId.encode, append_assoc, (reads_string fits).run_bind,
    (reads_array16 _).run_bind, if_neg (of_decide_eq_true valid)]
  rfl

theorem reads_decodeDeltaHash (hash : DeltaHash) : Reads decodeDeltaHash (putDeltaHash hash) hash :=
  (reads_array32 hash.bits).finish DeltaHash.mk

theorem reads_decodePut (put : DeltaPut) : Reads decodePut put.encode put :=
  (reads_array32 put.version.bits).finish fun bits => DeltaPut.mk ⟨bits⟩

theorem reads_decodeRecursivePart {part : RecursivePart} (valid : part.isValid = true) :
    Reads decodeRecursivePart part.encode part := by
  simp only [RecursivePart.isValid, Bool.and_eq_true, decide_eq_true_eq] at valid
  rcases valid with ⟨⟨named, within⟩, fits⟩
  intro rest
  rw [decodeRecursivePart, RecursivePart.encode, append_assoc, append_assoc,
    (reads_array16 _).run_bind, if_neg named,
    (reads_u32 (by omega)).run_bind, (reads_u32 fits).run_bind,
    if_neg (by omega)]
  rfl

theorem reads_decodeHeadRef {removal : HeadRef} (valid : removal.isValid = true)
    (fits : FitsLength removal.dot.author.device) :
    Reads decodeHeadRef (NativeDelta.headRefEncoding removal) removal := by
  simp only [HeadRef.isValid, AuthorSeq.inRange, Bool.and_eq_true, decide_eq_true_eq] at valid
  have stored : removal.dot.seq < 2 ^ 64 := by
    have top := valid.2.2
    rw [AuthorSeq.max] at top
    omega
  intro rest
  rw [decodeHeadRef, headRefEncoding, append_assoc, append_assoc,
    (reads_decodeAuthorId valid.1 fits).run_bind, (reads_u64 stored).run_bind,
    if_neg (not_not.mpr valid.2), ← putDeltaHash, (reads_decodeDeltaHash _).run_bind]
  rfl

theorem length_headRefEncoding (removal : HeadRef) :
    60 ≤ (NativeDelta.headRefEncoding removal).length := by
  simp only [headRefEncoding, AuthorId.encode, length_append, putStr,
    length_putLenBytes, putU64, beBytes_length]
  omega

theorem length_utf8Bytes (text : String) :
    (utf8Bytes text).length = PathRules.byteLength text.toList := by
  rw [utf8Bytes, PathRules.byteLength, length_flatMap]
  simp only [String.length_utf8EncodeChar]

theorem fitsLength_of_validatePath {path : SyncPath} (valid : (validatePath path).isOk = true) :
    FitsLength path := by
  rw [FitsLength, length_utf8Bytes]
  by_contra long
  have tooLong : PathRules.byteLength path.toList > maxPathBytes := by
    rw [maxPathBytes]
    omega
  rw [validatePath] at valid
  split at valid
  · cases valid
  · cases valid

/-- What the decoder takes a delta to be: the checks it makes, and texts of a length that fits the
four bytes it is written in. -/
structure NativeDelta.WithinLimits (delta : NativeDelta) : Prop where
  decodable : delta.decodable = true
  groupId : FitsLength delta.groupId
  author : FitsLength delta.author.device
  removed : ∀ op ∈ delta.ops, ∀ removal ∈ op.removes, FitsLength removal.dot.author.device

theorem reads_decodeOp {op : DeltaOp} (valid : op.isValid = true)
    (fresh : op.path ∉ seen) (fits : ∀ removal ∈ op.removes, FitsLength removal.dot.author.device) :
    Reads (decodeOp seen) (NativeDelta.opEncoding op) op := by
  simp only [DeltaOp.isValid, Bool.and_eq_true, decide_eq_true_eq, all_eq_true] at valid
  rcases valid with ⟨⟨isPath, few⟩, removals⟩
  have readRemoves := reads_repeated fun removal member =>
    reads_decodeHeadRef (removals removal member) (fits removal member)
  have readPut := @reads_optional _ ChangeError.badPutFlag decodePut DeltaPut.encode
    op.put fun put _ => reads_decodePut put
  have counted := mul_length_le_flatMap op.removes fun removal _ => length_headRefEncoding removal
  have readRest : Reads (do
      let removesCount ← ByteReader.boundedCount 60 maxRemovesPerOp
      let removes ← repeated decodeHeadRef removesCount
      let put ← ByteReader.optional .badPutFlag decodePut
      return DeltaOp.mk op.path removes put)
      (putU32 op.removes.length ++ (op.removes.flatMap headRefEncoding ++
        putOptional DeltaPut.encode op.put)) op := by
    apply reads_boundedCount (by rw [maxRemovesPerOp] at few; omega) few
    · rw [length_append]
      omega
    · exact readRemoves.bind (readPut.finish (DeltaOp.mk op.path op.removes))
  have passes : validatePath op.path = .ok () := by
    cases checked : validatePath op.path with
    | error fault =>
      rw [checked] at isPath
      cases isPath
    | ok passed => rfl
  rw [← append_assoc] at readRest
  intro rest
  rw [opEncoding_eq, decodeOp, append_assoc,
    (reads_string (fitsLength_of_validatePath isPath)).run_bind]
  simp only [passes, if_neg fresh]
  exact readRest rest

theorem reads_decodeOpsFrom {ops : List DeltaOp}
    (valid : ∀ op ∈ ops, op.isValid = true) (fresh : ∀ op ∈ ops, op.path ∉ seen)
    (distinct : (ops.map DeltaOp.path).Nodup)
    (fits : ∀ op ∈ ops, ∀ removal ∈ op.removes, FitsLength removal.dot.author.device) :
    Reads (decodeOpsFrom ops.length seen) (ops.flatMap NativeDelta.opEncoding) ops := by
  induction ops generalizing seen with
  | nil => exact Reads.pure []
  | cons op others induction =>
    rw [map_cons, nodup_cons] at distinct
    have first := reads_decodeOp (valid op mem_cons_self) (fresh op mem_cons_self)
      (fits op mem_cons_self)
    have later := @induction (op.path :: seen)
      (fun other member => valid other (.tail _ member)) (by
        intro other member listed
        rcases mem_cons.mp listed with same | earlier
        · exact distinct.1 (same ▸ mem_map_of_mem member)
        · exact fresh other (.tail _ member) earlier) distinct.2
      (fun other member => fits other (.tail _ member))
    exact first.bind (later.finish (op :: ·))

namespace NativeDelta.WithinLimits

variable {delta : NativeDelta} (within : delta.WithinLimits)

include within

theorem reads_ops : Reads decodeOps delta.bodyEncoding delta.ops := by
  have decodable := within.decodable
  simp only [NativeDelta.decodable, Bool.and_eq_true, decide_eq_true_eq, all_eq_true,
    Bool.not_eq_true', isEmpty_eq_false_iff] at decodable
  rcases decodable with ⟨⟨⟨⟨_, some⟩, few⟩, distinct⟩, valid⟩
  have counted := @mul_length_le_flatMap _ opEncoding 4 delta.ops fun op _ => by
    rw [opEncoding_eq, length_append, putStr, length_putLenBytes]
    omega
  apply reads_boundedCount (by rw [maxOps] at few; omega) few counted
  rw [if_neg fun none => some (length_eq_zero_iff.mp none)]
  exact reads_decodeOpsFrom valid (fun _ _ => not_mem_nil) distinct within.removed

theorem reads_header (crypto : Crypto) :
    Reads HeaderFields.decode (delta.unsignedHeaderEncoding crypto) (delta.header crypto) := by
  have decodable := within.decodable
  simp only [NativeDelta.decodable, AuthorSeq.inRange, Bool.and_eq_true, decide_eq_true_eq] at decodable
  rcases decodable with ⟨⟨⟨⟨⟨⟨author, first, last⟩, part⟩, _⟩, _⟩, _⟩, _⟩
  have stored : delta.seq < 2 ^ 64 := by
    rw [AuthorSeq.max] at last
    omega
  have readPrev := @reads_optional _ ChangeError.badPrevFlag decodeDeltaHash putDeltaHash
    delta.prev fun hash _ => reads_decodeDeltaHash hash
  have readPart := @reads_optional _ ChangeError.badPartFlag decodeRecursivePart
    RecursivePart.encode delta.recursivePart fun found isPart =>
      reads_decodeRecursivePart (by rw [isPart] at part; exact part)
  intro rest
  rw [unsignedHeaderEncoding_eq, HeaderFields.decode, HeaderFields.encode]
  simp only [header, append_assoc]
  rw [(reads_readNativeTag (by decide)).run_bind, (reads_string within.groupId).run_bind,
    (reads_decodeAuthorId author within.author).run_bind,
    (reads_u64 stored).run_bind, if_neg (Nat.not_lt.mpr last),
    if_neg (Nat.not_lt.mpr first), readPrev.run_bind, readPart.run_bind,
    (reads_array32 _).run_bind]
  rfl

theorem fromWireBytes_toWireBytes (crypto : Crypto) :
    fromWireBytes crypto (delta.toWireBytes crypto) = .ok delta := by
  have ran : (decode crypto).run (delta.toWireBytes crypto) = .ok (delta, []) := by
    rw [toWireBytes, decode]
    simp only [append_assoc]
    rw [(reads_readNativeTag (by decide)).run_bind, (within.reads_header crypto).run_bind,
      (reads_array64 _).run_bind, run_get_bind, within.reads_ops.run_bind_nil,
      run_expectEnd_bind]
    exact congrArg (fun work : ByteReader NativeDelta => work.run []) (if_neg (not_not.mpr rfl))
  rw [fromWireBytes, ran]
  rfl

end NativeDelta.WithinLimits

/-- A delta has one encoding on the wire: bytes that are accepted are those of the delta they give,
and a delta within the limits is read back from its own. Its header decides every field but the
signature, as long as the digest tells the two bodies apart. -/
theorem signed_deltas_have_one_encoding (crypto : Crypto) :
    (∀ bytes delta, NativeDelta.fromWireBytes crypto bytes = .ok delta →
      delta.toWireBytes crypto = bytes) ∧
    (∀ delta : NativeDelta, delta.WithinLimits →
      NativeDelta.fromWireBytes crypto (delta.toWireBytes crypto) = .ok delta) ∧
    ∀ first second : NativeDelta, first.WithinLimits → second.WithinLimits →
      ∀ hashed : Set (List UInt8), Set.InjOn crypto.sha256 hashed →
        nativeDomainTag "YLNKndB" ++ first.bodyEncoding ∈ hashed →
        nativeDomainTag "YLNKndB" ++ second.bodyEncoding ∈ hashed →
        first.unsignedHeaderEncoding crypto = second.unsignedHeaderEncoding crypto →
          first.unsigned = second.unsigned := by
  refine ⟨?_, fun delta within => within.fromWireBytes_toWireBytes crypto, ?_⟩
  · intro bytes delta decoded
    rcases Fallible.bind_eq_ok_iff.mp decoded with ⟨⟨read, rest⟩, ran, finished⟩
    cases finished
    exact NativeDelta.toWireBytes_of_decode ran
  · intro first second firstWithin secondWithin hashed collisionFree firstHashed secondHashed same
    have headers := (same ▸ firstWithin.reads_header crypto).unique
      (secondWithin.reads_header crypto)
    simp only [NativeDelta.header, HeaderFields.mk.injEq] at headers
    rcases headers with ⟨groupId, author, seq, prev, part, digest⟩
    have bodies := List.append_cancel_left (collisionFree firstHashed secondHashed digest)
    have ops := (bodies ▸ firstWithin.reads_ops).unique secondWithin.reads_ops
    rcases first with ⟨⟩
    rcases second with ⟨⟩
    simp only at groupId author seq prev part ops
    subst groupId author seq prev part ops
    rfl

end Yadorilink
