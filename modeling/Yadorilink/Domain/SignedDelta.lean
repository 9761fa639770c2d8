import Yadorilink.Domain.NativeState
import Yadorilink.Domain.PathRules

/-! The signed object that carries one mutation between replicas: its fields,
the bytes that are hashed and signed, and the checks a decoded delta has
passed. Hashing and signatures are third-party code and enter as functions. -/

namespace Yadorilink

open Std

/-! ## Cryptography -/

abbrev VerifyingKey := BitVec 256

abbrev Signature := BitVec 512

/-- The primitives the program takes from libraries. -/
structure Crypto where
  sha256 : List UInt8 → BitVec 256
  /-- Whether the bytes are a public key at all. -/
  validKey : VerifyingKey → Bool
  verify : VerifyingKey → List UInt8 → Signature → Bool

/-- A stand-in for the primitives that is small enough to evaluate: a
polynomial digest, and signatures that spell out key and digest. -/
def Crypto.sample : Crypto :=
  let digest : List UInt8 → Nat := fun bytes =>
    bytes.foldl (fun digest byte => (digest * 257 + byte.toNat + 1) % 2 ^ 256) 0
  { sha256 := fun bytes => BitVec.ofNat 256 (digest bytes)
    validKey := fun _ => true
    verify := fun key bytes signature =>
      signature = BitVec.ofNat 512 (key.toNat + 2 ^ 256 * digest bytes) }

/-- The signature the stand-in accepts under `key`. -/
def Crypto.sampleSign (key : VerifyingKey) (bytes : List UInt8) : Signature :=
  BitVec.ofNat 512 (key.toNat + 2 ^ 256 * (Crypto.sample.sha256 bytes).toNat)

/-! ## Byte layout -/

/-- The low `width` bytes of `value`, most significant first. -/
def beBytes : Nat → Nat → List UInt8
  | 0, _ => []
  | width + 1, value => UInt8.ofNat (value / 256 ^ width) :: beBytes width value

def putU32 (value : Nat) : List UInt8 := beBytes 4 value

def putU64 (value : Nat) : List UInt8 := beBytes 8 value

def putLenBytes (bytes : List UInt8) : List UInt8 := putU32 bytes.length ++ bytes

theorem beBytes_length (width value : Nat) : (beBytes width value).length = width := by
  induction width with
  | zero => rfl
  | succ width induction => rw [beBytes, List.length_cons, induction]

def utf8Bytes (text : String) : List UInt8 := text.toList.flatMap String.utf8EncodeChar

def putStr (text : String) : List UInt8 := putLenBytes (utf8Bytes text)

/-- The generation byte closing every native domain tag. -/
def nativeProtocolGeneration : UInt8 := 9

def nativeDomainTag (kind : String) : List UInt8 :=
  utf8Bytes kind ++ [nativeProtocolGeneration]

def AuthorId.encode (author : AuthorId) : List UInt8 :=
  putStr author.device ++ beBytes 16 author.incarnation.toNat

/-! ## Deltas -/

/-- Content landed at a path; its provenance is derived by the receiver. -/
structure DeltaPut where
  version : VersionHash
deriving DecidableEq

/-- One path's edit within a delta. -/
structure DeltaOp where
  path : SyncPath
  removes : List HeadRef
  put : Option DeltaPut
deriving DecidableEq

/-- The recursive operation a delta is one part of. -/
structure RecursivePart where
  operationId : BitVec 128
  partIndex : Nat
  partCount : Nat
deriving DecidableEq

/-- One signed mutation. `prev` names the author's own previous delta. -/
structure NativeDelta where
  groupId : FolderGroupId
  author : AuthorId
  seq : Nat
  prev : Option DeltaHash
  ops : List DeltaOp
  recursivePart : Option RecursivePart
  signature : Signature
deriving DecidableEq

namespace NativeDelta

def dot (delta : NativeDelta) : Dot := ⟨delta.author, delta.seq⟩

def headRefEncoding (removal : HeadRef) : List UInt8 :=
  removal.dot.author.encode ++ putU64 removal.dot.seq ++ beBytes 32 removal.provenance.bits.toNat

def opEncoding (op : DeltaOp) : List UInt8 :=
  putStr op.path ++ putU32 op.removes.length ++ op.removes.flatMap headRefEncoding ++
    match op.put with
    | none => [0]
    | some put => 1 :: beBytes 32 put.version.bits.toNat

def bodyEncoding (delta : NativeDelta) : List UInt8 :=
  putU32 delta.ops.length ++ delta.ops.flatMap opEncoding

def bodyDigest (crypto : Crypto) (delta : NativeDelta) : BitVec 256 :=
  crypto.sha256 (nativeDomainTag "YLNKndB" ++ delta.bodyEncoding)

/-- The header this delta signs. It commits to the body through its digest. -/
def unsignedHeaderEncoding (crypto : Crypto) (delta : NativeDelta) : List UInt8 :=
  nativeDomainTag "YLNKndH" ++ putStr delta.groupId ++ delta.author.encode ++
    putU64 delta.seq ++
    (match delta.prev with
      | none => [0]
      | some prev => 1 :: beBytes 32 prev.bits.toNat) ++
    (match delta.recursivePart with
      | none => [0]
      | some part =>
        1 :: beBytes 16 part.operationId.toNat ++ putU32 part.partIndex ++ putU32 part.partCount) ++
    beBytes 32 (delta.bodyDigest crypto).toNat

def toWireBytes (crypto : Crypto) (delta : NativeDelta) : List UInt8 :=
  nativeDomainTag "YLNKndl" ++ delta.unsignedHeaderEncoding crypto ++
    beBytes 64 delta.signature.toNat ++ delta.bodyEncoding

/-- The delta's identity, and the provenance of every head it lands. -/
def deltaHash (crypto : Crypto) (delta : NativeDelta) : DeltaHash :=
  ⟨crypto.sha256 (delta.unsignedHeaderEncoding crypto)⟩

/-- The part of a delta its hash covers: everything but the signature. -/
def unsigned (delta : NativeDelta) : NativeDelta := { delta with signature := 0 }

theorem eq_of_unsigned {first second : NativeDelta} (same : first.unsigned = second.unsigned) :
    first.dot = second.dot ∧ first.ops = second.ops ∧
      ∀ crypto, first.deltaHash crypto = second.deltaHash crypto := by
  cases first
  cases second
  simp only [unsigned, mk.injEq] at same
  rcases same with ⟨rfl, rfl, rfl, rfl, rfl, rfl, _⟩
  exact ⟨rfl, rfl, fun _ => rfl⟩

/-- The delta with the signature `sign` gives its header. -/
def signedBy (crypto : Crypto) (sign : List UInt8 → Signature) (delta : NativeDelta) :
    NativeDelta :=
  { delta with signature := sign (delta.unsignedHeaderEncoding crypto) }

def verifySignature (crypto : Crypto) (delta : NativeDelta) (key : VerifyingKey) : Bool :=
  crypto.verify key (delta.unsignedHeaderEncoding crypto) delta.signature

/-- Every dot the delta's removals name, in the order the ops list them. -/
def namedDots (delta : NativeDelta) : List Dot :=
  delta.ops.flatMap fun op => op.removes.map HeadRef.dot

def Puts (delta : NativeDelta) (path : SyncPath) (version : VersionHash) : Prop :=
  ∃ op, op ∈ delta.ops ∧ op.path = path ∧ op.put = some ⟨version⟩

def Removes (delta : NativeDelta) (path : SyncPath) (removal : HeadRef) : Prop :=
  ∃ op, op ∈ delta.ops ∧ op.path = path ∧ removal ∈ op.removes

/-- No op names a dot twice. Decoding does not check this; the state does. -/
def RemovalsDistinct (delta : NativeDelta) : Prop :=
  ∀ op, op ∈ delta.ops → (op.removes.map HeadRef.dot).Nodup

theorem mem_namedDots_of_removes {delta : NativeDelta} {path : SyncPath} {removal : HeadRef}
    (removes : delta.Removes path removal) : removal.dot ∈ delta.namedDots := by
  rcases removes with ⟨op, member, _, inOp⟩
  exact List.mem_flatMap.mpr ⟨op, member, List.mem_map_of_mem inOp⟩

end NativeDelta

/-- No two of the deltas that differ in what is hashed have one hash. -/
def HashCollisionFree (crypto : Crypto) (deltas : List NativeDelta) : Prop :=
  ∀ first, first ∈ deltas → ∀ second, second ∈ deltas →
    first.deltaHash crypto = second.deltaHash crypto → first.unsigned = second.unsigned

def sampleFirst : NativeDelta :=
  NativeDelta.signedBy Crypto.sample (Crypto.sampleSign 5)
    ⟨"group", ⟨"laptop", 1⟩, 1, none, [⟨"notes", [], some ⟨⟨7⟩⟩⟩], none, 0⟩

def sampleSecond : NativeDelta :=
  let head : HeadRef := ⟨sampleFirst.dot, sampleFirst.deltaHash Crypto.sample⟩
  NativeDelta.signedBy Crypto.sample (Crypto.sampleSign 5)
    ⟨"group", ⟨"laptop", 1⟩, 2, some head.provenance, [⟨"notes", [head], some ⟨⟨8⟩⟩⟩], none, 0⟩

/-! ## What decoding checks -/

def maxOps : Nat := 2 ^ 16

def maxRemovesPerOp : Nat := 64

def AuthorId.isValid (author : AuthorId) : Bool := author.incarnation ≠ IncarnationId.reserved

def AuthorSeq.inRange (seq : Nat) : Bool := AuthorSeq.first ≤ seq && seq ≤ AuthorSeq.max

def RecursivePart.isValid (part : RecursivePart) : Bool :=
  part.operationId ≠ 0 && part.partIndex < part.partCount && part.partCount < 2 ^ 32

def HeadRef.isValid (removal : HeadRef) : Bool :=
  removal.dot.author.isValid && AuthorSeq.inRange removal.dot.seq

def DeltaOp.isValid (op : DeltaOp) : Bool :=
  (validatePath op.path).isOk && op.removes.length ≤ maxRemovesPerOp &&
    op.removes.all HeadRef.isValid

/-- The checks every delta that came out of `from_wire_bytes` has passed. -/
def NativeDelta.decodable (delta : NativeDelta) : Bool :=
  delta.author.isValid && AuthorSeq.inRange delta.seq &&
    delta.recursivePart.all RecursivePart.isValid &&
    !delta.ops.isEmpty && delta.ops.length ≤ maxOps &&
    decide (delta.ops.map DeltaOp.path).Nodup && delta.ops.all DeltaOp.isValid

namespace NativeDelta

variable {delta : NativeDelta}

theorem seq_inRange (decodes : delta.decodable = true) :
    AuthorSeq.first ≤ delta.seq ∧ delta.seq ≤ AuthorSeq.max := by
  simp only [decodable, AuthorSeq.inRange, Bool.and_eq_true, decide_eq_true_eq] at decodes
  exact decodes.1.1.1.1.1.2

theorem paths_nodup (decodes : delta.decodable = true) : (delta.ops.map DeltaOp.path).Nodup := by
  simp only [decodable, Bool.and_eq_true, decide_eq_true_eq] at decodes
  exact decodes.1.2

end NativeDelta

end Yadorilink
