import Yadorilink.Domain.SignedDelta

/-! File versions: the content-addressed records a delta's puts name by hash.
A version's encoding is what is hashed, stored and sent; the checks here are
those every version that was decoded has passed. -/

namespace Yadorilink

open Std List

inductive RecordKind where
  | file
  | directory
  | symlink
deriving DecidableEq

/-- What a materialized generation says a path names on disk. -/
inductive MaterializedObjectKind where
  | regularFile
  | directory
  | symlink
  | absent
  | structuralDirectory
deriving DecidableEq

/-- One block of a file: its content hash and its length in bytes. -/
structure VersionBlock where
  hash : List UInt8
  size : Nat
deriving DecidableEq

structure FileMeta where
  mtimeUnixNanos : Int
  /-- The permission bits, when the authoring device has any. -/
  unixMode : Option Nat
  symlinkTarget : Option (List UInt8)
  recordKind : RecordKind
  xattrs : List (String × List UInt8)
deriving DecidableEq

/-- One file's content and metadata. Its hash is derived, never stored in it. -/
structure FileVersion where
  blocks : List VersionBlock
  size : Nat
  fileMeta : FileMeta
deriving DecidableEq

/-! ## Encoding -/

def recordKindByte : RecordKind → UInt8
  | .file => 0
  | .directory => 1
  | .symlink => 2

/-- Two's complement, so that a time before the epoch has one encoding too. -/
def putI64 (value : Int) : List UInt8 := beBytes 8 (value % 2 ^ 64).toNat

def FileMeta.encode (fileMeta : FileMeta) : List UInt8 :=
  recordKindByte fileMeta.recordKind ::
    (match fileMeta.unixMode with
      | none => [0]
      | some mode => 1 :: putU32 mode) ++
    putI64 fileMeta.mtimeUnixNanos ++
    (match fileMeta.symlinkTarget with
      | none => [0]
      | some target => 1 :: putLenBytes target) ++
    putU32 fileMeta.xattrs.length ++
    fileMeta.xattrs.flatMap fun xattr => putStr xattr.1 ++ putLenBytes xattr.2

def VersionBlock.encode (block : VersionBlock) : List UInt8 :=
  putLenBytes block.hash ++ putU32 block.size

namespace FileVersion

def canonicalEncoding (version : FileVersion) : List UInt8 :=
  utf8Bytes "YLNKver" ++ [4] ++ putU64 version.size ++ putU32 version.blocks.length ++
    version.blocks.flatMap VersionBlock.encode ++ version.fileMeta.encode

def computeHash (crypto : Crypto) (version : FileVersion) : VersionHash :=
  ⟨crypto.sha256 version.canonicalEncoding⟩

def encodedLen (version : FileVersion) : Nat := version.canonicalEncoding.length

end FileVersion

/-! ## What decoding checks -/

def maxBlockSizeBytes : Nat := 16 * 1024 * 1024

def maxBlocks : Nat := 2 ^ 20

def maxEncodedVersionBytes : Nat := 4 * 1024 * 1024

/-- A length prefix, a 32-byte hash and the block's size. -/
def versionBlockEncodedBytes : Nat := 4 + 32 + 4

def maxXattrs : Nat := 256

def replicatedModeMask : Nat := 0o777

inductive VersionError where
  | tooManyBlocks (count : Nat)
  | tooLarge (encodedBytes maxBytes : Nat)
  | emptyMismatch
  | zeroLengthBlock
  | blockTooLarge (size : Nat)
  | blockSizeMismatch
  | strayBlocks
  | directorySizeOrTime
  | missingTarget
  | strayTarget
  | strayXattrs
deriving DecidableEq

namespace FileVersion

/-- One that large cannot ride in a replication item. The block list alone
decides most cases. -/
def validateEncodedLen (version : FileVersion) : Except VersionError Unit :=
  let blocksFloor := version.blocks.length * versionBlockEncodedBytes
  let encodedBytes :=
    if maxEncodedVersionBytes < blocksFloor then blocksFloor else version.encodedLen
  if maxEncodedVersionBytes < encodedBytes then
    .error (.tooLarge encodedBytes maxEncodedVersionBytes)
  else
    .ok ()

def blockFault (block : VersionBlock) : Option VersionError :=
  if block.size = 0 then some .zeroLengthBlock
  else if maxBlockSizeBytes < block.size then some (.blockTooLarge block.size)
  else none

def validateBlocks (version : FileVersion) : Except VersionError Unit :=
  match version.fileMeta.recordKind with
  | .file =>
    if version.blocks.isEmpty ≠ (version.size = 0 : Bool) then
      .error .emptyMismatch
    else
      match version.blocks.findSome? blockFault with
      | some fault => .error fault
      | none =>
        if (version.blocks.map VersionBlock.size).sum ≠ version.size then
          .error .blockSizeMismatch
        else
          .ok ()
  | .symlink | .directory =>
    if version.blocks.isEmpty then .ok () else .error .strayBlocks

/-- A symlink records its target and nothing else does. -/
def validateTarget (version : FileVersion) : Except VersionError Unit :=
  match version.fileMeta.recordKind with
  | .symlink => if version.fileMeta.symlinkTarget.isNone then .error .missingTarget else .ok ()
  | .file | .directory =>
    if version.fileMeta.symlinkTarget.isSome then .error .strayTarget else .ok ()

def validateStructure (version : FileVersion) : Except VersionError Unit := do
  if maxBlocks < version.blocks.length then
    throw (.tooManyBlocks version.blocks.length)
  version.validateEncodedLen
  version.validateBlocks
  if version.fileMeta.recordKind = .directory ∧
      (version.size ≠ 0 ∨ version.fileMeta.mtimeUnixNanos ≠ 0) then
    throw .directorySizeOrTime
  version.validateTarget
  if version.fileMeta.recordKind ≠ .file ∧ version.fileMeta.xattrs ≠ [] then
    throw .strayXattrs

end FileVersion

def bytesLt (left right : List UInt8) : Bool :=
  compare (left.map UInt8.toNat) (right.map UInt8.toNat) = .lt

/-- Permission bits in range; attributes few, sorted by name and of the one
namespace that is replicated. -/
def FileMeta.isValid (fileMeta : FileMeta) : Bool :=
  fileMeta.unixMode.all (fun mode => mode ≤ replicatedModeMask) &&
    fileMeta.xattrs.length ≤ maxXattrs &&
    decide ((fileMeta.xattrs.map fun xattr => utf8Bytes xattr.1).Pairwise
      fun earlier later => bytesLt earlier later = true) &&
    fileMeta.xattrs.all fun xattr => xattr.1.startsWith "user."

/-- The checks every version that came out of `from_canonical_encoding` has
passed. -/
def FileVersion.decodable (version : FileVersion) : Bool :=
  version.fileMeta.isValid && version.validateStructure.isOk

/-! ## Long versions -/

def VersionBlock.oneByte : VersionBlock := ⟨List.replicate 32 0, 1⟩

def FileVersion.ofBlocks (count : Nat) : FileVersion where
  blocks := List.replicate count .oneByte
  size := count
  fileMeta := ⟨0, none, none, .file, []⟩

theorem FileVersion.encodedLen_ofBlocks (count : Nat) :
    (FileVersion.ofBlocks count).encodedLen = 40 * count + 35 := by
  have tag : (utf8Bytes "YLNKver").length = 7 := by decide
  have block : VersionBlock.oneByte.encode.length = 40 := by decide
  have rest : (FileMeta.encode ⟨0, none, none, .file, []⟩).length = 15 := by decide
  simp only [encodedLen, canonicalEncoding, ofBlocks, length_append, tag, length_singleton,
    putU64, putU32, beBytes_length, rest, length_flatMap, map_replicate, block,
    sum_replicate_nat]
  omega

theorem FileVersion.decodable_ofBlocks {count : Nat} (nonempty : 0 < count)
    (within : 40 * count + 35 ≤ maxEncodedVersionBytes) :
    (FileVersion.ofBlocks count).decodable = true := by
  have few : ¬maxBlocks < count := by
    rw [maxEncodedVersionBytes] at within
    rw [maxBlocks]
    omega
  have floor : ¬maxEncodedVersionBytes < count * versionBlockEncodedBytes := by
    rw [versionBlockEncodedBytes]
    omega
  have len : (FileVersion.ofBlocks count).validateEncodedLen = .ok () := by
    have blocks : (FileVersion.ofBlocks count).blocks.length = count := length_replicate ..
    rw [validateEncodedLen]
    simp only [blocks, if_neg floor, encodedLen_ofBlocks]
    rw [if_neg (by omega)]
  have blocks : (FileVersion.ofBlocks count).validateBlocks = .ok () := by
    have sound : blockFault .oneByte = none := by decide
    have size : VersionBlock.oneByte.size = 1 := rfl
    have none : (List.replicate count VersionBlock.oneByte).findSome? blockFault = none := by
      rw [findSome?_eq_none_iff]
      intro block member
      rw [eq_of_mem_replicate member, sound]
    have positive : count ≠ 0 := by omega
    simp [validateBlocks, ofBlocks, none, positive, size]
  have structured : (FileVersion.ofBlocks count).validateStructure = .ok () := by
    have count_eq : (FileVersion.ofBlocks count).blocks.length = count := length_replicate ..
    rw [validateStructure, count_eq, if_neg few, len, blocks]
    rfl
  have valid : FileMeta.isValid ⟨0, none, none, .file, []⟩ = true := by decide
  rw [decodable, structured]
  exact Bool.and_eq_true_iff.mpr ⟨valid, rfl⟩

end Yadorilink
