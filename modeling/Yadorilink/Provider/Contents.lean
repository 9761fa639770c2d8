import Yadorilink.Domain.NativeFork

/-! The identity of a version's content, as the provider writes it down: a text of the size, the
kind, the blocks and the symlink target. A kept edit is told from another by that text with the
mode and the replicated attributes after it. -/

namespace Yadorilink

open List

def RecordKind.debug : RecordKind → List Char
  | .file => "File".toList
  | .directory => "Directory".toList
  | .symlink => "Symlink".toList

def VersionBlock.sig (block : VersionBlock) : List Char :=
  hexEncode block.hash ++ ':' :: (Nat.toDigits 10 block.size ++ [','])

def FileVersion.contentSig (version : FileVersion) : List Char :=
  Nat.toDigits 10 version.size ++ '|' :: (version.fileMeta.recordKind.debug ++
    '|' :: (version.blocks.flatMap VersionBlock.sig ++
      '|' :: (version.fileMeta.symlinkTarget.elim [] hexEncode)))

def debugMode : Option Nat → List Char
  | none => "None".toList
  | some mode => "Some(".toList ++ Nat.toDigits 10 mode ++ [')']

/-- The order of attributes: by name, then by value. -/
def xattrLe (first second : String × List UInt8) : Bool :=
  decide (first.1 < second.1) || (first.1 == second.1 && !bytesLt second.2 first.2)

/-- `kept_edit_semantic_key`: the bytes and the replicated metadata, without the times. -/
def FileVersion.keptEditSemanticKey (version : FileVersion) : List Char :=
  version.contentSig ++ ("|mode:".toList ++ debugMode version.fileMeta.unixMode ++
    (version.fileMeta.xattrs.insertionSort (xattrLe · ·)).flatMap fun xattr =>
      "|x:".toList ++ Nat.toDigits 10 xattr.1.utf8ByteSize ++ ':' :: xattr.1.toList ++
        '=' :: hexEncode xattr.2)

/-! ## Texts without separators -/

theorem hexDigit_isAlphanum : ∀ value : Fin 16, (hexDigit value.val).isAlphanum = true := by
  decide

theorem hexDigit_injective : ∀ first second : Fin 16,
    hexDigit first.val = hexDigit second.val → first = second := by
  decide

theorem isAlphanum_of_mem_hexEncode {bytes : List UInt8} {char : Char}
    (member : char ∈ hexEncode bytes) : char.isAlphanum = true := by
  rcases mem_flatMap.mp member with ⟨byte, _, digit⟩
  have below := byte.toNat_lt
  rcases mem_cons.mp digit with rfl | last
  · exact hexDigit_isAlphanum ⟨byte.toNat / 16, by omega⟩
  · cases mem_singleton.mp last
    exact hexDigit_isAlphanum ⟨byte.toNat % 16, by omega⟩

theorem hexEncode_cons (byte : UInt8) (bytes : List UInt8) : hexEncode (byte :: bytes) =
      hexDigit (byte.toNat / 16) :: hexDigit (byte.toNat % 16) :: hexEncode bytes := rfl

theorem hexEncode_injective : Function.Injective hexEncode := by
  intro first
  induction first with
  | nil =>
    intro second same
    cases second with
    | nil => rfl
    | cons byte bytes =>
      rw [hexEncode_cons] at same
      cases same
  | cons byte bytes induction =>
    intro second same
    cases second with
    | nil =>
      rw [hexEncode_cons] at same
      cases same
    | cons other others =>
      rw [hexEncode_cons, hexEncode_cons] at same
      injection same with high rest
      injection rest with low rest
      have below := byte.toNat_lt
      have otherBelow := other.toNat_lt
      have highs := congrArg Fin.val (hexDigit_injective
        ⟨byte.toNat / 16, by omega⟩ ⟨other.toNat / 16, by omega⟩ high)
      have lows := congrArg Fin.val (hexDigit_injective
        ⟨byte.toNat % 16, by omega⟩ ⟨other.toNat % 16, by omega⟩ low)
      have bytes_eq : byte = other := by
        apply UInt8.toNat.inj
        simp only at highs lows
        omega
      rw [bytes_eq, induction rest]

theorem notMem_toDigits {char : Char} {value : Nat} (other : char.isDigit = false) :
    char ∉ Nat.toDigits 10 value := by
  intro member
  rw [Nat.isDigit_of_mem_toDigits (by decide) (by decide) member] at other
  cases other

theorem toDigits_injective : Function.Injective (Nat.toDigits 10) := by
  intro first second same
  rw [← Nat.ofDigitChars_ten_toDigits (n := first), same, Nat.ofDigitChars_ten_toDigits]

theorem notMem_hexEncode {char : Char} {bytes : List UInt8} (other : char.isAlphanum = false) :
    char ∉ hexEncode bytes := by
  intro member
  rw [isAlphanum_of_mem_hexEncode member] at other
  cases other

theorem cut_inj {separator : Char} {first second rest others : List Char}
    (free : separator ∉ first) (otherFree : separator ∉ second)
    (same : first ++ separator :: rest = second ++ separator :: others) :
    first = second ∧ rest = others := by
  induction first generalizing second with
  | nil =>
    cases second with
    | nil =>
      injection same with _ rests
      exact ⟨rfl, rests⟩
    | cons char chars =>
      injection same with heads _
      exact absurd (heads ▸ .head _) otherFree
  | cons char chars induction =>
    cases second with
    | nil =>
      injection same with heads _
      exact absurd (heads ▸ .head _) free
    | cons other others' =>
      injection same with heads tails
      rcases induction (not_mem_of_not_mem_cons free)
        (not_mem_of_not_mem_cons otherFree) tails with ⟨chars_eq, rests⟩
      exact ⟨by rw [heads, chars_eq], rests⟩

/-! ## What the texts tell apart -/

theorem VersionBlock.sig_append_inj {first second : VersionBlock} {rest others : List Char}
    (same : first.sig ++ rest = second.sig ++ others) : first = second ∧ rest = others := by
  rw [sig, sig, append_assoc, append_assoc, cons_append, cons_append,
    append_assoc, append_assoc] at same
  rcases cut_inj (notMem_hexEncode (by decide)) (notMem_hexEncode (by decide)) same with
    ⟨hashes, after⟩
  rcases cut_inj (notMem_toDigits (by decide)) (notMem_toDigits (by decide)) after with
    ⟨sizes, rests⟩
  cases first
  cases second
  rw [mk.injEq]
  exact ⟨⟨hexEncode_injective hashes, toDigits_injective sizes⟩, rests⟩

theorem VersionBlock.sig_ne_nil (block : VersionBlock) : block.sig ≠ [] := by
  rw [sig]
  exact append_ne_nil_of_right_ne_nil _ (cons_ne_nil _ _)

theorem flatMap_sig_injective :
    Function.Injective fun blocks : List VersionBlock => blocks.flatMap VersionBlock.sig := by
  intro first
  induction first with
  | nil =>
    intro second same
    cases second with
    | nil => rfl
    | cons block blocks =>
      simp only [flatMap_nil, flatMap_cons] at same
      exact absurd (append_eq_nil_iff.mp same.symm).1 block.sig_ne_nil
  | cons block blocks induction =>
    intro second same
    cases second with
    | nil =>
      simp only [flatMap_nil, flatMap_cons] at same
      exact absurd (append_eq_nil_iff.mp same).1 block.sig_ne_nil
    | cons other others =>
      simp only [flatMap_cons] at same
      rcases VersionBlock.sig_append_inj same with ⟨blocks_eq, rest⟩
      rw [blocks_eq, induction rest]

theorem notMem_flatMap_sig (blocks : List VersionBlock) :
    '|' ∉ blocks.flatMap VersionBlock.sig := by
  intro member
  rcases mem_flatMap.mp member with ⟨block, _, inBlock⟩
  rw [VersionBlock.sig, mem_append, mem_cons, mem_append] at inBlock
  rcases inBlock with hash | separator | size | comma
  · exact notMem_hexEncode (by decide) hash
  · cases separator
  · exact notMem_toDigits (by decide) size
  · cases mem_singleton.mp comma

theorem RecordKind.debug_injective : Function.Injective debug := by
  intro first second
  cases first <;> cases second <;> decide

theorem RecordKind.notMem_debug (kind : RecordKind) : '|' ∉ kind.debug := by
  cases kind <;> decide

namespace FileVersion

theorem contentSig_append_inj {first second : FileVersion} {rest others : List Char}
    (same : first.contentSig ++ rest = second.contentSig ++ others) :
    first.size = second.size ∧ first.fileMeta.recordKind = second.fileMeta.recordKind ∧
      first.blocks = second.blocks := by
  simp only [contentSig, append_assoc, cons_append] at same
  rcases cut_inj (notMem_toDigits (by decide)) (notMem_toDigits (by decide)) same with
    ⟨sizes, afterSize⟩
  rcases cut_inj (RecordKind.notMem_debug _) (RecordKind.notMem_debug _) afterSize with
    ⟨kinds, afterKind⟩
  rcases cut_inj (notMem_flatMap_sig _) (notMem_flatMap_sig _) afterKind with ⟨blocks, _⟩
  exact ⟨toDigits_injective sizes, RecordKind.debug_injective kinds, flatMap_sig_injective blocks⟩

end FileVersion

end Yadorilink
