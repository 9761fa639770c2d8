import Yadorilink.Namespace.Nodes

/-! The keys of paths and authors. A path's key is the bits of its UTF-8 bytes, an
author's key the bits of its length-prefixed encoding; both are read back exactly,
and no author's key begins another's. -/

namespace Yadorilink.Namespace

open Reading List

/-! ## Packing bits -/

theorem testBit_push_zero (value : Nat) (b : Bool) : (value * 2 + b.toNat).testBit 0 = b := by
  rw [Nat.testBit_zero]
  cases b <;> simp

theorem testBit_push_succ (value place : Nat) (b : Bool) :
    (value * 2 + b.toNat).testBit (place + 1) = value.testBit place := by
  have small := Bool.toNat_lt b
  rw [Nat.testBit_succ]
  congr 1
  omega

theorem byteBits_bitsByte (b₀ b₁ b₂ b₃ b₄ b₅ b₆ b₇ : Bool) :
    byteBits (bitsByte [b₀, b₁, b₂, b₃, b₄, b₅, b₆, b₇]) = [b₀, b₁, b₂, b₃, b₄, b₅, b₆, b₇] := by
  have first : b₀.toNat.testBit 0 = b₀ := by cases b₀ <;> rfl
  simp [bitsByte, byteBits, List.range, List.range.loop, testBit_push_zero, testBit_push_succ,
    first, -Nat.testBit_zero, -UInt8.ofNat_add, -UInt8.ofNat_mul, Nat.testBit_mod_two_pow _ 8]

theorem byteBits_injective {left right : UInt8} (same : byteBits left = byteBits right) :
    left = right := by
  apply UInt8.toNat_inj.mp
  apply Nat.eq_of_testBit_eq
  intro place
  by_cases inside : place < 8
  · have agree := map_inj_left.mp same (7 - place) (mem_range.mpr (by omega))
    rwa [show 7 - (7 - place) = place by omega] at agree
  · have above : 2 ^ 8 ≤ 2 ^ place := Nat.pow_le_pow_right (by decide) (by omega)
    rw [Nat.testBit_lt_two_pow (lt_of_lt_of_le left.toNat_lt above),
      Nat.testBit_lt_two_pow (lt_of_lt_of_le right.toNat_lt above)]

theorem byteBits_eq (byte : UInt8) : ∃ b₀ b₁ b₂ b₃ b₄ b₅ b₆ b₇,
    byteBits byte = [b₀, b₁, b₂, b₃, b₄, b₅, b₆, b₇] := ⟨_, _, _, _, _, _, _, _, rfl⟩

theorem bitsByte_byteBits (byte : UInt8) : bitsByte (byteBits byte) = byte := by
  rcases byteBits_eq byte with ⟨b₀, b₁, b₂, b₃, b₄, b₅, b₆, b₇, bits⟩
  apply byteBits_injective
  rw [bits, byteBits_bitsByte]

theorem packBits_bitsOfBytes (bytes : List UInt8) : packBits (bitsOfBytes bytes) = bytes := by
  induction bytes with
  | nil => rfl
  | cons byte rest induction =>
    rcases byteBits_eq byte with ⟨b₀, b₁, b₂, b₃, b₄, b₅, b₆, b₇, bits⟩
    have packed := bitsByte_byteBits byte
    rw [bits] at packed
    rw [bitsOfBytes, flatMap_cons, bits]
    change bitsByte [b₀, b₁, b₂, b₃, b₄, b₅, b₆, b₇] :: packBits (bitsOfBytes rest) = _
    rw [packed, induction]

variable {bits : Bits}

theorem bitsOfBytes_packBits (whole : bits.length % 8 = 0) :
    bitsOfBytes (packBits bits) = bits := by
  induction bits using packBits.induct with
  | case1 => rfl
  | case2 b₀ b₁ b₂ b₃ b₄ b₅ b₆ b₇ rest induction =>
    have wholeRest : rest.length % 8 = 0 := by
      simp only [length_cons] at whole
      omega
    rw [packBits, bitsOfBytes, flatMap_cons, byteBits_bitsByte]
    exact congrArg ([b₀, b₁, b₂, b₃, b₄, b₅, b₆, b₇] ++ ·) (induction wholeRest)
  | case3 short notEmpty notLong =>
    match short, whole with
    | [], _ => exact absurd rfl notEmpty
    | [_], whole | [_, _], whole | [_, _, _], whole | [_, _, _, _], whole
    | [_, _, _, _, _], whole | [_, _, _, _, _, _], whole | [_, _, _, _, _, _, _], whole =>
      simp at whole
    | b₀ :: b₁ :: b₂ :: b₃ :: b₄ :: b₅ :: b₆ :: b₇ :: rest, _ =>
      exact absurd rfl (notLong b₀ b₁ b₂ b₃ b₄ b₅ b₆ b₇ rest)

theorem bitsOfBytes_length (bytes : List UInt8) : (bitsOfBytes bytes).length = 8 * bytes.length := by
  induction bytes with
  | nil => rfl
  | cons byte rest induction =>
    rw [bitsOfBytes, flatMap_cons, length_append, ← bitsOfBytes, induction,
      length_cons, byteBits, length_map, length_range]
    omega

theorem bitsOfBytes_append (first second : List UInt8) :
    bitsOfBytes (first ++ second) = bitsOfBytes first ++ bitsOfBytes second :=
  flatMap_append ..

theorem bitsOfBytes_injective {first second : List UInt8}
    (same : bitsOfBytes first = bitsOfBytes second) : first = second := by
  rw [← packBits_bitsOfBytes first, same, packBits_bitsOfBytes]

/-! ## Paths -/

def countable (bits : Bits) : Except NamespaceError Bits :=
  if bits.length < 2 ^ 32 then .ok bits else .error (.malformed .keyTooLong)

theorem countable_eq_ok_iff {result : Bits} :
    countable bits = .ok result ↔ bits.length < 2 ^ 32 ∧ bits = result := by
  unfold countable
  split
  · rename_i short
    simp only [Except.ok.injEq]
    exact ⟨fun same => ⟨short, same⟩, fun facts => facts.2⟩
  · rename_i long
    simp only [reduceCtorEq, false_iff, not_and]
    exact fun short => absurd short long

def pathKey (path : SyncPath) : Except NamespaceError Bits :=
  countable (bitsOfBytes (utf8Bytes path))

def pathOf (bits : Bits) : Except NamespaceError SyncPath :=
  if bits.length % 8 ≠ 0 then
    .error (.malformed .entryKeyNotWholeBytes)
  else do
    let bits ← countable bits
    match fromUtf8 (packBits bits) with
    | some path => .ok path
    | none => .error (.malformed .entryKeyNotUtf8)

theorem pathOf_eq_ok_iff {path : SyncPath} : pathOf bits = .ok path ↔ pathKey path = .ok bits := by
  unfold pathOf pathKey
  rw [countable_eq_ok_iff]
  split
  · rename_i broken
    simp only [reduceCtorEq, false_iff, not_and]
    intro _ same
    rw [← same, bitsOfBytes_length] at broken
    omega
  · rename_i whole
    have whole : bits.length % 8 = 0 := by omega
    rw [Fallible.bind_eq_ok_iff]
    constructor
    · rintro ⟨counted, within, decoded⟩
      rw [countable_eq_ok_iff] at within
      rcases within with ⟨short, rfl⟩
      cases text : fromUtf8 (packBits bits) with
      | none =>
        rw [text] at decoded
        cases decoded
      | some found =>
        rw [text] at decoded
        cases decoded
        rw [utf8Bytes_of_fromUtf8 text, bitsOfBytes_packBits whole]
        exact ⟨short, rfl⟩
    · rintro ⟨short, same⟩
      refine ⟨bits, countable_eq_ok_iff.mpr ⟨same ▸ short, rfl⟩, ?_⟩
      rw [← same, packBits_bitsOfBytes, fromUtf8_utf8Bytes]

theorem pathKey_injective {first second : SyncPath} (firstKey : pathKey first = .ok bits)
    (secondKey : pathKey second = .ok bits) : first = second := by
  have read := (pathOf_eq_ok_iff.mpr firstKey).symm.trans (pathOf_eq_ok_iff.mpr secondKey)
  cases read
  rfl

/-! ## Authors -/

def authorKey (author : AuthorId) : Except NamespaceError Bits :=
  countable (bitsOfBytes author.encode)

def authorOfKeyBytes (bytes : List UInt8) : Option AuthorId :=
  let fields : ByteReader (List UInt8 × List UInt8) := do
    let device ← ByteReader.lenBytes
    let incarnation ← ByteReader.take 16
    ByteReader.expectEnd
    return (device, incarnation)
  match fields.run bytes with
  | .ok ((device, incarnation), _) =>
    (fromUtf8 device).map fun device => ⟨device, BitVec.ofNat 128 (beValue incarnation)⟩
  | .error _ => none

def authorOfKey (bits : Bits) : Except NamespaceError AuthorId :=
  if bits.length % 8 ≠ 0 then
    .error (.malformed .authorKeyNotWholeBytes)
  else do
    let bits ← countable bits
    match authorOfKeyBytes (packBits bits) with
    | some author => .ok author
    | none => .error (.malformed .authorKeyNotAnAuthor)

theorem run_expectEnd {bytes rest : List UInt8} {value : Unit} :
    ByteReader.expectEnd.run bytes = .ok (value, rest) ↔ bytes = [] ∧ rest = [] := by
  cases bytes with
  | nil =>
    constructor
    · intro ran
      cases ran
      exact ⟨rfl, rfl⟩
    · rintro ⟨_, ended⟩
      rw [ended]
      rfl
  | cons byte bytes =>
    constructor
    · intro ran
      cases ran
    · rintro ⟨ended, _⟩
      cases ended

theorem ofNat_mod_pow (value power : Nat) :
    UInt8.ofNat (value % 256 ^ (power + 1)) = UInt8.ofNat value := by
  apply UInt8.toNat_inj.mp
  rw [UInt8.toNat_ofNat', UInt8.toNat_ofNat']
  apply Nat.mod_mod_of_dvd
  exact ⟨256 ^ power, by rw [Nat.pow_succ, Nat.mul_comm]⟩

theorem beBytes_mod (width extra value : Nat) :
    beBytes width (value % 256 ^ (width + extra)) = beBytes width value := by
  induction width generalizing extra with
  | zero => rfl
  | succ width induction =>
    have later := induction (extra + 1)
    have power : width + (extra + 1) = width + 1 + extra := by omega
    rw [power] at later
    have top : value % 256 ^ (width + 1 + extra) / 256 ^ width =
        value / 256 ^ width % 256 ^ (extra + 1) := by
      rw [← power, Nat.pow_add, Nat.mod_mul_right_div_self]
    rw [beBytes, beBytes, later, top, ofNat_mod_pow]

theorem foldl_beValue (bytes : List UInt8) (start : Nat) :
    bytes.foldl (fun value byte => value * 256 + byte.toNat) start =
      start * 256 ^ bytes.length + beValue bytes ∧ beValue bytes < 256 ^ bytes.length := by
  induction bytes generalizing start with
  | nil => simp [beValue]
  | cons byte rest induction =>
    have head : beValue (byte :: rest) = byte.toNat * 256 ^ rest.length + beValue rest := by
      rw [beValue, foldl_cons, (induction _).1, Nat.zero_mul, Nat.zero_add]
    have small : byte.toNat < 256 := byte.toNat_lt
    have later := (induction 0).2
    refine ⟨?_, ?_⟩
    · rw [foldl_cons, (induction _).1, head, length_cons, Nat.pow_succ, Nat.add_mul,
        Nat.mul_assoc, Nat.mul_comm 256, Nat.add_assoc]
    · rw [head, length_cons, Nat.pow_succ, Nat.mul_comm]
      calc 256 ^ rest.length * byte.toNat + beValue rest
          < 256 ^ rest.length * byte.toNat + 256 ^ rest.length := by omega
        _ = 256 ^ rest.length * (byte.toNat + 1) := by rw [Nat.mul_add, Nat.mul_one]
        _ ≤ 256 ^ rest.length * 256 := Nat.mul_le_mul_left _ small

theorem beBytes_beValue {width : Nat} {bytes : List UInt8} (length : bytes.length = width) :
    beBytes width (beValue bytes) = bytes := by
  subst length
  induction bytes with
  | nil => rfl
  | cons byte rest induction =>
    have value : beValue (byte :: rest) = byte.toNat * 256 ^ rest.length + beValue rest := by
      rw [beValue, foldl_cons, (foldl_beValue rest _).1, Nat.zero_mul, Nat.zero_add]
    have within := (foldl_beValue rest 0).2
    have top : beValue (byte :: rest) / 256 ^ rest.length = byte.toNat := by
      rw [value, Nat.mul_comm, Nat.mul_add_div (Nat.pos_of_ne_zero (by simp)),
        Nat.div_eq_of_lt within, Nat.add_zero]
    have low : beValue (byte :: rest) % 256 ^ (rest.length + 0) = beValue rest := by
      rw [value, Nat.add_zero, Nat.mul_comm, Nat.mul_add_mod, Nat.mod_eq_of_lt within]
    rw [length_cons, beBytes, top, UInt8.ofNat_toNat, ← beBytes_mod rest.length 0, low,
      induction]

theorem authorOfKeyBytes_eq_some_iff {bytes : List UInt8} {author : AuthorId} :
    authorOfKeyBytes bytes = some author ↔
      author.encode = bytes ∧ (utf8Bytes author.device).length < 2 ^ 32 := by
  unfold authorOfKeyBytes
  dsimp only
  constructor
  · intro found
    split at found
    · rename_i device incarnation left ran
      rcases run_bind_eq_ok_iff.mp ran with ⟨deviceRead, afterDevice, readsDevice, ran⟩
      rcases run_bind_eq_ok_iff.mp ran with ⟨incarnationRead, afterBoth, readsIncarnation, ran⟩
      rcases run_bind_eq_ok_iff.mp ran with ⟨_, _, ends, finished⟩
      cases finished
      rcases run_bind_eq_ok_iff.mp readsDevice with ⟨count, afterCount, readsCount, takesDevice⟩
      rcases run_bind_eq_ok_iff.mp readsCount with ⟨countBytes, _, takesCount, counted⟩
      cases counted
      rcases run_take_eq_ok takesCount with ⟨rfl, countLength⟩
      rcases run_take_eq_ok takesDevice with ⟨rfl, deviceLength⟩
      rcases run_take_eq_ok readsIncarnation with ⟨rfl, incarnationLength⟩
      rcases run_expectEnd.mp ends with ⟨rfl, _⟩
      rcases Option.map_eq_some_iff.mp found with ⟨text, decoded, rfl⟩
      have countFits := (foldl_beValue countBytes 0).2
      have incarnationFits := (foldl_beValue incarnation 0).2
      rw [countLength] at countFits
      rw [incarnationLength] at incarnationFits
      have whole : (BitVec.ofNat 128 (beValue incarnation)).toNat = beValue incarnation := by
        rw [BitVec.toNat_ofNat]
        exact Nat.mod_eq_of_lt incarnationFits
      rw [utf8Bytes_of_fromUtf8 decoded, deviceLength]
      refine ⟨?_, countFits⟩
      rw [AuthorId.encode, putStr, putLenBytes, utf8Bytes_of_fromUtf8 decoded, deviceLength, putU32,
        beBytes_beValue countLength, whole, beBytes_beValue incarnationLength, append_nil,
        append_assoc]
    · cases found
  · rintro ⟨same, fits⟩
    have readsDevice := ByteReader.reads_lenBytes fits
    have readsIncarnation := ByteReader.reads_take (beBytes_length 16 author.incarnation.toNat)
    have value : BitVec.ofNat 128 (beValue (beBytes 16 author.incarnation.toNat)) =
        author.incarnation := by
      rw [beValue_beBytes (by simpa using author.incarnation.isLt)]
      exact BitVec.ofNat_toNat ..
    rw [← same, AuthorId.encode, putStr, readsDevice.run_bind,
      ← append_nil (beBytes 16 author.incarnation.toNat), readsIncarnation.run_bind]
    change Option.map _ (fromUtf8 (utf8Bytes author.device)) = some author
    rw [fromUtf8_utf8Bytes, Option.map_some, value]

theorem authorOfKey_eq_ok_iff {author : AuthorId} :
    authorOfKey bits = .ok author ↔ authorKey author = .ok bits := by
  unfold authorOfKey authorKey
  rw [countable_eq_ok_iff]
  split
  · rename_i broken
    simp only [reduceCtorEq, false_iff, not_and]
    intro _ same
    rw [← same, bitsOfBytes_length] at broken
    omega
  · rename_i whole
    have whole : bits.length % 8 = 0 := by omega
    rw [Fallible.bind_eq_ok_iff]
    constructor
    · rintro ⟨counted, within, decoded⟩
      rw [countable_eq_ok_iff] at within
      rcases within with ⟨short, rfl⟩
      cases found : authorOfKeyBytes (packBits bits) with
      | none =>
        rw [found] at decoded
        cases decoded
      | some author =>
        rw [found] at decoded
        cases decoded
        rw [(authorOfKeyBytes_eq_some_iff.mp found).1, bitsOfBytes_packBits whole]
        exact ⟨short, rfl⟩
    · rintro ⟨short, same⟩
      have fits : (utf8Bytes author.device).length < 2 ^ 32 := by
        rw [bitsOfBytes_length, AuthorId.encode, putStr, putLenBytes, length_append,
          length_append] at short
        omega
      refine ⟨bits, countable_eq_ok_iff.mpr ⟨same ▸ short, rfl⟩, ?_⟩
      rw [← same, packBits_bitsOfBytes, authorOfKeyBytes_eq_some_iff.mpr ⟨rfl, fits⟩]

theorem authorKey_injective {first second : AuthorId} (firstKey : authorKey first = .ok bits)
    (secondKey : authorKey second = .ok bits) : first = second := by
  have read := (authorOfKey_eq_ok_iff.mpr firstKey).symm.trans (authorOfKey_eq_ok_iff.mpr secondKey)
  cases read
  rfl

theorem authorKey_prefix_free {first second : AuthorId} {more : Bits}
    (firstKey : authorKey first = .ok bits) (secondKey : authorKey second = .ok (bits ++ more)) :
    more = [] := by
  rcases countable_eq_ok_iff.mp firstKey with ⟨firstShort, rfl⟩
  rcases countable_eq_ok_iff.mp secondKey with ⟨secondShort, joined⟩
  have sizes : ∀ author : AuthorId,
      author.encode.length = 20 + (utf8Bytes author.device).length := by
    intro author
    simp only [AuthorId.encode, putStr, putLenBytes, putU32, length_append, beBytes_length]
    omega
  have counts : ∀ author : AuthorId, author.encode.take 4 = putU32 (utf8Bytes author.device).length := by
    intro author
    rw [AuthorId.encode, putStr, putLenBytes, append_assoc]
    exact take_left' (beBytes_length 4 _)
  have longer := congrArg List.length joined
  rw [length_append, bitsOfBytes_length, bitsOfBytes_length] at longer
  have within : first.encode.length ≤ second.encode.length := by omega
  have starts : first.encode = second.encode.take first.encode.length := by
    apply bitsOfBytes_injective
    have split := bitsOfBytes_append (second.encode.take first.encode.length)
      (second.encode.drop first.encode.length)
    rw [take_append_drop, joined] at split
    refine (append_inj split ?_).1
    rw [bitsOfBytes_length, bitsOfBytes_length, length_take, Nat.min_eq_left within]
  have sameCount : putU32 (utf8Bytes first.device).length =
      putU32 (utf8Bytes second.device).length := by
    have covers : 4 ≤ first.encode.length := by
      rw [sizes]
      omega
    rw [← counts first, ← counts second, starts, take_take, Nat.min_eq_left covers]
  rw [bitsOfBytes_length, sizes] at firstShort secondShort
  have sameLength := beBytes_injective (by omega) (by omega) sameCount
  rw [sizes, sizes, sameLength] at longer
  exact length_eq_zero_iff.mp (by omega)

end Yadorilink.Namespace
