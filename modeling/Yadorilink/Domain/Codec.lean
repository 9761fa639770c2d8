import Yadorilink.Domain.FileVersion
import Yadorilink.Foundation.Reading

/-! Reading canonical encodings back. Every read is bounds checked, and each
primitive takes off exactly what the writer of the same name put there. -/

namespace Yadorilink

open Reading

variable {value max : Nat}

/-- Why an encoding, or the record it holds, is refused. -/
inductive ChangeError where
  | expectedMore (wanted remaining : Nat)
  | countExceedsBound (count max : Nat)
  | countExceedsBytes (count entries : Nat)
  | trailingBytes (remaining : Nat)
  | badVersionDomainTag
  | unknownRecordKind (byte : UInt8)
  | unixModeOutOfRange (mode : Nat)
  | badUnixModeFlag (flag : UInt8)
  | badSymlinkFlag (flag : UInt8)
  | xattrsUnsorted
  | xattrNameNotUtf8
  | xattrOutsideAllowList (name : String)
  | hashMismatch
  | structure_ (fault : VersionError)
  | notUtf8
  | badNativeTag (what : String)
  | unsupportedGeneration (theirs ours : UInt8)
  | reservedIncarnation (device : DeviceId)
  | seqTooHigh (seq : Nat)
  | seqTooLow (seq : Nat)
  | namedSeqOutOfRange (seq : Nat)
  | badPrevFlag (flag : UInt8)
  | badPartFlag (flag : UInt8)
  | badPutFlag (flag : UInt8)
  | reservedOperationId
  | partOutOfRange (index count : Nat)
  | noOps
  | invalidPath (fault : PathError)
  | duplicatePath (path : SyncPath)
deriving DecidableEq

abbrev ByteReader := Reader UInt8 ChangeError

/-! ## Primitives -/

/-- The number whose bytes these are, most significant first. -/
def beValue (bytes : List UInt8) : Nat :=
  bytes.foldl (fun value byte => value * 256 + byte.toNat) 0

namespace ByteReader

def take (count : Nat) : ByteReader (List UInt8) :=
  Reading.take (fun remaining => .expectedMore count remaining) count

def u8 : ByteReader UInt8 := do
  return (← take 1).headD 0

def u32 : ByteReader Nat := do
  return beValue (← take 4)

def u64 : ByteReader Nat := do
  return beValue (← take 8)

def i64 : ByteReader Int := do
  let value ← u64
  return if value < 2 ^ 63 then (value : Int) else (value : Int) - 2 ^ 64

def lenBytes : ByteReader (List UInt8) := do
  let count ← u32
  take count

/-- A count that neither exceeds `max` nor the entries the remaining bytes can
hold. -/
def boundedCount (minEntrySize max : Nat) : ByteReader Nat := do
  let count ← u32
  let remaining ← get
  if max < count then
    throw (.countExceedsBound count max)
  else if 0 < minEntrySize ∧ remaining.length / minEntrySize < count then
    throw (.countExceedsBytes count (remaining.length / minEntrySize))
  else
    return count

def expectEnd : ByteReader Unit := do
  let remaining ← get
  if remaining.length ≠ 0 then
    throw (.trailingBytes remaining.length)

end ByteReader

/-! ## Round trips of the primitives -/

theorem foldl_beBytes (width value start : Nat) :
    (beBytes width value).foldl (fun value byte => value * 256 + byte.toNat) start =
      start * 256 ^ width + value % 256 ^ width := by
  induction width generalizing start with
  | zero => simp [beBytes, Nat.mod_one]
  | succ width induction =>
    rw [beBytes, List.foldl_cons, induction, UInt8.toNat_ofNat']
    have split : value % 256 ^ (width + 1) =
        value / 256 ^ width % 256 * 256 ^ width + value % 256 ^ width := by
      rw [Nat.pow_succ, Nat.mod_mul, Nat.mul_comm (256 ^ width), Nat.add_comm]
    rw [split, show 2 ^ 8 = 256 by rfl, Nat.pow_succ, Nat.add_mul, Nat.add_assoc,
      Nat.mul_assoc start, Nat.mul_comm 256]

variable {width : Nat}

theorem beValue_beBytes (fits : value < 256 ^ width) :
    beValue (beBytes width value) = value := by
  rw [beValue, foldl_beBytes, Nat.mod_eq_of_lt fits]
  omega

theorem beBytes_injective {first second : Nat} (firstFits : first < 256 ^ width)
    (secondFits : second < 256 ^ width) (same : beBytes width first = beBytes width second) :
    first = second := by
  rw [← beValue_beBytes firstFits, same, beValue_beBytes secondFits]

variable {count minEntrySize : Nat} {bytes rest : List UInt8} {α : Type}

namespace ByteReader

theorem reads_take (length : bytes.length = count) : Reads (take count) bytes bytes := by
  subst length
  exact Reading.reads_take _ bytes

theorem reads_u8 (byte : UInt8) : Reads u8 [byte] byte :=
  (reads_take (by rfl)).finish fun bytes => bytes.headD 0

theorem reads_u32 (fits : value < 2 ^ 32) : Reads u32 (putU32 value) value := by
  have reads := (reads_take (beBytes_length 4 value)).finish beValue
  rw [beValue_beBytes (by omega)] at reads
  exact reads

theorem reads_u64 (fits : value < 2 ^ 64) : Reads u64 (putU64 value) value := by
  have reads := (reads_take (beBytes_length 8 value)).finish beValue
  rw [beValue_beBytes (by omega)] at reads
  exact reads

theorem reads_i64 {value : Int} (low : -2 ^ 63 ≤ value) (high : value < 2 ^ 63) :
    Reads i64 (putI64 value) value := by
  have fits : (value % 2 ^ 64).toNat < 2 ^ 64 := by omega
  have reads := (reads_u64 fits).finish fun value : Nat =>
    if value < 2 ^ 63 then (value : Int) else (value : Int) - 2 ^ 64
  have back : (if (value % 2 ^ 64).toNat < 2 ^ 63 then ((value % 2 ^ 64).toNat : Int)
      else ((value % 2 ^ 64).toNat : Int) - 2 ^ 64) = value := by
    split <;> omega
  rw [back] at reads
  exact reads

theorem reads_lenBytes (fits : bytes.length < 2 ^ 32) : Reads lenBytes (putLenBytes bytes) bytes :=
  (reads_u32 fits).bind (reads_take rfl)

theorem run_boundedCount (fits : count < 2 ^ 32) (within : count ≤ max)
    (held : count * minEntrySize ≤ rest.length) :
    (boundedCount minEntrySize max).run (putU32 count ++ rest) = .ok (count, rest) := by
  have enough : ¬(0 < minEntrySize ∧ rest.length / minEntrySize < count) := by
    intro short
    exact absurd ((Nat.le_div_iff_mul_le short.1).mpr held) (by omega)
  rw [boundedCount, StateT.run_bind, reads_u32 fits]
  simp only [bind, StateT.bind, get, getThe, MonadStateOf.get, StateT.get, Except.bind,
    StateT.run, pure, Except.pure, if_neg (Nat.not_lt.mpr within), if_neg enough, StateT.pure]

theorem run_boundedCount_bind (fits : count < 2 ^ 32) (within : count ≤ max)
    (held : count * minEntrySize ≤ rest.length) (next : Nat → ByteReader α) :
    (boundedCount minEntrySize max >>= next).run (putU32 count ++ rest) =
      (next count).run rest := by
  rw [StateT.run_bind, run_boundedCount fits within held]
  rfl

theorem reads_boundedCount {entries : List UInt8} {value : α}
    {next : Nat → ByteReader α} (fits : count < 2 ^ 32) (within : count ≤ max)
    (held : count * minEntrySize ≤ entries.length) (reads : Reads (next count) entries value) :
    Reads (boundedCount minEntrySize max >>= next) (putU32 count ++ entries) value := by
  intro rest
  have longer : count * minEntrySize ≤ (entries ++ rest).length := by
    rw [List.length_append]
    omega
  rw [List.append_assoc, run_boundedCount_bind fits within longer, reads]

theorem run_boundedCount_le
    (ran : (boundedCount minEntrySize max).run bytes = .ok (count, rest)) : count ≤ max := by
  rcases run_bind_eq_ok_iff.mp ran with ⟨read, afterCount, _, checked⟩
  rcases run_bind_eq_ok_iff.mp checked with ⟨remaining, _, _, decided⟩
  by_cases beyond : max < read
  · rw [if_pos beyond] at decided
    cases decided
  · rw [if_neg beyond] at decided
    split at decided
    · cases decided
    · cases decided
      omega

end ByteReader

/-! ## One spelling of the primitives -/

theorem beBytes_foldl (bytes : List UInt8) (start : Nat) :
    beBytes bytes.length (bytes.foldl (fun value byte => value * 256 + byte.toNat) start) =
      bytes := by
  induction bytes generalizing start with
  | nil => rfl
  | cons byte rest induction =>
    have later := induction (start * 256 + byte.toNat)
    have value := foldl_beBytes rest.length
      (rest.foldl (fun value byte => value * 256 + byte.toNat) (start * 256 + byte.toNat))
      (start * 256 + byte.toNat)
    rw [later] at value
    rw [List.length_cons, beBytes, List.foldl_cons, later]
    generalize rest.foldl (fun value byte => value * 256 + byte.toNat)
      (start * 256 + byte.toNat) = whole at value
    have positive : 0 < 256 ^ rest.length := Nat.pow_pos (by decide)
    have quotient : whole / 256 ^ rest.length = start * 256 + byte.toNat := by
      rw [value, Nat.mul_comm, Nat.mul_add_div positive,
        Nat.div_eq_of_lt (Nat.mod_lt _ positive), Nat.add_zero]
    have digit : UInt8.ofNat (start * 256 + byte.toNat) = byte := by
      apply UInt8.toNat_inj.mp
      have small := byte.toNat_lt
      rw [UInt8.toNat_ofNat']
      omega
    rw [quotient, digit]

theorem beBytes_beValue (length : bytes.length = width) :
    beBytes width (beValue bytes) = bytes := by
  subst length
  exact beBytes_foldl bytes 0

theorem beValue_lt (length : bytes.length = width) : beValue bytes < 256 ^ width := by
  rw [← beBytes_beValue length, beValue, foldl_beBytes, Nat.zero_mul, Nat.zero_add]
  exact Nat.mod_lt _ (Nat.pow_pos (by decide))

def putOptional {α : Type} (encode : α → List UInt8) : Option α → List UInt8
  | none => [0]
  | some value => 1 :: encode value

namespace ByteReader

/-- A byte that says whether a value follows, and the value. -/
def optional {α : Type} (unknown : UInt8 → ChangeError) (reader : ByteReader α) :
    ByteReader (Option α) := do
  let flag ← u8
  if flag = 0 then
    return none
  else if flag = 1 then do
    let value ← reader
    return some value
  else
    throw (unknown flag)

theorem spells_u8 : Spells u8 fun byte => [byte] := by
  intro bytes byte rest ran
  rcases run_bind_eq_ok_iff.mp ran with ⟨taken, middle, takes, finished⟩
  cases finished
  rcases run_take_eq_ok takes with ⟨rfl, length⟩
  rcases List.length_eq_one_iff.mp length with ⟨only, rfl⟩
  rfl

theorem spells_beValue :
    Spells (do return beValue (← take width) : ByteReader Nat) (beBytes width) := by
  intro bytes value rest ran
  rcases run_bind_eq_ok_iff.mp ran with ⟨taken, middle, takes, finished⟩
  cases finished
  rcases run_take_eq_ok takes with ⟨rfl, length⟩
  rw [beBytes_beValue length]

theorem spells_u32 : Spells u32 putU32 := spells_beValue

theorem spells_u64 : Spells u64 putU64 := spells_beValue

theorem spells_i64 : Spells i64 putI64 := by
  intro bytes value rest ran
  rcases run_bind_eq_ok_iff.mp ran with ⟨read, middle, reads, finished⟩
  rcases run_bind_eq_ok_iff.mp reads with ⟨taken, left, takes, read⟩
  cases read
  cases finished
  rcases run_take_eq_ok takes with ⟨rfl, length⟩
  have fits := beValue_lt length
  have back : ((if beValue taken < 2 ^ 63 then (beValue taken : Int)
      else (beValue taken : Int) - 2 ^ 64) % 2 ^ 64).toNat = beValue taken := by
    split <;> omega
  rw [putI64, back, beBytes_beValue length]

theorem spells_lenBytes : Spells lenBytes putLenBytes := by
  intro bytes value rest ran
  rcases run_bind_eq_ok_iff.mp ran with ⟨count, middle, counts, takes⟩
  rcases run_take_eq_ok takes with ⟨rfl, rfl⟩
  rw [spells_u32 _ _ _ counts, putLenBytes, List.append_assoc]

theorem spells_boundedCount : Spells (boundedCount minEntrySize max) putU32 := by
  intro bytes count rest ran
  rcases run_bind_eq_ok_iff.mp ran with ⟨read, middle, reads, checked⟩
  rcases run_bind_eq_ok_iff.mp checked with ⟨remaining, left, looks, decided⟩
  cases looks
  by_cases beyond : max < read
  · rw [if_pos beyond] at decided
    cases decided
  · rw [if_neg beyond] at decided
    split at decided
    · cases decided
    · cases decided
      exact spells_u32 _ _ _ reads

theorem spells_optional {unknown : UInt8 → ChangeError} {reader : ByteReader α}
    {encode : α → List UInt8} (spells : Spells reader encode) :
    Spells (optional unknown reader) (putOptional encode) := by
  intro bytes value rest ran
  rcases run_bind_eq_ok_iff.mp ran with ⟨flag, afterFlag, flags, decided⟩
  rw [spells_u8 _ _ _ flags]
  split at decided
  · rename_i absent
    cases decided
    rw [absent]
    rfl
  · split at decided
    · rename_i present
      rcases run_bind_eq_ok_iff.mp decided with ⟨found, afterValue, reads, finished⟩
      cases finished
      rw [spells _ _ _ reads, present]
      rfl
    · cases decided

theorem reads_optional {α : Type} {unknown : UInt8 → ChangeError} {reader : ByteReader α}
    {encode : α → List UInt8} {value : Option α}
    (reads : ∀ found, value = some found → Reads reader (encode found) found) :
    Reads (optional unknown reader) (putOptional encode value) value := by
  intro rest
  cases value with
  | none => exact (reads_u8 0).run_bind _ rest
  | some found =>
    rw [optional, putOptional, List.cons_append, ← List.singleton_append, (reads_u8 1).run_bind,
      if_neg (by decide), if_pos rfl, (reads found rfl).run_bind]
    rfl

theorem run_expectEnd_bind (next : Unit → ByteReader α) :
    (expectEnd >>= next).run [] = (next ()).run [] := rfl

theorem run_expectEnd_eq_ok (ran : expectEnd.run bytes = .ok ((), rest)) :
    bytes = [] ∧ rest = [] := by
  rcases run_bind_eq_ok_iff.mp ran with ⟨remaining, left, looks, decided⟩
  cases looks
  by_cases more : bytes.length ≠ 0
  · rw [if_pos more] at decided
    cases decided
  · rw [if_neg more] at decided
    cases decided
    have empty := List.length_eq_zero_iff.mp (not_not.mp more)
    exact ⟨empty, empty⟩

end ByteReader

end Yadorilink
