import Yadorilink.Foundation.OrderedMap

/-! Identities shared by the replica domain: authors, sequence numbers, dots
and content hashes. A fixed-length byte array is a bit vector of the same
width, read most significant byte first, so that its order is the order of the
bytes. -/

namespace Yadorilink

open Std OrderedMap

abbrev DeviceId := String

abbrev FolderGroupId := String

/-- A path relative to a group's root, as an opaque string. -/
abbrev SyncPath := String

/-! ## Hashes -/

/-- SHA-256 of a signed delta's header: the delta's identity and the
provenance of every head it lands. -/
structure DeltaHash where
  bits : BitVec 256
deriving DecidableEq

instance : Inhabited DeltaHash := ⟨⟨0⟩⟩

instance : Ord DeltaHash := ⟨compareOn DeltaHash.bits⟩

instance : TransOrd DeltaHash :=
  inferInstanceAs (TransCmp (compareOn DeltaHash.bits))

instance : LawfulEqOrd DeltaHash :=
  lawfulEqCmp_compareOn DeltaHash.bits fun left right equal => by
    cases left
    cases right
    exact congrArg DeltaHash.mk equal

/-- SHA-256 of a file version's canonical encoding. -/
structure VersionHash where
  bits : BitVec 256
deriving DecidableEq

instance : Ord VersionHash := ⟨compareOn VersionHash.bits⟩

instance : TransOrd VersionHash :=
  inferInstanceAs (TransCmp (compareOn VersionHash.bits))

instance : LawfulEqOrd VersionHash :=
  lawfulEqCmp_compareOn VersionHash.bits fun left right equal => by
    cases left
    cases right
    exact congrArg VersionHash.mk equal

/-- Digests without a type of their own key tables as well. -/
instance digestTransOrd : TransOrd (BitVec 256) := inferInstance

/-! ## Authors -/

/-- One installation of a device's replica: 16 random bytes. -/
abbrev IncarnationId := BitVec 128

def IncarnationId.reserved : IncarnationId := 0

/-- The author of a delta: a registered device in one incarnation. -/
structure AuthorId where
  device : DeviceId
  incarnation : IncarnationId
deriving DecidableEq

instance : Ord AuthorId :=
  ⟨compareLex (compareOn AuthorId.device) (compareOn AuthorId.incarnation)⟩

instance : TransOrd AuthorId :=
  inferInstanceAs (TransCmp
    (compareLex (compareOn AuthorId.device) (compareOn AuthorId.incarnation)))

instance : LawfulEqOrd AuthorId :=
  lawfulEqCmp_compareLex_compareOn AuthorId.device AuthorId.incarnation
    fun left right sameDevice sameIncarnation => by
      cases left
      cases right
      simp_all

/-- The most heads one author may have at one path. -/
def maxSelfHeads : Nat := 2

/-! ## Sequence numbers

A sequence is a `u64` that never passes `AuthorSeq.max`: the only arithmetic
on it is `checkedNext`, so a natural number represents it exactly. -/

def AuthorSeq.first : Nat := 1

/-- The highest sequence a delta may carry, `i64::MAX`. -/
def AuthorSeq.max : Nat := 2 ^ 63 - 1

/-- The position after this one, or `none` for an author that has reached
`AuthorSeq.max`. -/
def AuthorSeq.checkedNext (seq : Nat) : Option Nat :=
  if seq + 1 ≤ AuthorSeq.max then some (seq + 1) else none

theorem AuthorSeq.checkedNext_eq_some_iff {seq next : Nat} :
    AuthorSeq.checkedNext seq = some next ↔ next = seq + 1 ∧ next ≤ AuthorSeq.max := by
  unfold checkedNext
  split
  · rename_i within
    constructor
    · intro result
      have same := Option.some.inj result
      exact ⟨same.symm, same ▸ within⟩
    · intro result
      rw [result.1]
  · rename_i beyond
    constructor
    · intro result
      cases result
    · intro result
      exact absurd (result.1 ▸ result.2) beyond

/-! ## Dots -/

/-- The identity of one mutation: its author and the author's sequence
number. -/
structure Dot where
  author : AuthorId
  seq : Nat
deriving DecidableEq

instance : Ord Dot := ⟨compareLex (compareOn Dot.author) (compareOn Dot.seq)⟩

instance : TransOrd Dot :=
  inferInstanceAs (TransCmp (compareLex (compareOn Dot.author) (compareOn Dot.seq)))

instance : LawfulEqOrd Dot :=
  lawfulEqCmp_compareLex_compareOn Dot.author Dot.seq
    fun left right sameAuthor sameSeq => by
      cases left
      cases right
      simp_all

end Yadorilink
