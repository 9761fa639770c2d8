import Yadorilink.Domain.VersionCodec

/-! The nodes of a namespace, their encodings and digests, and the store that keeps
them by digest. A path's heads are kept per author in a trie of its own, so there are
three kinds of node: of the heads trie, of a path's bucket trie, and of a content
shape. -/

namespace Yadorilink.Namespace

open Std

abbrev NodeDigest := BitVec 256

/-- A bit string, most significant bit of each byte first. -/
abbrev Bits := List Bool

def u64Max : Nat := 2 ^ 64 - 1

/-! ## Bit strings -/

def byteBits (byte : UInt8) : Bits :=
  (List.range 8).map fun place => byte.toNat.testBit (7 - place)

def bitsOfBytes (bytes : List UInt8) : Bits := bytes.flatMap byteBits

/-- Up to eight bits as a byte, unused trailing bits zero. -/
def bitsByte (bits : Bits) : UInt8 :=
  UInt8.ofNat ((List.range 8).foldl
    (fun value place => value * 2 + (bits.getD place false).toNat) 0)

def packBits : Bits → List UInt8
  | [] => []
  | b₀ :: b₁ :: b₂ :: b₃ :: b₄ :: b₅ :: b₆ :: b₇ :: rest =>
    bitsByte [b₀, b₁, b₂, b₃, b₄, b₅, b₆, b₇] :: packBits rest
  | short => [bitsByte short]

/-! ## Nodes -/

/-- The heads at or below a node, and the pairs of path and author at or below it
with two heads. -/
structure HeadAggregates where
  headCount : Nat
  duplicateAuthorCount : Nat
deriving DecidableEq

namespace HeadAggregates

def zero : HeadAggregates := ⟨0, 0⟩

def ofBucket (heads : Nat) : HeadAggregates := ⟨heads, if 1 < heads then 1 else 0⟩

def inRange (counts : HeadAggregates) : Bool :=
  counts.headCount ≤ u64Max && counts.duplicateAuthorCount ≤ u64Max

def checkedPlus (first second : HeadAggregates) : Option HeadAggregates :=
  let sum : HeadAggregates := ⟨first.headCount + second.headCount,
    first.duplicateAuthorCount + second.duplicateAuthorCount⟩
  if sum.inRange then some sum else none

/-- The counts of `entries` entries with these counts each. -/
def checkedTimes (counts : HeadAggregates) (entries : Nat) : Option HeadAggregates :=
  let product : HeadAggregates :=
    ⟨counts.headCount * entries, counts.duplicateAuthorCount * entries⟩
  if product.inRange then some product else none

def saturated : HeadAggregates := ⟨u64Max, u64Max⟩

def plus (first second : HeadAggregates) : HeadAggregates :=
  (first.checkedPlus second).getD saturated

def times (counts : HeadAggregates) (entries : Nat) : HeadAggregates :=
  (counts.checkedTimes entries).getD saturated

end HeadAggregates

/-- A node of a path's bucket trie, keyed by author. -/
inductive AuthorNode where
  | branch (skip : Bits) (aggregates : HeadAggregates) (zero one : NodeDigest)
  | bucket (skip : Bits) (heads : List DeltaHash)
deriving DecidableEq

/-- A node of the heads trie: a path's heads are the bucket trie named by `buckets`. -/
inductive NodeV2 where
  | branch (skip : Bits) (buckets : NodeDigest) (aggregates : HeadAggregates) (conflict : Bool)
      (zero one : NodeDigest)
  | uniform (skip : Bits) (shape buckets : NodeDigest) (aggregates : HeadAggregates)
deriving DecidableEq

/-- A node of a content shape. -/
structure ShapeNodeV2 where
  skip : Bits
  entry : Bool
  entryCount : Nat
  zero : NodeDigest
  one : NodeDigest
deriving DecidableEq

abbrev AuthorBuckets := ExtTreeMap AuthorId (List DeltaHash)

/-- What is wrong with a node that is malformed. -/
inductive Fault where
  | bucketOverBound
  | authorKeysNotPrefixFree
  | exceedsBudget
  | authorKeyNotWholeBytes
  | authorKeyNotAnAuthor
  | entryKeyNotWholeBytes
  | entryKeyNotUtf8
  /-- A key of more bits than a `u32` counts, on which the source panics. -/
  | keyTooLong
deriving DecidableEq

/-- Why a namespace operation failed. -/
inductive NamespaceError where
  | missingNode (digest : NodeDigest)
  | digestMismatch (digest : NodeDigest)
  | malformed (fault : Fault)
  | notCanonical (digest : NodeDigest)
  /-- The descent of the model ran out of turns; the source has no such bound. -/
  | outOfTurns
deriving DecidableEq

/-! ## Encodings and digests -/

def tagOf (kind : String) (generation : UInt8) : List UInt8 := utf8Bytes kind ++ [generation]

def encodeBits (bits : Bits) : List UInt8 := putU32 bits.length ++ packBits bits

def putDigest (digest : NodeDigest) : List UInt8 := beBytes 32 digest.toNat

def putFlag (flag : Bool) : List UInt8 := [if flag then 1 else 0]

def encodeAggregates (counts : HeadAggregates) : List UInt8 :=
  putU64 counts.headCount ++ putU64 counts.duplicateAuthorCount

def encodeHeads (heads : List DeltaHash) : List UInt8 :=
  putU32 heads.length ++ heads.flatMap fun head => beBytes 32 head.bits.toNat

def AuthorNode.tag : AuthorNode → List UInt8
  | .branch .. => tagOf "YLNKnsA" 1
  | .bucket .. => tagOf "YLNKnsB" 1

def AuthorNode.encode : AuthorNode → List UInt8
  | .branch skip aggregates zero one =>
    encodeBits skip ++ encodeAggregates aggregates ++ putDigest zero ++ putDigest one
  | .bucket skip heads => encodeBits skip ++ encodeHeads heads

def NodeV2.tag : NodeV2 → List UInt8
  | .branch .. => tagOf "YLNKnsN" 2
  | .uniform .. => tagOf "YLNKnsU" 2

def NodeV2.encode : NodeV2 → List UInt8
  | .branch skip buckets aggregates conflict zero one =>
    encodeBits skip ++ putDigest buckets ++ encodeAggregates aggregates ++ putFlag conflict ++
      putDigest zero ++ putDigest one
  | .uniform skip shape buckets aggregates =>
    encodeBits skip ++ putDigest shape ++ putDigest buckets ++ encodeAggregates aggregates

def ShapeNodeV2.encode (node : ShapeNodeV2) : List UInt8 :=
  encodeBits node.skip ++ putFlag node.entry ++ putU64 node.entryCount ++ putDigest node.zero ++
    putDigest node.one

/-- A node of any kind. -/
inductive Node where
  | heads (node : NodeV2)
  | author (node : AuthorNode)
  | shape (node : ShapeNodeV2)
deriving DecidableEq

section Digests

variable (crypto : Crypto)

def emptyDigest : NodeDigest := crypto.sha256 (tagOf "YLNKnsE" 1)

def NodeV2.digest (node : NodeV2) : NodeDigest := crypto.sha256 (node.tag ++ node.encode)

def AuthorNode.digest (node : AuthorNode) : NodeDigest := crypto.sha256 (node.tag ++ node.encode)

def ShapeNodeV2.digest (node : ShapeNodeV2) : NodeDigest :=
  crypto.sha256 (tagOf "YLNKnsS" 2 ++ node.encode)

def Node.digest : Node → NodeDigest
  | .heads node => node.digest crypto
  | .author node => node.digest crypto
  | .shape node => node.digest crypto

end Digests

/-- The counts of an author node: stored on a branch, derived for a bucket. -/
def AuthorNode.aggregates : AuthorNode → HeadAggregates
  | .branch _ aggregates _ _ => aggregates
  | .bucket _ heads => .ofBucket heads.length

/-! ## The store -/

/-- The nodes of each kind a store holds, by the digest they are asked for. -/
structure NodeStore where
  nodes : NodeDigest → Option NodeV2
  authors : NodeDigest → Option AuthorNode
  shapes : NodeDigest → Option ShapeNodeV2

def NodeStore.empty : NodeStore := ⟨fun _ => none, fun _ => none, fun _ => none⟩

def keepFirst {α : Type} (held : NodeDigest → Option α) (digest : NodeDigest) (value : α) :
    NodeDigest → Option α :=
  fun other => if other = digest then (held digest).or (some value) else held other

abbrev StoreM := EStateM NamespaceError NodeStore

def reading {α : Type} (read : NodeStore → Except NamespaceError α) : StoreM α := fun store =>
  match read store with
  | .ok value => .ok value store
  | .error failure => .error failure store

section Store

variable (crypto : Crypto)

def putNode (node : NodeV2) : StoreM NodeDigest := do
  modify fun store => { store with nodes := keepFirst store.nodes (node.digest crypto) node }
  return node.digest crypto

def putAuthor (node : AuthorNode) : StoreM NodeDigest := do
  modify fun store => { store with authors := keepFirst store.authors (node.digest crypto) node }
  return node.digest crypto

def putShape (node : ShapeNodeV2) : StoreM NodeDigest := do
  modify fun store => { store with shapes := keepFirst store.shapes (node.digest crypto) node }
  return node.digest crypto

/-- A node a store returned, once it has the digest it was asked for by. -/
def verified {α : Type} (digest : NodeDigest) (digestOf : α → NodeDigest) (found : Option α) :
    Except NamespaceError α :=
  match found with
  | none => .error (.missingNode digest)
  | some node => if digestOf node = digest then .ok node else .error (.digestMismatch digest)

def loadNode (store : NodeStore) (digest : NodeDigest) : Except NamespaceError NodeV2 :=
  verified digest (NodeV2.digest crypto) (store.nodes digest)

def loadAuthor (store : NodeStore) (digest : NodeDigest) : Except NamespaceError AuthorNode :=
  verified digest (AuthorNode.digest crypto) (store.authors digest)

def loadShape (store : NodeStore) (digest : NodeDigest) : Except NamespaceError ShapeNodeV2 :=
  verified digest (ShapeNodeV2.digest crypto) (store.shapes digest)

end Store

/-! ## Stores that return what they were given -/

/-- No two of the nodes have one digest, and none has the digest of the empty trie. -/
def CollisionFree (crypto : Crypto) (pool : Node → Prop) : Prop :=
  (∀ first, pool first → ∀ second, pool second →
    first.digest crypto = second.digest crypto → first = second) ∧
  ∀ node, pool node → node.digest crypto ≠ emptyDigest crypto

/-- Every node lies under its own digest and is one of `pool`. -/
structure NodeStore.Sound (crypto : Crypto) (pool : Node → Prop) (store : NodeStore) : Prop where
  nodes : ∀ digest node, store.nodes digest = some node →
    node.digest crypto = digest ∧ pool (.heads node)
  authors : ∀ digest node, store.authors digest = some node →
    node.digest crypto = digest ∧ pool (.author node)
  shapes : ∀ digest node, store.shapes digest = some node →
    node.digest crypto = digest ∧ pool (.shape node)

/-- The later store has all the earlier one had. -/
structure NodeStore.Extends (store later : NodeStore) : Prop where
  nodes : ∀ digest node, store.nodes digest = some node → later.nodes digest = some node
  authors : ∀ digest node, store.authors digest = some node → later.authors digest = some node
  shapes : ∀ digest node, store.shapes digest = some node → later.shapes digest = some node

theorem NodeStore.Extends.refl (store : NodeStore) : store.Extends store :=
  ⟨fun _ _ held => held, fun _ _ held => held, fun _ _ held => held⟩

theorem NodeStore.Extends.trans {first second third : NodeStore} (once : first.Extends second)
    (twice : second.Extends third) : first.Extends third :=
  ⟨fun digest node held => twice.nodes digest node (once.nodes digest node held),
    fun digest node held => twice.authors digest node (once.authors digest node held),
    fun digest node held => twice.shapes digest node (once.shapes digest node held)⟩

theorem keepFirst_of_held {α : Type} {held : NodeDigest → Option α} {digest other : NodeDigest}
    {value found : α} (isHeld : held other = some found) :
    keepFirst held digest value other = some found := by
  unfold keepFirst
  split
  · rename_i same
    rw [← same, isHeld]
    rfl
  · exact isHeld

theorem keepFirst_cases {α : Type} {held : NodeDigest → Option α} {digest other : NodeDigest}
    {value found : α} (isHeld : keepFirst held digest value other = some found) :
    held other = some found ∨ (other = digest ∧ found = value) := by
  unfold keepFirst at isHeld
  split at isHeld
  · rename_i same
    cases before : held digest with
    | none =>
      rw [before] at isHeld
      cases isHeld
      exact Or.inr ⟨same, rfl⟩
    | some present =>
      rw [before] at isHeld
      cases isHeld
      exact Or.inl (same ▸ before)
  · exact Or.inl isHeld

theorem keepFirst_self {α : Type} {held : NodeDigest → Option α} {digest : NodeDigest} {value : α}
    (same : ∀ present, held digest = some present → present = value) :
    keepFirst held digest value digest = some value := by
  unfold keepFirst
  rw [if_pos rfl]
  cases before : held digest with
  | none => rfl
  | some present =>
    rw [same present before]
    rfl

section Puts

variable {crypto : Crypto} {pool : Node → Prop} {store : NodeStore}

theorem putNode_ok (free : CollisionFree crypto pool) (sound : store.Sound crypto pool)
    {node : NodeV2} (pooled : pool (.heads node)) :
    ∃ after, putNode crypto node store = .ok (node.digest crypto) after ∧ store.Extends after ∧
      after.Sound crypto pool ∧ after.nodes (node.digest crypto) = some node := by
  refine ⟨_, rfl, ⟨fun _ _ held => keepFirst_of_held held, fun _ _ held => held,
    fun _ _ held => held⟩, ⟨?_, sound.authors, sound.shapes⟩, keepFirst_self ?_⟩
  · intro digest found held
    rcases keepFirst_cases held with before | ⟨rfl, rfl⟩
    · exact sound.nodes digest found before
    · exact ⟨rfl, pooled⟩
  · intro present before
    rcases sound.nodes _ present before with ⟨sameDigest, inPool⟩
    exact Node.heads.inj (free.1 _ inPool _ pooled sameDigest)

theorem putAuthor_ok (free : CollisionFree crypto pool) (sound : store.Sound crypto pool)
    {node : AuthorNode} (pooled : pool (.author node)) :
    ∃ after, putAuthor crypto node store = .ok (node.digest crypto) after ∧ store.Extends after ∧
      after.Sound crypto pool ∧ after.authors (node.digest crypto) = some node := by
  refine ⟨_, rfl, ⟨fun _ _ held => held, fun _ _ held => keepFirst_of_held held,
    fun _ _ held => held⟩, ⟨sound.nodes, ?_, sound.shapes⟩, keepFirst_self ?_⟩
  · intro digest found held
    rcases keepFirst_cases held with before | ⟨rfl, rfl⟩
    · exact sound.authors digest found before
    · exact ⟨rfl, pooled⟩
  · intro present before
    rcases sound.authors _ present before with ⟨sameDigest, inPool⟩
    exact Node.author.inj (free.1 _ inPool _ pooled sameDigest)

theorem putShape_ok (free : CollisionFree crypto pool) (sound : store.Sound crypto pool)
    {node : ShapeNodeV2} (pooled : pool (.shape node)) :
    ∃ after, putShape crypto node store = .ok (node.digest crypto) after ∧ store.Extends after ∧
      after.Sound crypto pool ∧ after.shapes (node.digest crypto) = some node := by
  refine ⟨_, rfl, ⟨fun _ _ held => held, fun _ _ held => held,
    fun _ _ held => keepFirst_of_held held⟩, ⟨sound.nodes, sound.authors, ?_⟩, keepFirst_self ?_⟩
  · intro digest found held
    rcases keepFirst_cases held with before | ⟨rfl, rfl⟩
    · exact sound.shapes digest found before
    · exact ⟨rfl, pooled⟩
  · intro present before
    rcases sound.shapes _ present before with ⟨sameDigest, inPool⟩
    exact Node.shape.inj (free.1 _ inPool _ pooled sameDigest)

end Puts

section Loads

variable {crypto : Crypto} {store : NodeStore} {digest : NodeDigest}

theorem verified_eq_ok_iff {α : Type} {digestOf : α → NodeDigest} {found : Option α} {node : α} :
    verified digest digestOf found = .ok node ↔ found = some node ∧ digestOf node = digest := by
  unfold verified
  cases found with
  | none => simp
  | some present =>
    by_cases matches_ : digestOf present = digest
    · simp only [matches_, if_true, Except.ok.injEq, Option.some.injEq]
      constructor
      · intro same
        exact ⟨same, same ▸ matches_⟩
      · exact fun facts => facts.1
    · simp only [matches_, if_false, reduceCtorEq, Option.some.injEq, false_iff, not_and]
      intro same
      exact same ▸ matches_

end Loads

end Yadorilink.Namespace
