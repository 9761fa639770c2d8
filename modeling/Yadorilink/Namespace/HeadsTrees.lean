import Yadorilink.Namespace.BucketReads
import Yadorilink.Namespace.Engine

/-! The canonical heads trie of a tree of entries: its nodes, its digest and the view
of its root. An entry is what a node tells of a path's heads: the digest of the
bucket trie and its counts. A subtree whose entries are all alike is kept as their
shape and the one entry. -/

namespace Yadorilink.Namespace

open Std Patricia List

/-! ## Trees of entries -/

/-- A path's heads as the heads trie has them. -/
structure Entry where
  buckets : NodeDigest
  perEntry : HeadAggregates
deriving DecidableEq

abbrev HeadsTree := Patricia Entry

def treeCounts (tree : HeadsTree) : HeadAggregates :=
  ⟨tree.total fun entry => entry.perEntry.headCount,
    tree.total fun entry => entry.perEntry.duplicateAuthorCount⟩

def conflicted (tree : HeadsTree) : Bool := tree.any fun entry => 1 < entry.perEntry.headCount

section Canonical

variable (crypto : Crypto)

def entryOf (heads : AuthorBuckets) : Entry :=
  ⟨bucketDigest crypto heads, headCounts (bucketTree heads)⟩

def nameOf (own : Option Entry) : NodeDigest := (own.map Entry.buckets).getD (emptyDigest crypto)

def shapeDigest : HeadsTree → NodeDigest
  | .empty => emptyDigest crypto
  | .node skip own zero one =>
    (ShapeNodeV2.mk skip own.isSome (Patricia.count (.node skip own zero one))
      (shapeDigest zero) (shapeDigest one)).digest crypto

def shapeBodyOf (own : Option Entry) (zero one : HeadsTree) : ShapeBody :=
  ⟨own.isSome, Patricia.count (.node [] own zero one), shapeDigest crypto zero,
    shapeDigest crypto one⟩

/-- The node of a tree over children with these digests. -/
def nodeOver (skip : Bits) (own : Option Entry) (zero one : HeadsTree)
    (zeroDigest oneDigest : NodeDigest) : NodeV2 :=
  match Patricia.common (.node skip own zero one) with
  | some entry =>
    .uniform skip (shapeDigest crypto (.node [] own zero one)) entry.buckets
      (treeCounts (.node skip own zero one))
  | none =>
    .branch skip (nameOf crypto own) (treeCounts (.node skip own zero one))
      (conflicted (.node skip own zero one)) zeroDigest oneDigest

def rootDigest : HeadsTree → NodeDigest
  | .empty => emptyDigest crypto
  | .node skip own zero one =>
    (nodeOver crypto skip own zero one (rootDigest zero) (rootDigest one)).digest crypto

def nodeOf (skip : Bits) (own : Option Entry) (zero one : HeadsTree) : NodeV2 :=
  nodeOver crypto skip own zero one (rootDigest crypto zero) (rootDigest crypto one)

def viewOf : HeadsTree → View
  | .empty => .empty
  | .node skip own zero one =>
    match Patricia.common (.node skip own zero one) with
    | some entry =>
      .uniform skip entry.buckets entry.perEntry (shapeBodyOf crypto own zero one)
    | none =>
      .branch skip (nameOf crypto own) (treeCounts (.node skip own zero one))
        (conflicted (.node skip own zero one)) (rootDigest crypto zero) (rootDigest crypto one)

/-- The nodes a tree's operations can read or write: those of every position. -/
def headNodes (tree : HeadsTree) : List Node :=
  tree.spread.flatMap fun part =>
    match part with
    | .empty => []
    | .node skip own zero one =>
      [.heads (nodeOf crypto skip own zero one),
        .shape ((shapeBodyOf crypto own zero one).node skip)]

variable (pool : Node → Prop)

/-- A tree an operation may build: canonical, with countable heads. -/
structure Usable (tree : HeadsTree) : Prop where
  canonical : tree.Canonical
  pooled : ∀ node ∈ headNodes crypto tree, pool node
  fits : (treeCounts tree).headCount < headLimit

def Named (tree : HeadsTree) : Prop :=
  ∀ key entry, tree.get key = some entry →
    ∃ heads, Stored crypto pool heads ∧ entry = entryOf crypto heads

end Canonical

/-! ## What a tree hands to its parts -/

section Parts

variable {crypto : Crypto} {pool : Node → Prop} {tree : HeadsTree}

theorem mem_headNodes_child {node : Node} {bit : Bool}
    (member : node ∈ headNodes crypto (tree.child bit)) : node ∈ headNodes crypto tree := by
  rcases mem_flatMap.mp member with ⟨part, isPart, isNode⟩
  exact mem_flatMap.mpr ⟨part, mem_spread_child isPart, isNode⟩

theorem Usable.child (usable : Usable crypto pool tree) (bit : Bool) :
    Usable crypto pool (tree.child bit) := by
  refine ⟨usable.canonical.child bit, ?_, ?_⟩
  · exact fun node member => usable.pooled node (mem_headNodes_child member)
  · exact Nat.lt_of_le_of_lt (total_child_le _ tree bit) usable.fits

theorem Usable.sub (usable : Usable crypto pool tree) (key : Bits) :
    Usable crypto pool (tree.sub key) := by
  induction key generalizing tree with
  | nil => exact usable
  | cons bit rest induction => exact induction (usable.child bit)

section Node

variable {skip : Bits} {own : Option Entry} {zero one : HeadsTree}

section

variable (usable : Usable crypto pool (.node skip own zero one))

include usable

theorem Usable.node_sub :
    Usable crypto pool (.node [] own zero one) := by
  have cut := usable.sub skip
  have moved : (node skip own zero one) = (node [] own zero one).under skip := by
    rw [under, append_nil]
  rw [moved, sub_under] at cut
  exact cut

theorem Usable.zeroPart :
    Usable crypto pool zero := usable.node_sub.child false

theorem Usable.onePart :
    Usable crypto pool one := usable.node_sub.child true

end

theorem Named.zeroPart (named : Named crypto pool (.node skip own zero one)) :
    Named crypto pool zero :=
  fun key entry found => named (skip ++ false :: key) entry
    (by rw [get_node_append]; exact found)

theorem Named.onePart (named : Named crypto pool (.node skip own zero one)) :
    Named crypto pool one :=
  fun key entry found => named (skip ++ true :: key) entry
    (by rw [get_node_append]; exact found)

theorem Usable.node_pooled (usable : Usable crypto pool (.node skip own zero one)) :
    pool (.heads (nodeOf crypto skip own zero one)) ∧
      pool (.shape ((shapeBodyOf crypto own zero one).node skip)) := by
  have here : node skip own zero one ∈ (node skip own zero one).spread :=
    mem_spread_self (by simp)
  constructor
  · exact usable.pooled _ (mem_flatMap.mpr ⟨_, here, .head _⟩)
  · exact usable.pooled _ (mem_flatMap.mpr
      ⟨_, here, .tail _ (.head _)⟩)

end Node

theorem Usable.rootDigest_ne_empty (free : CollisionFree crypto pool)
    (usable : Usable crypto pool tree) (holds : tree ≠ .empty) :
    rootDigest crypto tree ≠ emptyDigest crypto := by
  cases tree with
  | empty => exact absurd rfl holds
  | node skip own zero one => exact free.2 _ usable.node_pooled.1

theorem Usable.shapeDigest_ne_empty (free : CollisionFree crypto pool)
    (usable : Usable crypto pool tree) (holds : tree ≠ .empty) :
    shapeDigest crypto tree ≠ emptyDigest crypto := by
  cases tree with
  | empty => exact absurd rfl holds
  | node skip own zero one => exact free.2 _ usable.node_pooled.2

end Parts

/-! ## Digests tell trees apart -/

section Digests

variable {crypto : Crypto} {pool : Node → Prop}

section

variable (free : CollisionFree crypto pool)

include free

theorem eq_of_shapeDigest {entry : Entry}
    {first second : HeadsTree} (firstUsable : Usable crypto pool first)
    (secondUsable : Usable crypto pool second)
    (firstShares : first = .empty ∨ first.common = some entry)
    (secondShares : second = .empty ∨ second.common = some entry)
    (same : shapeDigest crypto first = shapeDigest crypto second) : first = second := by
  induction first generalizing second with
  | empty =>
    by_contra different
    exact secondUsable.shapeDigest_ne_empty free (Ne.symm different) same.symm
  | node skip own zero one zeroInduction oneInduction =>
    cases second with
    | empty => exact absurd same (firstUsable.shapeDigest_ne_empty free (by simp))
    | node otherSkip otherOwn otherZero otherOne =>
      have equal := Node.shape.inj
        (free.1 _ firstUsable.node_pooled.2 _ secondUsable.node_pooled.2 same)
      injection equal with sameSkip sameOwn _ sameZero sameOne
      have firstShares := common_node_eq_some (firstShares.resolve_left (by simp))
      have secondShares := common_node_eq_some (secondShares.resolve_left (by simp))
      have sameOwn : own = otherOwn := by
        cases own with
        | none =>
          cases otherOwn with
          | none => rfl
          | some found => cases sameOwn
        | some found =>
          cases otherOwn with
          | none => cases sameOwn
          | some other =>
            rw [Option.some_or] at firstShares secondShares
            rw [firstShares.1, secondShares.1]
      rw [sameSkip, sameOwn,
        zeroInduction firstUsable.zeroPart secondUsable.zeroPart firstShares.2.1 secondShares.2.1
          sameZero,
        oneInduction firstUsable.onePart secondUsable.onePart firstShares.2.2 secondShares.2.2 sameOne]

theorem entry_eq_of_buckets {first second : AuthorBuckets}
    (firstStored : Stored crypto pool first) (secondStored : Stored crypto pool second)
    (same : (entryOf crypto first).buckets = (entryOf crypto second).buckets) :
    entryOf crypto first = entryOf crypto second := by
  rw [firstStored.bucketDigest_injective free secondStored same]

theorem Named.own_eq {first second : HeadsTree}
    (firstNamed : Named crypto pool first) (secondNamed : Named crypto pool second)
    (same : nameOf crypto first.here = nameOf crypto second.here) : first.here = second.here := by
  have nameOfSome : ∀ {tree : HeadsTree} {entry : Entry}, Named crypto pool tree →
      tree.here = some entry → nameOf crypto tree.here ≠ emptyDigest crypto := by
    intro tree entry named found
    rcases named [] entry found with ⟨heads, stored, rfl⟩
    rw [found]
    exact stored.bucketDigest_ne_empty free
  cases firstHere : first.here with
  | none =>
    cases secondHere : second.here with
    | none => rfl
    | some entry =>
      rw [firstHere] at same
      exact absurd same.symm (nameOfSome secondNamed secondHere)
  | some entry =>
    cases secondHere : second.here with
    | none =>
      rw [secondHere] at same
      exact absurd same (nameOfSome firstNamed firstHere)
    | some other =>
      rw [firstHere, secondHere] at same
      rcases firstNamed [] entry firstHere with ⟨firstHeads, firstStored, rfl⟩
      rcases secondNamed [] other secondHere with ⟨secondHeads, secondStored, rfl⟩
      rw [entry_eq_of_buckets free firstStored secondStored same]

theorem rootDigest_injective {first second : HeadsTree}
    (firstUsable : Usable crypto pool first) (secondUsable : Usable crypto pool second)
    (firstNamed : Named crypto pool first) (secondNamed : Named crypto pool second)
    (same : rootDigest crypto first = rootDigest crypto second) : first = second := by
  induction first generalizing second with
  | empty =>
    by_contra different
    exact secondUsable.rootDigest_ne_empty free (Ne.symm different) same.symm
  | node skip own zero one zeroInduction oneInduction =>
    cases second with
    | empty => exact absurd same (firstUsable.rootDigest_ne_empty free (by simp))
    | node otherSkip otherOwn otherZero otherOne =>
      have equal := Node.heads.inj
        (free.1 _ firstUsable.node_pooled.1 _ secondUsable.node_pooled.1 same)
      rw [nodeOf, nodeOf, nodeOver, nodeOver] at equal
      cases shared : common (.node skip own zero one) with
      | some entry =>
        cases otherShared : common (.node otherSkip otherOwn otherZero otherOne) with
        | none =>
          rw [shared, otherShared] at equal
          cases equal
        | some other =>
          rw [shared, otherShared] at equal
          injection equal with sameSkip sameShape sameBuckets _
          rcases firstUsable.canonical.exists_of_common shared with ⟨key, found⟩
          rcases secondUsable.canonical.exists_of_common otherShared with
            ⟨otherKey, otherFound⟩
          rcases firstNamed key entry found with ⟨heads, stored, rfl⟩
          rcases secondNamed otherKey other otherFound with ⟨_, otherStored, rfl⟩
          rw [← entry_eq_of_buckets free stored otherStored sameBuckets] at otherShared
          have parts := eq_of_shapeDigest free firstUsable.node_sub secondUsable.node_sub
            (Or.inr shared) (Or.inr otherShared) sameShape
          injection parts with _ sameOwn sameZero sameOne
          rw [sameSkip, sameOwn, sameZero, sameOne]
      | none =>
        cases otherShared : common (.node otherSkip otherOwn otherZero otherOne) with
        | some other =>
          rw [shared, otherShared] at equal
          cases equal
        | none =>
          rw [shared, otherShared] at equal
          injection equal with sameSkip sameName _ _ sameZero sameOne
          have cut : ∀ {skip : Bits} {own : Option Entry} {zero one : HeadsTree},
              Named crypto pool (.node skip own zero one) →
              Named crypto pool (.node [] own zero one) := by
            intro skip own zero one named key entry found
            exact named (skip ++ key) entry (by rw [get_node_append]; exact found)
          have sameOwn : own = otherOwn :=
            (cut firstNamed).own_eq free (cut secondNamed) sameName
          rw [sameSkip, sameOwn,
            zeroInduction firstUsable.zeroPart secondUsable.zeroPart firstNamed.zeroPart
              secondNamed.zeroPart sameZero,
            oneInduction firstUsable.onePart secondUsable.onePart firstNamed.onePart secondNamed.onePart
              sameOne]

end

end Digests

end Yadorilink.Namespace
