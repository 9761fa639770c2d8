import Yadorilink.Foundation.Patricia
import Yadorilink.Foundation.Transaction
import Yadorilink.Namespace.Keys

/-! A path's bucket trie: the authenticated map from author to that author's heads at
the path. Author keys are prefix-free, so every bucket sits at a leaf and every inner
node has two subtrees; the trie and its digest are a function of the map alone. -/

namespace Yadorilink.Namespace

open Std

/-! ## Maps of buckets -/

/-- A bucket as a set: sorted, without repetitions. -/
def sortDedup (bucket : List DeltaHash) : List DeltaHash :=
  (ExtTreeSet.ofList bucket compare).toList

/-- The buckets as sets, empty ones dropped; a bucket over `maxSelfHeads` is
malformed. -/
def normalize (heads : AuthorBuckets) : Except NamespaceError AuthorBuckets :=
  OrderedMap.insertEach (fun author =>
    let bucket := sortDedup ((heads[author]?).getD [])
    if bucket.length > maxSelfHeads then
      .error (.malformed .bucketOverBound)
    else
      .ok (if bucket.isEmpty then none else some bucket)) heads.keys ∅

def flatten (heads : AuthorBuckets) : List DeltaHash := heads.toList.flatMap Prod.snd

def aggregatesOf (heads : AuthorBuckets) : HeadAggregates :=
  heads.toList.foldl (fun sum entry => sum.plus (.ofBucket entry.2.length)) .zero

/-! ## The trie in a store -/

def commonPrefix : Bits → Bits → Nat
  | first :: firsts, second :: seconds => if first = second then commonPrefix firsts seconds + 1 else 0
  | _, _ => 0

section Model

variable (crypto : Crypto)

/-- The canonical trie of entries with distinct, ascending, prefix-free keys that
agree on their first `depth` bits. -/
def build : Nat → List (Bits × List DeltaHash) → Nat → StoreM NodeDigest
  | _, [], _ => return emptyDigest crypto
  | _, [(key, heads)], depth => putAuthor crypto (.bucket (key.drop depth) heads)
  | 0, _ :: _ :: _, _ => throw .outOfTurns
  | turns + 1, (first, heads) :: second :: others, depth =>
    let entries := (first, heads) :: second :: others
    let last := ((second :: others).getLastD second).1
    let shared := commonPrefix (first.drop depth) (last.drop depth)
    let fork := depth + shared
    if first.length ≤ fork ∨ last.length ≤ fork then
      throw (.malformed .authorKeysNotPrefixFree)
    else do
      let zeroEntries := entries.takeWhile fun entry => !entry.1.getD fork false
      let oneEntries := entries.drop zeroEntries.length
      let zero ← build turns zeroEntries (fork + 1)
      let one ← build turns oneEntries (fork + 1)
      let aggregates := (zeroEntries ++ oneEntries).foldl
        (fun sum entry => sum.plus (.ofBucket entry.2.length)) .zero
      putAuthor crypto (.branch ((first.drop depth).take shared) aggregates zero one)

/-- Each author's bucket under the author's key, in key order. -/
def keyedEntries (heads : AuthorBuckets) : Except NamespaceError (List (Bits × List DeltaHash)) := do
  let keyed ← heads.toList.mapM fun entry => do
    return (← authorKey entry.1, entry.2)
  return (ExtTreeMap.ofList keyed compare).toList

/-- Stores the bucket trie of the heads and returns its digest and counts. -/
def storeHeads (heads : AuthorBuckets) : StoreM (NodeDigest × HeadAggregates) := do
  let heads ← reading fun _ => normalize heads
  let entries ← reading fun _ => keyedEntries heads
  let digest ← build crypto entries.length entries 0
  return (digest, aggregatesOf heads)

/-- The counts of the bucket trie `digest`, read from its root alone. -/
def aggregates (store : NodeStore) (digest : NodeDigest) :
    Except NamespaceError HeadAggregates :=
  if digest = emptyDigest crypto then
    .ok .zero
  else do
    let node ← loadAuthor crypto store digest
    return node.aggregates

/-- Reads the trie `digest` into `out`, with the bits of its position and the nodes
that may still be read. Each node read takes one off the budget, so the budget at the
start bounds the descent. -/
def readInto (store : NodeStore) : Nat → NodeDigest → Bits → Nat → AuthorBuckets →
    Except NamespaceError (HeadAggregates × Nat × AuthorBuckets)
  | 0, digest, _, _, _ =>
    if digest = emptyDigest crypto then .error (.notCanonical digest)
    else .error (.malformed .exceedsBudget)
  | turns + 1, digest, key, budget, out =>
    if digest = emptyDigest crypto then
      .error (.notCanonical digest)
    else if budget = 0 then
      .error (.malformed .exceedsBudget)
    else do
      match ← loadAuthor crypto store digest with
      | .bucket skip heads =>
        let author ← authorOfKey (key ++ skip)
        return (.ofBucket heads.length, budget - 1, out.insert author heads)
      | .branch skip aggregates zero one =>
        if zero = emptyDigest crypto ∨ one = emptyDigest crypto then
          .error (.notCanonical digest)
        else do
          let (zeroCounts, budget, out) ←
            readInto store turns zero (key ++ skip ++ [false]) (budget - 1) out
          let (oneCounts, budget, out) ←
            readInto store turns one (key ++ skip ++ [true]) budget out
          if zeroCounts.checkedPlus oneCounts ≠ some aggregates then
            .error (.notCanonical digest)
          else
            .ok (aggregates, budget, out)

/-- The whole map of the bucket trie `digest` and what is left of the budget. -/
def read (store : NodeStore) (digest : NodeDigest) (budget : Nat) :
    Except NamespaceError (AuthorBuckets × Nat) :=
  if digest = emptyDigest crypto then
    .ok (∅, budget)
  else do
    let (_, budget, out) ← readInto crypto store budget digest [] budget ∅
    return (out, budget)

def lookupBucketFrom (store : NodeStore) : Nat → NodeDigest → Bits →
    Except NamespaceError (List DeltaHash)
  | 0, _, _ => .error .outOfTurns
  | turns + 1, digest, key =>
    if digest = emptyDigest crypto then
      .ok []
    else do
      match ← loadAuthor crypto store digest with
      | .bucket skip heads => return if skip = key then heads else []
      | .branch skip _ zero one =>
        if skip.isPrefixOf key then
          match key.drop skip.length with
          | [] => .ok []
          | bit :: rest => lookupBucketFrom store turns (if bit then one else zero) rest
        else
          .ok []

/-- One author's bucket in the bucket trie `digest`. -/
def bucketLookup (store : NodeStore) (digest : NodeDigest) (author : AuthorId) :
    Except NamespaceError (List DeltaHash) := do
  let key ← authorKey author
  lookupBucketFrom crypto store (key.length + 1) digest key

end Model

/-! ## The canonical trie -/

/-- The bucket trie's node at the top of a tree of buckets, with its digest; an inner
node has no bucket of its own. -/
def headCounts (tree : Patricia (List DeltaHash)) : HeadAggregates :=
  ⟨tree.total List.length, tree.total fun heads => if 1 < heads.length then 1 else 0⟩

section Canonical

variable (crypto : Crypto)

def authorDigest : Patricia (List DeltaHash) → NodeDigest
  | .empty => emptyDigest crypto
  | .node skip (some heads) _ _ => (AuthorNode.bucket skip heads).digest crypto
  | .node skip none zero one =>
    (AuthorNode.branch skip (headCounts (.node skip none zero one)) (authorDigest zero)
      (authorDigest one)).digest crypto

def authorNodes : Patricia (List DeltaHash) → List AuthorNode
  | .empty => []
  | .node skip (some heads) _ _ => [.bucket skip heads]
  | .node skip none zero one =>
    .branch skip (headCounts (.node skip none zero one)) (authorDigest crypto zero)
      (authorDigest crypto one) :: (authorNodes zero ++ authorNodes one)

def bucketTree (heads : AuthorBuckets) : Patricia (List DeltaHash) :=
  match keyedEntries heads with
  | .ok entries => .ofEntries entries
  | .error _ => .empty

def bucketDigest (heads : AuthorBuckets) : NodeDigest := authorDigest crypto (bucketTree heads)

end Canonical

end Yadorilink.Namespace
