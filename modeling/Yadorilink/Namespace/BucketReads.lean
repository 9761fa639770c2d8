import Yadorilink.Namespace.BucketTries

/-! Reading a bucket trie back. A trie whose nodes are all in the store is read in as
many node reads as it has nodes, and gives the map it was stored for. -/

namespace Yadorilink.Namespace

open Std ExtTreeMap Patricia HeadAggregates
open Transaction (Achieves)

/-! ## Sizes -/

section Sizes

variable (crypto : Crypto) {tree : Patricia (List DeltaHash)}

theorem authorNodes_length (canonical : tree.Canonical) (leafy : tree.Leafy)
    (holds : tree ≠ .empty) : (authorNodes crypto tree).length + 1 ≤ 2 * tree.count := by
  induction tree with
  | empty => exact absurd rfl holds
  | node skip own zero one zeroInduction oneInduction =>
    rcases canonical with ⟨parts, zeroCanonical, oneCanonical⟩
    rcases leafy with ⟨atLeaf, zeroLeafy, oneLeafy⟩
    cases own with
    | some heads =>
      rcases atLeaf rfl with ⟨rfl, rfl⟩
      simp [authorNodes, count]
    | none =>
      rcases parts with entry | ⟨zeroHolds, oneHolds⟩
      · cases entry
      · have zeroBound := zeroInduction zeroCanonical zeroLeafy zeroHolds
        have oneBound := oneInduction oneCanonical oneLeafy oneHolds
        simp only [authorNodes, count, List.length_cons, List.length_append,
          Option.isSome_none, Bool.toNat_false]
        omega

end Sizes

theorem headCounts_leaf (skip : Bits) (heads : List DeltaHash) :
    headCounts (.node skip (some heads) .empty .empty) = .ofBucket heads.length := by
  simp [headCounts, ofBucket, total]

theorem headCounts_duplicates (tree : Patricia (List DeltaHash)) :
    (headCounts tree).duplicateAuthorCount ≤ (headCounts tree).headCount := by
  induction tree with
  | empty => exact Nat.le_refl _
  | node skip own zero one zeroInduction oneInduction =>
    simp only [headCounts] at zeroInduction oneInduction
    cases own with
    | none =>
      simp only [headCounts, total, Option.elim_none]
      omega
    | some heads =>
      simp only [headCounts, total, Option.elim_some]
      split <;> omega

/-! ## A trie in the store -/

/-- A trie that was stored: every node is there, and none was mistaken for nothing. -/
structure Readable (crypto : Crypto) (pool : Node → Prop) (store : NodeStore)
    (tree : Patricia (List DeltaHash)) : Prop where
  canonical : tree.Canonical
  leafy : tree.Leafy
  pooled : AuthorsPooled crypto pool tree
  held : AuthorsHeld crypto store tree

section Reading

variable {crypto : Crypto} {pool : Node → Prop} {store : NodeStore}
  {tree : Patricia (List DeltaHash)}

theorem Readable.branch {skip : Bits} {zero one : Patricia (List DeltaHash)}
    (readable : Readable crypto pool store (.node skip none zero one)) :
    (zero ≠ .empty ∧ one ≠ .empty) ∧ Readable crypto pool store zero ∧
      Readable crypto pool store one := by
  rcases readable with ⟨⟨parts, zeroCanonical, oneCanonical⟩, ⟨_, zeroLeafy, oneLeafy⟩, pooled, held⟩
  refine ⟨parts.resolve_left (by simp), ⟨zeroCanonical, zeroLeafy, ?_, ?_⟩,
    ⟨oneCanonical, oneLeafy, ?_, ?_⟩⟩
  · exact fun node member => pooled node (mem_authorNodes_zero member)
  · exact fun node member => held node (mem_authorNodes_zero member)
  · exact fun node member => pooled node (mem_authorNodes_one member)
  · exact fun node member => held node (mem_authorNodes_one member)

theorem Readable.loadAuthor_eq {node : AuthorNode}
    (readable : Readable crypto pool store tree) (member : node ∈ authorNodes crypto tree) :
    loadAuthor crypto store (node.digest crypto) = .ok node :=
  verified_eq_ok_iff.mpr ⟨readable.held node member, rfl⟩

theorem Readable.aggregates_eq (free : CollisionFree crypto pool)
    (readable : Readable crypto pool store tree) :
    aggregates crypto store (authorDigest crypto tree) = .ok (headCounts tree) := by
  by_cases holds : tree = .empty
  · subst holds
    rw [authorDigest, aggregates, if_pos rfl]
    rfl
  · rw [aggregates, if_neg (authorDigest_ne_empty free readable.pooled holds)]
    cases tree with
    | empty => exact absurd rfl holds
    | node skip own zero one =>
      cases own with
      | some heads =>
        rcases readable.leafy.1 rfl with ⟨rfl, rfl⟩
        rw [authorDigest, readable.loadAuthor_eq (.head _), headCounts_leaf]
        rfl
      | none =>
        rw [authorDigest, readable.loadAuthor_eq (.head _)]
        rfl

def insertAuthor (out : AuthorBuckets) (entry : Bits × List DeltaHash) : AuthorBuckets :=
  match authorOfKey entry.1 with
  | .ok author => out.insert author entry.2
  | .error _ => out

theorem Readable.readInto_eq (free : CollisionFree crypto pool)
    (readable : Readable crypto pool store tree) (holds : tree ≠ .empty)
    (within : (headCounts tree).inRange = true) {position : Bits}
    (named : ∀ entry ∈ placed position tree, ∃ author, authorOfKey entry.1 = .ok author)
    {turns budget : Nat} (enough : (authorNodes crypto tree).length ≤ budget)
    (enoughTurns : (authorNodes crypto tree).length ≤ turns) (out : AuthorBuckets) :
    readInto crypto store turns (authorDigest crypto tree) position budget out =
      .ok (headCounts tree, budget - (authorNodes crypto tree).length,
        (placed position tree).foldl insertAuthor out) := by
  induction tree generalizing turns budget position out with
  | empty => exact absurd rfl holds
  | node skip own zero one zeroInduction oneInduction =>
    have notEmpty := authorDigest_ne_empty free readable.pooled holds
    cases own with
    | some heads =>
      rcases readable.leafy.1 rfl with ⟨rfl, rfl⟩
      have alone : placed position (.node skip (some heads) .empty .empty) =
          [(position ++ skip, heads)] := by
        simp [placed, entries]
      rw [alone] at named ⊢
      rcases named _ (.head _) with ⟨author, isAuthor⟩
      simp only [authorNodes, List.length_singleton] at enough enoughTurns ⊢
      obtain ⟨left, rfl⟩ : ∃ left, turns = left + 1 := ⟨turns - 1, by omega⟩
      rw [readInto, if_neg notEmpty, if_neg (by omega), authorDigest,
        readable.loadAuthor_eq (.head _), headCounts_leaf]
      have isAuthor : authorOfKey (position ++ skip) = .ok author := isAuthor
      simp only [List.foldl_cons, List.foldl_nil, insertAuthor]
      change (do
        let author ← authorOfKey (position ++ skip)
        pure (ofBucket heads.length, budget - 1, out.insert author heads)) = _
      rw [isAuthor]
      rfl
    | none =>
      rcases readable.branch with ⟨⟨zeroHolds, oneHolds⟩, zeroReadable, oneReadable⟩
      have zeroNotEmpty := authorDigest_ne_empty free zeroReadable.pooled zeroHolds
      have oneNotEmpty := authorDigest_ne_empty free oneReadable.pooled oneHolds
      rw [placed_branch] at named ⊢
      rw [headCounts_branch] at within ⊢
      rcases inRange_of_add within with ⟨zeroWithin, oneWithin⟩
      simp only [authorNodes, List.length_cons, List.length_append] at enough enoughTurns ⊢
      obtain ⟨left, rfl⟩ : ∃ left, turns = left + 1 := ⟨turns - 1, by omega⟩
      have zeroRead := zeroInduction zeroReadable zeroHolds zeroWithin
        (fun entry member => named entry (List.mem_append_left _ member))
        (show _ ≤ budget - 1 by omega) (show _ ≤ left by omega) out
      have oneRead := oneInduction oneReadable oneHolds oneWithin
        (fun entry member => named entry (List.mem_append_right _ member))
        (show _ ≤ budget - 1 - (authorNodes crypto zero).length by omega)
        (show _ ≤ left by omega)
        ((placed (position ++ skip ++ [false]) zero).foldl insertAuthor out)
      have sums : (headCounts zero).checkedPlus (headCounts one) =
          some ((headCounts zero).add (headCounts one)) :=
        checkedPlus_eq_some_iff.mpr ⟨within, rfl⟩
      have loaded := readable.loadAuthor_eq (.head _)
      rw [readInto, if_neg notEmpty, if_neg (by omega), authorDigest, loaded]
      change (if _ then _ else _) = _
      rw [if_neg (not_or.mpr ⟨zeroNotEmpty, oneNotEmpty⟩), zeroRead]
      change (do
        let fromOne ← readInto crypto store left (authorDigest crypto one)
          (position ++ skip ++ [true]) (budget - 1 - (authorNodes crypto zero).length)
          ((placed (position ++ skip ++ [false]) zero).foldl insertAuthor out)
        if (headCounts zero).checkedPlus fromOne.1 ≠
            some (headCounts (.node skip none zero one)) then
          .error (.notCanonical _)
        else
          .ok (headCounts (.node skip none zero one), fromOne.2.1, fromOne.2.2)) = _
      rw [oneRead]
      change (if _ then _ else _) = _
      rw [headCounts_branch, sums, if_neg (by simp), List.foldl_append]
      dsimp only
      congr 3
      omega

end Reading

/-! ## The map of a trie -/

/-- What a map under construction holds for the author of a key. -/
def bucketAt (out : AuthorBuckets) (key : Bits) : Option (List DeltaHash) :=
  match authorOfKey key with
  | .ok author => out[author]?
  | .error _ => none

theorem bucketAt_insertAuthor (out : AuthorBuckets) (entry : Bits × List DeltaHash) (key : Bits) :
    bucketAt (insertAuthor out entry) key =
      if entry.1 = key then bucketAt (insertAuthor ∅ entry) key else bucketAt out key := by
  unfold bucketAt insertAuthor
  cases reads : authorOfKey key with
  | error failure => simp
  | ok author =>
    by_cases same : entry.1 = key
    · rw [if_pos same, same, reads]
      simp
    · rw [if_neg same]
      cases inserted : authorOfKey entry.1 with
      | error failure => rfl
      | ok other =>
        have different : other ≠ author := by
          intro equal
          rw [equal, authorOfKey_eq_ok_iff] at inserted
          rw [authorOfKey_eq_ok_iff, inserted] at reads
          exact same (Except.ok.inj reads)
        simp [different]

theorem foldl_insertAuthor_keyed (listed : List (Bits × List DeltaHash)) (out : AuthorBuckets)
    {author : AuthorId} (unkeyed : ∀ key, authorKey author ≠ .ok key) :
    (listed.foldl insertAuthor out)[author]? = out[author]? := by
  induction listed generalizing out with
  | nil => rfl
  | cons entry rest induction =>
    rw [List.foldl_cons, induction, insertAuthor]
    cases reads : authorOfKey entry.1 with
    | error failure => rfl
    | ok other =>
      have different : other ≠ author := by
        intro equal
        rw [equal, authorOfKey_eq_ok_iff] at reads
        exact unkeyed _ reads
      simp [different]

theorem Normal.foldl_insertAuthor {heads : AuthorBuckets} (normal : Normal heads) :
    (bucketTree heads).entries.foldl insertAuthor ∅ = heads := by
  have distinct : ((bucketTree heads).entries.map Prod.fst).Nodup := by
    rw [List.Nodup, List.pairwise_map]
    apply (bucketTree heads).entries_ascending.imp
    intro first second smaller equal
    simp [equal] at smaller
  apply ext_getElem?
  intro author
  cases keyed : authorKey author with
  | error failure =>
    have unkeyed : ∀ key, authorKey author ≠ .ok key := by simp [keyed]
    rw [foldl_insertAuthor_keyed _ _ unkeyed, getElem?_empty]
    cases stored : heads[author]? with
    | none => rfl
    | some bucket =>
      rcases normal.keyed author bucket stored with ⟨key, isKey⟩
      exact absurd isKey (unkeyed key)
  | ok key =>
    have reads := authorOfKey_eq_ok_iff.mpr keyed
    have seen : ((bucketTree heads).entries.foldl insertAuthor ∅)[author]? =
        bucketAt ((bucketTree heads).entries.foldl insertAuthor ∅) key := by
      rw [bucketAt, reads]
    rw [seen]
    cases stored : heads[author]? with
    | some bucket =>
      have member : (key, bucket) ∈ (bucketTree heads).entries :=
        mem_entries_iff.mpr (normal.get_bucketTree.mpr ⟨author, keyed, stored⟩)
      rw [KeyedFold.view_foldl_of_mem bucketAt Prod.fst
        (fun entry _ => bucketAt (insertAuthor ∅ entry) entry.1) ?_ ∅ distinct member]
      · simp [bucketAt, insertAuthor, reads]
      · intro out entry other
        rw [bucketAt_insertAuthor]
        by_cases same : entry.1 = other
        · rw [if_pos same, if_pos same, same]
        · rw [if_neg same, if_neg same]
    | none =>
      have absent : key ∉ (bucketTree heads).entries.map Prod.fst := by
        intro member
        rcases List.mem_map.mp member with ⟨⟨_, bucket⟩, listed, rfl⟩
        rcases normal.get_bucketTree.mp (mem_entries_iff.mp listed) with
          ⟨other, isOther, held⟩
        rw [authorKey_injective isOther keyed, stored] at held
        cases held
      rw [KeyedFold.view_foldl_of_not_mem bucketAt Prod.fst
        (fun entry _ => bucketAt (insertAuthor ∅ entry) entry.1) ?_ _ ∅ absent]
      · simp [bucketAt, reads]
      · intro out entry other
        rw [bucketAt_insertAuthor]
        by_cases same : entry.1 = other
        · rw [if_pos same, if_pos same, same]
        · rw [if_neg same, if_neg same]

/-! ## Maps that are stored -/

/-- How many heads a namespace may hold for its counts and the nodes of any of its
tries to be counted by a `u64`. -/
def headLimit : Nat := 2 ^ 63

/-- A map as one path of a namespace has it. -/
structure Stored (crypto : Crypto) (pool : Node → Prop) (heads : AuthorBuckets) : Prop where
  normal : Normal heads
  holds : heads ≠ ∅
  pooled : AuthorsPooled crypto pool (bucketTree heads)
  fits : (headCounts (bucketTree heads)).headCount < headLimit

section Stored

variable {crypto : Crypto} {pool : Node → Prop} {store : NodeStore} {heads : AuthorBuckets}

theorem Normal.bucketTree_eq_empty_iff (normal : Normal heads) :
    bucketTree heads = .empty ↔ heads = ∅ := by
  constructor
  · intro nothing
    apply ext_getElem?
    intro author
    rw [getElem?_empty]
    cases stored : heads[author]? with
    | none => rfl
    | some bucket =>
      rcases normal.keyed author bucket stored with ⟨key, isKey⟩
      have found := normal.get_bucketTree.mpr ⟨author, isKey, stored⟩
      rw [nothing, get_empty] at found
      cases found
  · intro nothing
    subst nothing
    rfl

theorem Stored.bucketTree_ne_empty (stored : Stored crypto pool heads) :
    bucketTree heads ≠ .empty :=
  fun nothing => stored.holds (stored.normal.bucketTree_eq_empty_iff.mp nothing)

theorem Stored.bucketDigest_ne_empty (free : CollisionFree crypto pool)
    (stored : Stored crypto pool heads) : bucketDigest crypto heads ≠ emptyDigest crypto :=
  authorDigest_ne_empty free stored.pooled stored.bucketTree_ne_empty

theorem Stored.bucketDigest_injective (free : CollisionFree crypto pool) {other : AuthorBuckets}
    (stored : Stored crypto pool heads) (otherStored : Stored crypto pool other)
    (same : bucketDigest crypto heads = bucketDigest crypto other) : heads = other :=
  stored.normal.ext otherStored.normal (authorDigest_injective free stored.normal.leafy_bucketTree
    otherStored.normal.leafy_bucketTree stored.pooled otherStored.pooled same)

theorem Stored.inRange (stored : Stored crypto pool heads) :
    (headCounts (bucketTree heads)).inRange = true := by
  have fewer := headCounts_duplicates (bucketTree heads)
  have fits := stored.fits
  rw [inRange_iff]
  simp only [headLimit, u64Max] at fits ⊢
  omega

theorem Normal.count_le (normal : Normal heads) :
    (bucketTree heads).count ≤ (headCounts (bucketTree heads)).headCount := by
  apply count_le_total
  intro key bucket found
  rcases normal.get_bucketTree.mp found with ⟨author, _, stored⟩
  exact List.length_pos_iff.mpr (normal.bucket author bucket stored).holds

theorem Stored.headCount_pos (stored : Stored crypto pool heads) :
    0 < (headCounts (bucketTree heads)).headCount :=
  Nat.lt_of_lt_of_le (canonical_bucketTree.count_pos stored.bucketTree_ne_empty)
    stored.normal.count_le

theorem Stored.readable (stored : Stored crypto pool heads)
    (held : AuthorsHeld crypto store (bucketTree heads)) :
    Readable crypto pool store (bucketTree heads) :=
  ⟨canonical_bucketTree, stored.normal.leafy_bucketTree, stored.pooled, held⟩

theorem Stored.aggregates_eq (free : CollisionFree crypto pool) (stored : Stored crypto pool heads)
    (held : AuthorsHeld crypto store (bucketTree heads)) :
    aggregates crypto store (bucketDigest crypto heads) = .ok (headCounts (bucketTree heads)) :=
  (stored.readable held).aggregates_eq free

theorem Stored.read_eq (free : CollisionFree crypto pool) (stored : Stored crypto pool heads)
    (held : AuthorsHeld crypto store (bucketTree heads)) {budget : Nat}
    (enough : (authorNodes crypto (bucketTree heads)).length ≤ budget) :
    read crypto store (bucketDigest crypto heads) budget =
      .ok (heads, budget - (authorNodes crypto (bucketTree heads)).length) := by
  have alone : placed [] (bucketTree heads) = (bucketTree heads).entries := by simp [placed]
  have named : ∀ entry ∈ placed [] (bucketTree heads), ∃ author,
      authorOfKey entry.1 = .ok author := by
    intro entry member
    rw [alone] at member
    rcases stored.normal.get_bucketTree.mp (mem_entries_iff.mp member) with
      ⟨author, isKey, _⟩
    exact ⟨author, authorOfKey_eq_ok_iff.mpr isKey⟩
  have ran := (stored.readable held).readInto_eq free stored.bucketTree_ne_empty stored.inRange
    named enough enough ∅
  rw [read, if_neg (stored.bucketDigest_ne_empty free), bucketDigest, ran, alone,
    stored.normal.foldl_insertAuthor]
  rfl

theorem Stored.nodes_le (stored : Stored crypto pool heads) :
    (authorNodes crypto (bucketTree heads)).length ≤ u64Max := by
  have nodes := authorNodes_length crypto canonical_bucketTree stored.normal.leafy_bucketTree
    stored.bucketTree_ne_empty
  have counted := stored.normal.count_le
  have fits := stored.fits
  simp only [headLimit, u64Max] at fits ⊢
  omega

theorem storeHeads_achieves (free : CollisionFree crypto pool) {raw : AuthorBuckets}
    (normalized : normalize raw = .ok heads) (normal : Normal heads)
    (pooled : AuthorsPooled crypto pool (bucketTree heads))
    (fits : (headCounts (bucketTree heads)).inRange = true) (sound : store.Sound crypto pool) :
    Achieves (NodeStore.Sound crypto pool) NodeStore.Extends store (storeHeads crypto raw)
      fun result after => result = (bucketDigest crypto heads, headCounts (bucketTree heads)) ∧
        AuthorsHeld crypto after (bucketTree heads) := by
  have alone : placed [] (bucketTree heads) = (bucketTree heads).entries := by simp [placed]
  have turns : (bucketTree heads).count ≤ (bucketTree heads).entries.length :=
    Nat.le_of_eq (count_eq_length_entries _)
  have built := build_achieves free canonical_bucketTree normal.leafy_bucketTree pooled fits turns
    [] sound
  rw [alone] at built
  rcases built with ⟨digest, after, ran, grown, kept, digestIs, held⟩
  refine ⟨_, after, ?_, grown, kept, rfl, held⟩
  unfold storeHeads
  simp only [Transaction.bind_apply, reading, normalized, (keyedEntries_spec normal.keyed).1]
  have ran : build crypto (bucketTree heads).entries.length (bucketTree heads).entries 0 store =
    .ok digest after := ran
  rw [ran, normal.aggregatesOf_eq fits, digestIs]
  rfl

end Stored

end Yadorilink.Namespace
