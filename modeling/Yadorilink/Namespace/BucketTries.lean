import Yadorilink.Namespace.Buckets

/-! A bucket trie is a function of its map. Storing a map of buckets writes the nodes
of one canonical tree, whose digest tells the map; reading the digest gives the map
back. -/

namespace Yadorilink.Namespace

open Std OrderedMap ExtTreeMap Patricia Option
open Transaction (Achieves)

/-! ## Normal maps -/

variable {bucket : List DeltaHash}

theorem sortDedup_ascending (bucket : List DeltaHash) :
    (sortDedup bucket).Pairwise fun first second => compare first second = .lt :=
  ExtTreeSet.ordered_toList

/-- A bucket as it is stored. -/
structure NormalBucket (bucket : List DeltaHash) : Prop where
  holds : bucket ≠ []
  bounded : bucket.length ≤ maxSelfHeads
  ascending : bucket.Pairwise fun first second => compare first second = .lt

/-- A map as it is stored: sets of one or two heads, of authors with keys. -/
structure Normal (heads : AuthorBuckets) : Prop where
  bucket : ∀ (author : AuthorId) bucket, heads[author]? = some bucket → NormalBucket bucket
  keyed : ∀ (author : AuthorId) bucket, heads[author]? = some bucket → ∃ key, authorKey author = .ok key

def normalBucket (heads : AuthorBuckets) (author : AuthorId) : Option (List DeltaHash) :=
  let bucket := sortDedup ((heads[author]?).getD [])
  if bucket.isEmpty then none else some bucket

theorem getElem?_normalize {heads result : AuthorBuckets} (normalized : normalize heads = .ok result)
    (author : AuthorId) : result[author]? = normalBucket heads author := by
  have lookup := getElem?_insertEach normalized author
  by_cases stored : author ∈ heads.keys
  · rcases lookup.1 stored with ⟨choice, decided, found⟩
    dsimp only at decided
    split at decided
    · cases decided
    · cases decided
      rw [found, getElem?_empty, normalBucket]
      split <;> rfl
  · have absent : heads[author]? = none := by
      rw [mem_keys] at stored
      exact getElem?_eq_none stored
    rw [lookup.2 stored, getElem?_empty, normalBucket, absent]
    rfl

theorem normalize_total {heads : AuthorBuckets} (bounded : ∀ (author : AuthorId) bucket,
    heads[author]? = some bucket → (sortDedup bucket).length ≤ maxSelfHeads) :
    ∃ result, normalize heads = .ok result := by
  apply insertEach_total
  intro author stored
  rcases (mem_keys_iff heads author).mp stored with ⟨bucket, found⟩
  have within := bounded author bucket found
  refine ⟨_, if_neg ?_⟩
  rw [found, getD_some]
  omega

theorem normalize_bounded {heads result : AuthorBuckets}
    (normalized : normalize heads = .ok result) {author : AuthorId}
    (stored : heads[author]? = some bucket) : (sortDedup bucket).length ≤ maxSelfHeads := by
  have member := (mem_keys_iff heads author).mpr ⟨bucket, stored⟩
  rcases (getElem?_insertEach normalized author).1 member with ⟨_, decided, _⟩
  dsimp only at decided
  split at decided
  · cases decided
  · rename_i within
    rw [stored, getD_some] at within
    omega

theorem normalBucket_eq_some {heads : AuthorBuckets} {author : AuthorId}
    (found : normalBucket heads author = some bucket) :
    ∃ stored, heads[author]? = some stored ∧ bucket = sortDedup stored ∧ bucket ≠ [] := by
  unfold normalBucket at found
  dsimp only at found
  split at found
  · cases found
  · rename_i holds
    cases found
    cases stored : heads[author]? with
    | none =>
      rw [stored] at holds
      exact absurd rfl holds
    | some bucket =>
      rw [stored, getD_some] at holds
      refine ⟨bucket, rfl, rfl, ?_⟩
      rw [getD_some]
      simpa using holds

theorem normal_of_normalize {heads result : AuthorBuckets} (normalized : normalize heads = .ok result)
    (keyed : ∀ (author : AuthorId) bucket, heads[author]? = some bucket → ∃ key, authorKey author = .ok key) :
    Normal result := by
  constructor
  · intro author bucket found
    rw [getElem?_normalize normalized] at found
    rcases normalBucket_eq_some found with ⟨stored, isStored, rfl, holds⟩
    exact ⟨holds, normalize_bounded normalized isStored, sortDedup_ascending stored⟩
  · intro author bucket found
    rw [getElem?_normalize normalized] at found
    rcases normalBucket_eq_some found with ⟨stored, isStored, _⟩
    exact keyed author stored isStored

/-! ## The tree of a map -/

theorem mapM_authorKey {entries : List (AuthorId × List DeltaHash)}
    (keyed : ∀ entry ∈ entries, ∃ key, authorKey entry.1 = .ok key) :
    ∃ listed, (entries.mapM fun entry => do return (← authorKey entry.1, entry.2)) =
        (.ok listed : Except NamespaceError (List (Bits × List DeltaHash))) ∧
      (∀ key bucket, (key, bucket) ∈ listed ↔
        ∃ author, authorKey author = .ok key ∧ (author, bucket) ∈ entries) ∧
      ((entries.map Prod.fst).Nodup → (listed.map Prod.fst).Nodup) ∧
      listed.map Prod.snd = entries.map Prod.snd := by
  induction entries with
  | nil => exact ⟨[], rfl, by simp, by simp, rfl⟩
  | cons entry rest induction =>
    rcases keyed entry (.head _) with ⟨key, isKey⟩
    rcases induction fun other later => keyed other (.tail _ later) with
      ⟨listed, made, members, distinct, buckets⟩
    refine ⟨(key, entry.2) :: listed, ?_, ?_, ?_, by rw [List.map_cons, List.map_cons, buckets]⟩
    · rw [List.mapM_cons, isKey, made]
      rfl
    · intro other bucket
      rw [List.mem_cons, members]
      constructor
      · intro listed
        rcases listed with same | ⟨author, isOther, later⟩
        · cases same
          exact ⟨entry.1, isKey, .head _⟩
        · exact ⟨author, isOther, .tail _ later⟩
      · rintro ⟨author, isOther, member⟩
        rcases List.mem_cons.mp member with same | later
        · subst same
          rw [isKey] at isOther
          cases isOther
          exact Or.inl rfl
        · exact Or.inr ⟨author, isOther, later⟩
    · intro distinctAuthors
      rw [List.map_cons, List.nodup_cons] at distinctAuthors ⊢
      refine ⟨?_, distinct distinctAuthors.2⟩
      intro repeated
      rcases List.mem_map.mp repeated with ⟨⟨other, bucket⟩, member, same⟩
      rcases (members other bucket).mp member with ⟨author, isOther, later⟩
      have same : other = key := same
      rw [same] at isOther
      rw [authorKey_injective isOther isKey] at later
      exact distinctAuthors.1 (List.mem_map.mpr ⟨_, later, rfl⟩)

section Tree

variable {heads : AuthorBuckets}

theorem keyedEntries_spec (keyed : ∀ (author : AuthorId) bucket, heads[author]? = some bucket →
      ∃ key, authorKey author = .ok key) :
    keyedEntries heads = .ok (bucketTree heads).entries ∧
      ∀ key bucket, (bucketTree heads).get key = some bucket ↔
        ∃ author, authorKey author = .ok key ∧ heads[author]? = some bucket := by
  have keyedList : ∀ entry ∈ heads.toList, ∃ key, authorKey entry.1 = .ok key :=
    fun entry member => keyed entry.1 entry.2
      (mem_toList_iff_getElem?_eq_some.mp member)
  rcases mapM_authorKey keyedList with ⟨listed, made, members, distinctOf, _⟩
  have distinct : (listed.map Prod.fst).Nodup := by
    apply distinctOf
    rw [map_fst_toList_eq_keys]
    exact nodup_keys
  have computed : keyedEntries heads = .ok (ExtTreeMap.ofList listed compare).toList := by
    rw [keyedEntries, made]
    rfl
  have sorted : (ExtTreeMap.ofList listed compare).toList.Pairwise
      fun first second => compare first.1 second.1 = .lt := ordered_keys_toList
  have keysDistinct : ((ExtTreeMap.ofList listed compare).toList.map Prod.fst).Nodup := by
    rw [map_fst_toList_eq_keys]
    exact nodup_keys
  have treeIs : bucketTree heads = .ofEntries (ExtTreeMap.ofList listed compare).toList := by
    rw [bucketTree, computed]
  have held : ∀ key bucket, (key, bucket) ∈ (ExtTreeMap.ofList listed compare).toList ↔
      ∃ author, authorKey author = .ok key ∧ heads[author]? = some bucket := by
    intro key bucket
    rw [mem_toList_iff_getElem?_eq_some, getElem?_ofList_eq_some_iff distinct,
      members]
    simp only [mem_toList_iff_getElem?_eq_some]
  have found : ∀ key bucket, (bucketTree heads).get key = some bucket ↔
      ∃ author, authorKey author = .ok key ∧ heads[author]? = some bucket := by
    intro key bucket
    rw [treeIs, get_ofEntries_eq_some_iff keysDistinct, held]
  refine ⟨?_, found⟩
  rw [computed]
  congr 1
  apply entries_eq_of_ascending sorted
  intro key bucket
  rw [held, found]

theorem canonical_bucketTree : (bucketTree heads).Canonical := by
  unfold bucketTree
  split
  · exact canonical_ofEntries _
  · trivial

theorem Normal.get_bucketTree (normal : Normal heads) {key : Bits} :
    (bucketTree heads).get key = some bucket ↔
      ∃ author, authorKey author = .ok key ∧ heads[author]? = some bucket :=
  (keyedEntries_spec normal.keyed).2 key bucket

theorem Normal.leafy_bucketTree (normal : Normal heads) : (bucketTree heads).Leafy := by
  apply canonical_bucketTree.leafy
  intro key more bucket other found longer
  rcases normal.get_bucketTree.mp found with ⟨author, isKey, _⟩
  rcases normal.get_bucketTree.mp longer with ⟨otherAuthor, isOther, _⟩
  exact authorKey_prefix_free isKey isOther

theorem Normal.ext {first second : AuthorBuckets} (firstNormal : Normal first)
    (secondNormal : Normal second) (same : bucketTree first = bucketTree second) :
    first = second := by
  have within : ∀ {left right : AuthorBuckets}, Normal left → Normal right →
      bucketTree left = bucketTree right → ∀ (author : AuthorId) bucket, left[author]? = some bucket →
      right[author]? = some bucket := by
    intro left right leftNormal rightNormal same author bucket stored
    rcases leftNormal.keyed author bucket stored with ⟨key, isKey⟩
    have found := leftNormal.get_bucketTree.mpr ⟨author, isKey, stored⟩
    rw [same] at found
    rcases rightNormal.get_bucketTree.mp found with ⟨other, isOther, held⟩
    rw [authorKey_injective isKey isOther]
    exact held
  apply ext_getElem?
  intro author
  cases stored : first[author]? with
  | some bucket => rw [within firstNormal secondNormal same author bucket stored]
  | none =>
    cases other : second[author]? with
    | none => rfl
    | some bucket =>
      have back := within secondNormal firstNormal same.symm author bucket other
      rw [stored] at back
      cases back

end Tree

/-! ## Counts -/

namespace HeadAggregates

def add (first second : HeadAggregates) : HeadAggregates :=
  ⟨first.headCount + second.headCount, first.duplicateAuthorCount + second.duplicateAuthorCount⟩

theorem inRange_iff {counts : HeadAggregates} : counts.inRange = true ↔
    counts.headCount ≤ u64Max ∧ counts.duplicateAuthorCount ≤ u64Max := by
  simp [inRange]

theorem checkedPlus_eq_some_iff {first second sum : HeadAggregates} :
    first.checkedPlus second = some sum ↔ (first.add second).inRange = true ∧
      sum = first.add second := by
  unfold checkedPlus
  dsimp only
  split
  · rename_i within
    constructor
    · intro same
      cases same
      exact ⟨within, rfl⟩
    · intro facts
      rw [facts.2]
      rfl
  · rename_i beyond
    constructor
    · intro impossible
      cases impossible
    · intro facts
      exact absurd facts.1 beyond

theorem plus_eq_add {first second : HeadAggregates} (within : (first.add second).inRange = true) :
    first.plus second = first.add second := by
  rw [plus, checkedPlus_eq_some_iff.mpr ⟨within, rfl⟩]
  rfl

theorem inRange_of_add {first second : HeadAggregates}
    (within : (first.add second).inRange = true) :
    first.inRange = true ∧ second.inRange = true := by
  rw [inRange_iff] at within ⊢
  rw [inRange_iff]
  simp only [add] at within
  omega

end HeadAggregates

def countsOf {κ : Type} (listed : List (κ × List DeltaHash)) : HeadAggregates :=
  ⟨(listed.map fun entry => entry.2.length).sum,
    (listed.map fun entry => if 1 < entry.2.length then 1 else 0).sum⟩

theorem foldl_plus {κ : Type} (listed : List (κ × List DeltaHash)) (start : HeadAggregates)
    (within : (start.add (countsOf listed)).inRange = true) :
    listed.foldl (fun sum entry => sum.plus (.ofBucket entry.2.length)) start =
      start.add (countsOf listed) := by
  induction listed generalizing start with
  | nil => rfl
  | cons entry rest induction =>
    have sums : start.add (countsOf (entry :: rest)) =
        (start.add (.ofBucket entry.2.length)).add (countsOf rest) := by
      simp only [HeadAggregates.add, countsOf, HeadAggregates.ofBucket, List.map_cons,
        List.sum_cons, HeadAggregates.mk.injEq]
      omega
    rw [sums] at within ⊢
    rw [List.foldl_cons, HeadAggregates.plus_eq_add (HeadAggregates.inRange_of_add within).1]
    exact induction _ within

theorem headCounts_eq (tree : Patricia (List DeltaHash)) :
    headCounts tree = countsOf tree.entries := by
  rw [headCounts, countsOf, total_eq_sum_entries, total_eq_sum_entries]

theorem countsOf_map {κ γ : Type} (listed : List (κ × List DeltaHash)) (place : κ → γ) :
    countsOf (listed.map fun entry => (place entry.1, entry.2)) = countsOf listed := by
  simp only [countsOf, List.map_map, Function.comp_def]

theorem headCounts_branch (skip : Bits) (zero one : Patricia (List DeltaHash)) :
    headCounts (.node skip none zero one) = (headCounts zero).add (headCounts one) := by
  simp [headCounts, HeadAggregates.add, total]

theorem Normal.countsOf_toList {heads : AuthorBuckets} (normal : Normal heads) :
    countsOf heads.toList = headCounts (bucketTree heads) := by
  have keyedList : ∀ entry ∈ heads.toList, ∃ key, authorKey entry.1 = .ok key :=
    fun entry member => normal.keyed entry.1 entry.2
      (mem_toList_iff_getElem?_eq_some.mp member)
  have perm : (heads.toList.map Prod.snd).Perm ((bucketTree heads).entries.map Prod.snd) := by
    rcases mapM_authorKey keyedList with ⟨listed, _, members, distinctOf, sameBuckets⟩
    have authorsDistinct : (heads.toList.map Prod.fst).Nodup := by
      rw [map_fst_toList_eq_keys]
      exact nodup_keys
    have nodup : ∀ {κ : Type} {items : List (κ × List DeltaHash)}, (items.map Prod.fst).Nodup →
        items.Nodup := by
      intro κ items distinct
      apply (List.pairwise_map.mp distinct).imp
      intro first second different equal
      exact different (congrArg Prod.fst equal)
    rw [← sameBuckets]
    apply List.Perm.map
    have distinct := distinctOf authorsDistinct
    have treeDistinct : (bucketTree heads).entries.Nodup := by
      apply (bucketTree heads).entries_ascending.imp
      intro first second smaller equal
      simp [equal] at smaller
    rw [List.perm_ext_iff_of_nodup (nodup distinct) treeDistinct]
    rintro ⟨key, bucket⟩
    rw [members, mem_entries_iff, normal.get_bucketTree]
    simp only [mem_toList_iff_getElem?_eq_some]
  rw [headCounts_eq, countsOf, countsOf]
  have lengths := (perm.map List.length).sum_nat
  have duplicates := (perm.map fun bucket => if 1 < bucket.length then 1 else 0).sum_nat
  rw [List.map_map, List.map_map] at lengths duplicates
  exact congrArg₂ HeadAggregates.mk lengths duplicates

theorem Normal.aggregatesOf_eq {heads : AuthorBuckets} (normal : Normal heads)
    (within : (headCounts (bucketTree heads)).inRange = true) :
    aggregatesOf heads = headCounts (bucketTree heads) := by
  have sums := normal.countsOf_toList
  have zeroAdd : HeadAggregates.zero.add (countsOf heads.toList) = countsOf heads.toList := by
    simp [HeadAggregates.add, HeadAggregates.zero]
  rw [aggregatesOf, foldl_plus _ _ (by rw [zeroAdd, sums]; exact within), zeroAdd, sums]

/-! ## Digests -/

section Digests

variable (crypto : Crypto) (pool : Node → Prop)

def AuthorsHeld (store : NodeStore) (tree : Patricia (List DeltaHash)) : Prop :=
  ∀ node ∈ authorNodes crypto tree, store.authors (node.digest crypto) = some node

def AuthorsPooled (tree : Patricia (List DeltaHash)) : Prop :=
  ∀ node ∈ authorNodes crypto tree, pool (.author node)

variable {crypto pool} {tree : Patricia (List DeltaHash)}

theorem AuthorsHeld.mono {store later : NodeStore} (held : AuthorsHeld crypto store tree)
    (extended : store.Extends later) : AuthorsHeld crypto later tree :=
  fun node member => extended.authors _ node (held node member)

section Branch

variable {skip : Bits} {zero one : Patricia (List DeltaHash)}

theorem mem_authorNodes_zero {node : AuthorNode} (member : node ∈ authorNodes crypto zero) :
    node ∈ authorNodes crypto (.node skip none zero one) := by
  rw [authorNodes]
  exact .tail _ (List.mem_append_left _ member)

theorem mem_authorNodes_one {node : AuthorNode} (member : node ∈ authorNodes crypto one) :
    node ∈ authorNodes crypto (.node skip none zero one) := by
  rw [authorNodes]
  exact .tail _ (List.mem_append_right _ member)

end Branch

theorem exists_authorDigest (holds : tree ≠ .empty) :
    ∃ node ∈ authorNodes crypto tree, authorDigest crypto tree = node.digest crypto := by
  cases tree with
  | empty => exact absurd rfl holds
  | node skip own zero one =>
    cases own with
    | some heads => exact ⟨_, .head _, rfl⟩
    | none => exact ⟨_, .head _, rfl⟩

theorem authorDigest_ne_empty (free : CollisionFree crypto pool)
    (pooled : AuthorsPooled crypto pool tree) (holds : tree ≠ .empty) :
    authorDigest crypto tree ≠ emptyDigest crypto := by
  rcases @exists_authorDigest crypto tree holds with ⟨node, member, same⟩
  rw [same]
  exact free.2 _ (pooled node member)

theorem authorDigest_injective (free : CollisionFree crypto pool)
    {first second : Patricia (List DeltaHash)} (firstLeafy : first.Leafy)
    (secondLeafy : second.Leafy) (firstPooled : AuthorsPooled crypto pool first)
    (secondPooled : AuthorsPooled crypto pool second)
    (same : authorDigest crypto first = authorDigest crypto second) : first = second := by
  induction first generalizing second with
  | empty =>
    by_contra different
    exact authorDigest_ne_empty free secondPooled (Ne.symm different) same.symm
  | node skip own zero one zeroInduction oneInduction =>
    cases second with
    | empty => exact absurd same (authorDigest_ne_empty free firstPooled (by simp))
    | node otherSkip otherOwn otherZero otherOne =>
      rcases firstLeafy with ⟨atLeaf, zeroLeafy, oneLeafy⟩
      rcases secondLeafy with ⟨otherAtLeaf, otherZeroLeafy, otherOneLeafy⟩
      -- Equal digests name one node, so the two nodes are alike.
      have alike : ∀ left ∈ authorNodes crypto (.node skip own zero one),
          ∀ right ∈ authorNodes crypto (.node otherSkip otherOwn otherZero otherOne),
          left.digest crypto = right.digest crypto → left = right :=
        fun left isLeft right isRight equal => Node.author.inj
          (free.1 _ (firstPooled left isLeft) _ (secondPooled right isRight) equal)
      cases own with
      | some heads =>
        cases otherOwn with
        | some otherHeads =>
          have equal := alike _ (.head _) _
            (.head _) same
          cases equal
          rcases atLeaf rfl with ⟨rfl, rfl⟩
          rcases otherAtLeaf rfl with ⟨rfl, rfl⟩
          rfl
        | none =>
          cases alike _ (.head _) _ (.head _) same
      | none =>
        cases otherOwn with
        | some otherHeads =>
          cases alike _ (.head _) _ (.head _) same
        | none =>
          have equal := alike _ (.head _) _ (.head _) same
          injection equal with sameSkip _ sameZero sameOne
          rw [sameSkip, zeroInduction zeroLeafy otherZeroLeafy
              (fun node member => firstPooled node (mem_authorNodes_zero member))
              (fun node member => secondPooled node (mem_authorNodes_zero member)) sameZero,
            oneInduction oneLeafy otherOneLeafy
              (fun node member => firstPooled node (mem_authorNodes_one member))
              (fun node member => secondPooled node (mem_authorNodes_one member)) sameOne]

end Digests

/-! ## Storing -/

theorem commonPrefix_fork (skip first second : Bits) :
    commonPrefix (skip ++ false :: first) (skip ++ true :: second) = skip.length := by
  induction skip with
  | nil => rfl
  | cons bit skip induction =>
    rw [List.cons_append, List.cons_append, commonPrefix, if_pos rfl, induction]
    rfl

theorem build_fork (crypto : Crypto) (turns : Nat) (position skip : Bits)
    {zeroPart onePart : List (Bits × List DeltaHash)} (zeroSome : zeroPart ≠ [])
    (oneSome : onePart ≠ [])
    (zeroKeys : ∀ entry ∈ zeroPart, ∃ rest, entry.1 = position ++ (skip ++ false :: rest))
    (oneKeys : ∀ entry ∈ onePart, ∃ rest, entry.1 = position ++ (skip ++ true :: rest)) :
    build crypto (turns + 1) (zeroPart ++ onePart) position.length = (do
      let zero ← build crypto turns zeroPart (position.length + skip.length + 1)
      let one ← build crypto turns onePart (position.length + skip.length + 1)
      putAuthor crypto (.branch skip ((zeroPart ++ onePart).foldl
        (fun sum entry => sum.plus (.ofBucket entry.2.length)) .zero) zero one)) := by
  have bitAt : ∀ (bit : Bool) (rest : Bits),
      (position ++ (skip ++ bit :: rest)).getD (position.length + skip.length) false = bit := by
    intro bit rest
    simp
  have zeroTaken : (zeroPart ++ onePart).takeWhile
      (fun entry => !entry.1.getD (position.length + skip.length) false) = zeroPart := by
    rw [List.takeWhile_append_of_pos]
    · rcases List.exists_cons_of_ne_nil oneSome with ⟨other, others, rfl⟩
      rcases oneKeys other (.head _) with ⟨rest, keyIs⟩
      rw [List.takeWhile_cons_of_neg (by rw [keyIs, bitAt]; simp), List.append_nil]
    · intro entry member
      rcases zeroKeys entry member with ⟨rest, keyIs⟩
      rw [keyIs, bitAt]
      rfl
  rcases List.exists_cons_of_ne_nil zeroSome with ⟨⟨first, heads⟩, others, rfl⟩
  have more : others ++ onePart ≠ [] := by
    intro nothing
    exact oneSome (List.append_eq_nil_iff.mp nothing).2
  rcases List.exists_cons_of_ne_nil more with ⟨second, rest, restIs⟩
  rcases zeroKeys _ (.head _) with ⟨firstRest, firstKey⟩
  rcases oneKeys _ (List.getLast_mem oneSome) with ⟨lastRest, lastKey⟩
  have lastIs : (second :: rest).getLastD second = onePart.getLast oneSome := by
    have found : (second :: rest).getLast? = some (onePart.getLast oneSome) := by
      rw [← restIs, List.getLast?_append, List.getLast?_eq_some_getLast oneSome]
      rfl
    rw [List.getLastD_eq_getLast?, found]
    rfl
  have firstKey : first = position ++ (skip ++ false :: firstRest) := firstKey
  have shared : commonPrefix (first.drop position.length)
      ((onePart.getLast oneSome).1.drop position.length) = skip.length := by
    rw [firstKey, lastKey, List.drop_left, List.drop_left, commonPrefix_fork]
  have long : ¬(first.length ≤ position.length + skip.length ∨
      (onePart.getLast oneSome).1.length ≤ position.length + skip.length) := by
    rw [firstKey, lastKey]
    simp only [List.length_append, List.length_cons]
    omega
  have skipIs : (first.drop position.length).take skip.length = skip := by
    rw [firstKey, List.drop_left, List.take_left]
  have dropped : ((first, heads) :: (others ++ onePart)).drop
      ((first, heads) :: others).length = onePart := by
    rw [← List.cons_append, List.drop_left]
  rw [List.cons_append] at zeroTaken ⊢
  rw [restIs] at zeroTaken dropped ⊢
  rw [build]
  simp only [lastIs, shared, if_neg long, zeroTaken, dropped, skipIs]
  rw [List.cons_append, restIs]

def placed (position : Bits) (tree : Patricia (List DeltaHash)) : List (Bits × List DeltaHash) :=
  tree.entries.map fun entry => (position ++ entry.1, entry.2)

section Placed

variable (position skip : Bits) (zero one : Patricia (List DeltaHash))

theorem placed_branch : placed position (.node skip none zero one) =
    placed (position ++ skip ++ [false]) zero ++ placed (position ++ skip ++ [true]) one := by
  simp [placed, entries, Function.comp_def]

theorem placed_ne_nil {tree : Patricia (List DeltaHash)} (canonical : tree.Canonical)
    (holds : tree ≠ .empty) : placed position tree ≠ [] := by
  have some := canonical.count_pos holds
  rw [count_eq_length_entries] at some
  intro nothing
  rw [placed, List.map_eq_nil_iff] at nothing
  rw [nothing] at some
  exact absurd some (Nat.lt_irrefl 0)

theorem mem_placed {tree : Patricia (List DeltaHash)} {bit : Bool}
    {entry : Bits × List DeltaHash} (member : entry ∈ placed (position ++ skip ++ [bit]) tree) :
    ∃ rest, entry.1 = position ++ (skip ++ bit :: rest) := by
  rcases List.mem_map.mp member with ⟨below, _, rfl⟩
  exact ⟨below.1, by simp⟩

end Placed

section Storing

variable {crypto : Crypto} {pool : Node → Prop}

theorem build_achieves (free : CollisionFree crypto pool) {tree : Patricia (List DeltaHash)}
    (canonical : tree.Canonical) (leafy : tree.Leafy) (pooled : AuthorsPooled crypto pool tree)
    (within : (headCounts tree).inRange = true) {turns : Nat} (enough : tree.count ≤ turns)
    (position : Bits) {store : NodeStore} (sound : store.Sound crypto pool) :
    Achieves (NodeStore.Sound crypto pool) NodeStore.Extends store
      (build crypto turns (placed position tree) position.length)
      fun digest after => digest = authorDigest crypto tree ∧ AuthorsHeld crypto after tree := by
  induction tree generalizing turns position store with
  | empty =>
    rw [placed, entries, List.map_nil, build]
    exact Achieves.pure (.refl store) sound ⟨rfl, fun _ member => absurd member List.not_mem_nil⟩
  | node skip own zero one zeroInduction oneInduction =>
    rcases canonical with ⟨holds, zeroCanonical, oneCanonical⟩
    rcases leafy with ⟨atLeaf, zeroLeafy, oneLeafy⟩
    cases own with
    | some heads =>
      rcases atLeaf rfl with ⟨rfl, rfl⟩
      have alone : placed position (.node skip (some heads) .empty .empty) =
          [(position ++ skip, heads)] := by
        simp [placed, entries]
      rw [alone, build, List.drop_left]
      rcases putAuthor_ok free sound (pooled _ (.head _)) with
        ⟨after, put, grown, kept, held⟩
      refine ⟨_, after, put, grown, kept, rfl, ?_⟩
      intro node member
      rw [List.mem_singleton.mp member]
      exact held
    | none =>
      rcases holds with entry | ⟨zeroHolds, oneHolds⟩
      · cases entry
      have zeroCount := zeroCanonical.count_pos zeroHolds
      have oneCount := oneCanonical.count_pos oneHolds
      simp only [count, isSome_none, Bool.toNat_false] at enough
      obtain ⟨left, rfl⟩ : ∃ left, turns = left + 1 := ⟨turns - 1, by omega⟩
      have countsAre : (placed (position ++ skip ++ [false]) zero ++
          placed (position ++ skip ++ [true]) one).foldl
            (fun sum entry => sum.plus (.ofBucket entry.2.length)) .zero =
          headCounts (.node skip none zero one) := by
        have sums : HeadAggregates.zero.add (countsOf (placed (position ++ skip ++ [false]) zero ++
            placed (position ++ skip ++ [true]) one)) =
            headCounts (.node skip none zero one) := by
          rw [← placed_branch, placed, countsOf_map, ← headCounts_eq]
          simp [HeadAggregates.add, HeadAggregates.zero]
        rw [foldl_plus _ _ (by rw [sums]; exact within), sums]
      rw [placed_branch, build_fork crypto left position skip
        (placed_ne_nil _ zeroCanonical zeroHolds) (placed_ne_nil _ oneCanonical oneHolds)
        (fun entry member => mem_placed position skip member)
        (fun entry member => mem_placed position skip member), countsAre]
      rw [headCounts_branch] at within
      rcases HeadAggregates.inRange_of_add within with ⟨zeroWithin, oneWithin⟩
      have depthIs : ∀ bit : Bool, position.length + skip.length + 1 =
          (position ++ skip ++ [bit]).length := by
        intro bit
        rw [List.length_append, List.length_append, List.length_singleton]
      have zeroBuilt : Achieves (NodeStore.Sound crypto pool) NodeStore.Extends store
          (build crypto left (placed (position ++ skip ++ [false]) zero)
            (position.length + skip.length + 1))
          fun digest after =>
            digest = authorDigest crypto zero ∧ AuthorsHeld crypto after zero := by
        rw [depthIs false]
        exact zeroInduction zeroCanonical zeroLeafy
          (fun node member => pooled node (mem_authorNodes_zero member)) zeroWithin (by omega)
          _ sound
      refine Achieves.bind (fun _ _ _ => NodeStore.Extends.trans) zeroBuilt ?_
      rintro zeroDigest afterZero _ soundZero ⟨zeroDigestIs, zeroHeld⟩
      have oneBuilt : Achieves (NodeStore.Sound crypto pool) NodeStore.Extends afterZero
          (build crypto left (placed (position ++ skip ++ [true]) one)
            (position.length + skip.length + 1))
          fun digest after => digest = authorDigest crypto one ∧
            AuthorsHeld crypto after one ∧ AuthorsHeld crypto after zero := by
        rw [depthIs true]
        apply (oneInduction oneCanonical oneLeafy
          (fun node member => pooled node (mem_authorNodes_one member)) oneWithin (by omega)
          _ soundZero).mono
        rintro digest after grown _ ⟨digestIs, held⟩
        exact ⟨digestIs, held, zeroHeld.mono grown⟩
      refine Achieves.bind (fun _ _ _ => NodeStore.Extends.trans) oneBuilt ?_
      rintro oneDigest afterOne _ soundOne ⟨oneDigestIs, oneHeld, zeroHeld⟩
      rw [zeroDigestIs, oneDigestIs]
      rcases putAuthor_ok free soundOne (pooled _ (.head _)) with
        ⟨after, put, grown, kept, held⟩
      refine ⟨_, after, put, grown, kept, rfl, ?_⟩
      intro node member
      rw [authorNodes] at member
      rcases List.mem_cons.mp member with rfl | below
      · exact held
      · rcases List.mem_append.mp below with inZero | inOne
        · exact (zeroHeld.mono grown) node inZero
        · exact (oneHeld.mono grown) node inOne

end Storing

end Yadorilink.Namespace
