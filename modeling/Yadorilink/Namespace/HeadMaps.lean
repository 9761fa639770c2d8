import Yadorilink.Namespace.HeadsTrees

/-! The maps a namespace stands for: each path's heads by author, as sets. A map has one
canonical tree, and its root is the namespace of the map. -/

namespace Yadorilink.Namespace

open Std ExtTreeMap Patricia

abbrev HeadMap := ExtTreeMap SyncPath AuthorBuckets

def HeadMap.at (map : HeadMap) (path : SyncPath) : AuthorBuckets := (map[path]?).getD ∅

/-- A map as a namespace has it: every path with heads, all of them sets of one or two
heads, and every path and author with a key. -/
structure HeadMap.Proper (map : HeadMap) : Prop where
  normal : ∀ (path : SyncPath) heads, map[path]? = some heads → Normal heads
  holds : ∀ (path : SyncPath) heads, map[path]? = some heads → heads ≠ ∅
  keyed : ∀ (path : SyncPath) heads, map[path]? = some heads → ∃ key, pathKey path = .ok key

def HeadMap.headTotal (map : HeadMap) : Nat :=
  (map.toList.map fun entry => (entry.2.toList.map fun bucket => bucket.2.length).sum).sum

section Tree

variable (crypto : Crypto)

def keyedEntry (entry : SyncPath × AuthorBuckets) : Option (Bits × Entry) :=
  match pathKey entry.1 with
  | .ok key => some (key, entryOf crypto entry.2)
  | .error _ => none

def pathTree (map : HeadMap) : HeadsTree :=
  .ofEntries (map.toList.filterMap (keyedEntry crypto))

def canonicalRoot (map : HeadMap) : NodeDigest := rootDigest crypto (pathTree crypto map)

/-- Every node of the namespace of a map, at every position, and of its bucket tries. -/
def mapNodes (map : HeadMap) : List Node :=
  headNodes crypto (pathTree crypto map) ++
    map.toList.flatMap fun entry => (authorNodes crypto (bucketTree entry.2)).map Node.author

variable {crypto}

theorem keyedEntry_eq_some_iff {entry : SyncPath × AuthorBuckets} {key : Bits} {value : Entry} :
    keyedEntry crypto entry = some (key, value) ↔
      pathKey entry.1 = .ok key ∧ value = entryOf crypto entry.2 := by
  unfold keyedEntry
  cases keyed : pathKey entry.1 with
  | error failure => simp
  | ok found =>
    simp only [Option.some.injEq, Prod.mk.injEq, Except.ok.injEq]
    exact and_congr_right' eq_comm

theorem keyedEntries_distinct (map : HeadMap) :
    ((map.toList.filterMap (keyedEntry crypto)).map Prod.fst).Nodup := by
  rw [List.Nodup, List.pairwise_map, List.pairwise_filterMap]
  have distinct : map.toList.Pairwise fun first second => compare first.1 second.1 = .lt :=
    ordered_keys_toList
  apply distinct.imp
  intro first second smaller firstEntry firstIs secondEntry secondIs same
  rcases keyedEntry_eq_some_iff.mp firstIs with ⟨firstKey, _⟩
  rcases keyedEntry_eq_some_iff.mp secondIs with ⟨secondKey, _⟩
  rw [← same] at secondKey
  rw [pathKey_injective firstKey secondKey] at smaller
  simp at smaller

theorem canonical_pathTree (map : HeadMap) : (pathTree crypto map).Canonical :=
  canonical_ofEntries _

theorem get_pathTree {map : HeadMap} {key : Bits} {value : Entry} :
    (pathTree crypto map).get key = some value ↔
      ∃ path heads, pathKey path = .ok key ∧ map[path]? = some heads ∧
        value = entryOf crypto heads := by
  rw [pathTree, get_ofEntries_eq_some_iff (keyedEntries_distinct map), List.mem_filterMap]
  constructor
  · rintro ⟨entry, member, isEntry⟩
    rcases keyedEntry_eq_some_iff.mp isEntry with ⟨keyed, isValue⟩
    exact ⟨entry.1, entry.2, keyed, mem_toList_iff_getElem?_eq_some.mp member, isValue⟩
  · rintro ⟨path, heads, keyed, stored, isValue⟩
    exact ⟨(path, heads), mem_toList_iff_getElem?_eq_some.mpr stored,
      keyedEntry_eq_some_iff.mpr ⟨keyed, isValue⟩⟩

theorem get_pathTree_of_key {map : HeadMap} {path : SyncPath} {key : Bits}
    (keyed : pathKey path = .ok key) :
    (pathTree crypto map).get key = map[path]?.map (entryOf crypto) := by
  cases stored : map[path]? with
  | some heads => exact get_pathTree.mpr ⟨path, heads, keyed, stored, rfl⟩
  | none =>
    cases found : (pathTree crypto map).get key with
    | none => rfl
    | some value =>
      rcases get_pathTree.mp found with ⟨other, heads, otherKeyed, otherStored, _⟩
      rw [pathKey_injective otherKeyed keyed, stored] at otherStored
      cases otherStored

theorem get_pathTree_of_not_key {map : HeadMap} {key : Bits}
    (unkeyed : ∀ path, pathKey path ≠ .ok key) : (pathTree crypto map).get key = none := by
  cases found : (pathTree crypto map).get key with
  | none => rfl
  | some value =>
    rcases get_pathTree.mp found with ⟨path, _, keyed, _⟩
    exact absurd keyed (unkeyed path)

theorem pathTree_change {map changed : HeadMap} {path : SyncPath} {key : Bits}
    {heads : Option AuthorBuckets} (keyed : pathKey path = .ok key)
    (changes : ∀ other : SyncPath, changed[other]? = if path = other then heads else map[other]?) :
    pathTree crypto changed = (pathTree crypto map).set key (heads.map (entryOf crypto)) := by
  apply Patricia.Canonical.ext (canonical_pathTree _) ((canonical_pathTree map).set _ _)
  intro other
  rw [get_set]
  by_cases isPath : ∃ otherPath, pathKey otherPath = .ok other
  · rcases isPath with ⟨otherPath, otherKeyed⟩
    rw [get_pathTree_of_key otherKeyed, get_pathTree_of_key otherKeyed, changes]
    by_cases same : path = otherPath
    · subst same
      rw [keyed] at otherKeyed
      cases otherKeyed
      rw [if_pos rfl, if_pos rfl]
    · have different : other ≠ key := by
        intro equal
        subst equal
        exact same (pathKey_injective keyed otherKeyed)
      rw [if_neg same, if_neg different]
  · have unkeyed : ∀ otherPath, pathKey otherPath ≠ .ok other :=
      fun otherPath otherKeyed => isPath ⟨otherPath, otherKeyed⟩
    have different : other ≠ key := by
      intro equal
      subst equal
      exact unkeyed path keyed
    rw [get_pathTree_of_not_key unkeyed, get_pathTree_of_not_key unkeyed, if_neg different]

theorem HeadMap.Proper.ext {pool : Node → Prop} (free : CollisionFree crypto pool)
    {first second : HeadMap} (firstProper : first.Proper) (secondProper : second.Proper)
    (firstStored : ∀ (path : SyncPath) heads, first[path]? = some heads → Stored crypto pool heads)
    (secondStored : ∀ (path : SyncPath) heads, second[path]? = some heads →
      Stored crypto pool heads)
    (same : pathTree crypto first = pathTree crypto second) : first = second := by
  apply ext_getElem?
  intro path
  cases keyed : pathKey path with
  | error failure =>
    have absent : ∀ {map : HeadMap}, map.Proper → map[path]? = none := by
      intro map proper
      cases stored : map[path]? with
      | none => rfl
      | some heads =>
        rcases proper.keyed path heads stored with ⟨key, isKey⟩
        rw [keyed] at isKey
        cases isKey
    rw [absent firstProper, absent secondProper]
  | ok key =>
    have found : first[path]?.map (entryOf crypto) = second[path]?.map (entryOf crypto) := by
      rw [← get_pathTree_of_key keyed, ← get_pathTree_of_key keyed, same]
    cases inFirst : first[path]? with
    | none =>
      cases inSecond : second[path]? with
      | none => rfl
      | some heads =>
        rw [inFirst, inSecond] at found
        cases found
    | some heads =>
      cases inSecond : second[path]? with
      | none =>
        rw [inFirst, inSecond] at found
        cases found
      | some other =>
        rw [inFirst, inSecond, Option.map_some, Option.map_some] at found
        have names := congrArg Entry.buckets (Option.some.inj found)
        rw [(firstStored path heads inFirst).bucketDigest_injective free
          (secondStored path other inSecond) names]

end Tree

/-! ## Counting heads -/

section Counts

variable {crypto : Crypto}

theorem filterMap_keyedEntry (measure : Bits × Entry → Nat) (count : SyncPath × AuthorBuckets → Nat)
    {listed : List (SyncPath × AuthorBuckets)}
    (same : ∀ entry ∈ listed, ∃ keyed, keyedEntry crypto entry = some keyed ∧
      measure keyed = count entry) :
    (listed.filterMap (keyedEntry crypto)).map measure = listed.map count := by
  induction listed with
  | nil => rfl
  | cons entry rest induction =>
    rcases same entry (.head _) with ⟨keyed, isKeyed, counts⟩
    rw [List.filterMap_cons_some isKeyed, List.map_cons, List.map_cons, counts,
      induction fun other member => same other (.tail _ member)]

theorem HeadMap.Proper.total_pathTree {map : HeadMap} (proper : map.Proper)
    (measure : HeadAggregates → Nat) :
    (pathTree crypto map).total (fun entry => measure entry.perEntry) =
      (map.toList.map fun entry => measure (countsOf entry.2.toList)).sum := by
  have distinct := @keyedEntries_distinct crypto map
  have perm : (pathTree crypto map).entries.Perm
      (map.toList.filterMap (keyedEntry crypto)) := by
    have treeDistinct : (pathTree crypto map).entries.Nodup := by
      apply (pathTree crypto map).entries_ascending.imp
      intro first second smaller equal
      simp [equal] at smaller
    have listDistinct : (map.toList.filterMap (keyedEntry crypto)).Nodup := by
      apply (List.pairwise_map.mp distinct).imp
      intro first second different equal
      exact different (congrArg Prod.fst equal)
    rw [List.perm_ext_iff_of_nodup treeDistinct listDistinct]
    rintro ⟨key, value⟩
    rw [mem_entries_iff, pathTree, get_ofEntries_eq_some_iff distinct]
  have counted : (map.toList.filterMap (keyedEntry crypto)).map
      (fun keyed => measure keyed.2.perEntry) =
      map.toList.map fun entry => measure (countsOf entry.2.toList) := by
    apply filterMap_keyedEntry
    intro entry member
    have stored := mem_toList_iff_getElem?_eq_some.mp member
    rcases proper.keyed entry.1 entry.2 stored with ⟨key, isKey⟩
    refine ⟨_, keyedEntry_eq_some_iff.mpr ⟨isKey, rfl⟩, ?_⟩
    exact congrArg measure (proper.normal entry.1 entry.2 stored).countsOf_toList.symm
  rw [total_eq_sum_entries, ← counted]
  exact (perm.map _).sum_nat

theorem HeadMap.Proper.headCount_pathTree {map : HeadMap} (proper : map.Proper) :
    (treeCounts (pathTree crypto map)).headCount = map.headTotal :=
  proper.total_pathTree HeadAggregates.headCount

end Counts

/-! ## Maps that are kept -/

/-- A map whose namespace can be built: its nodes are among `pool` and its heads can be
counted. -/
structure HeadMap.Kept (crypto : Crypto) (pool : Node → Prop) (map : HeadMap) : Prop where
  proper : map.Proper
  pooled : ∀ node ∈ mapNodes crypto map, pool node
  fits : map.headTotal < headLimit

section Kept

variable {crypto : Crypto} {pool : Node → Prop} {map : HeadMap}

theorem HeadMap.Kept.usable (kept : map.Kept crypto pool) :
    Usable crypto pool (pathTree crypto map) := by
  refine ⟨canonical_pathTree map, ?_, ?_⟩
  · exact fun node member => kept.pooled node (List.mem_append_left _ member)
  · rw [kept.proper.headCount_pathTree]
    exact kept.fits

theorem HeadMap.Kept.stored (kept : map.Kept crypto pool) {path : SyncPath} {heads : AuthorBuckets}
    (found : map[path]? = some heads) : Stored crypto pool heads := by
  refine ⟨kept.proper.normal path heads found, kept.proper.holds path heads found, ?_, ?_⟩
  · intro node member
    apply kept.pooled
    apply List.mem_append_right
    exact List.mem_flatMap.mpr ⟨(path, heads), mem_toList_iff_getElem?_eq_some.mpr found,
      List.mem_map.mpr ⟨node, member, rfl⟩⟩
  · rcases kept.proper.keyed path heads found with ⟨key, keyed⟩
    have atKey := (@get_pathTree crypto map key _).mpr ⟨path, heads, keyed, found, rfl⟩
    have counted := le_total (fun entry : Entry => entry.perEntry.headCount) atKey
    exact Nat.lt_of_le_of_lt counted kept.usable.fits

theorem HeadMap.Kept.named (kept : map.Kept crypto pool) : Named crypto pool (pathTree crypto map) := by
  intro key entry found
  rcases get_pathTree.mp found with ⟨path, heads, _, stored, isEntry⟩
  exact ⟨heads, kept.stored stored, isEntry⟩

theorem HeadMap.Kept.canonicalRoot_injective (free : CollisionFree crypto pool) {other : HeadMap}
    (kept : map.Kept crypto pool) (otherKept : other.Kept crypto pool)
    (same : canonicalRoot crypto map = canonicalRoot crypto other) : map = other := by
  have trees := rootDigest_injective free kept.usable otherKept.usable kept.named otherKept.named
    same
  exact kept.proper.ext free otherKept.proper (fun _ _ => kept.stored) (fun _ _ => otherKept.stored)
    trees

end Kept

end Yadorilink.Namespace
