import Yadorilink.Namespace.HeadMaps
import Yadorilink.Namespace.Operations
import Yadorilink.Namespace.Rebuilds

/-! Patching a namespace is editing its map. Whatever the order of the edits, the root is
the canonical root of the map they leave, and a lookup finds the map's heads. -/

namespace Yadorilink.Namespace

open Std ExtTreeMap HeadMap
open Transaction (Achieves)

/-! ## Edits of maps -/

/-- The buckets of an edit as sets, empty ones dropped. -/
def headSets (heads : AuthorBuckets) : AuthorBuckets :=
  heads.filterMap fun _ bucket =>
    if (sortDedup bucket).isEmpty then none else some (sortDedup bucket)

/-- The map after an edit; no heads remove the path. -/
def HeadMap.edit (map : HeadMap) (edit : PathEditV2) : HeadMap :=
  if (headSets edit.heads).isEmpty then map.erase edit.path
  else map.insert edit.path (headSets edit.heads)

def HeadMap.edits (map : HeadMap) (edits : List PathEditV2) : HeadMap := edits.foldl HeadMap.edit map

def HeadMap.history (map : HeadMap) : List PathEditV2 → List HeadMap
  | [] => [map]
  | edit :: edits => map :: (map.edit edit).history edits

/-- An edit a caller may make: buckets of at most `maxSelfHeads` heads, and keys that can
be counted. -/
structure PathEditV2.Allowed (edit : PathEditV2) : Prop where
  path : ∃ key, pathKey edit.path = .ok key
  authors : ∀ (author : AuthorId) bucket, edit.heads[author]? = some bucket →
    ∃ key, authorKey author = .ok key
  bounded : ∀ (author : AuthorId) bucket, edit.heads[author]? = some bucket →
    (sortDedup bucket).length ≤ maxSelfHeads

theorem getElem?_headSets (heads : AuthorBuckets) (author : AuthorId) :
    (headSets heads)[author]? = normalBucket heads author := by
  rw [headSets, getElem?_filterMap', normalBucket]
  cases heads[author]? with
  | none => rfl
  | some bucket => rfl

theorem PathEditV2.Allowed.normalize_eq {edit : PathEditV2} (allowed : edit.Allowed) :
    normalize edit.heads = .ok (headSets edit.heads) := by
  rcases normalize_total allowed.bounded with ⟨result, normalized⟩
  rw [normalized]
  congr 1
  apply ext_getElem?
  intro author
  rw [getElem?_normalize normalized, getElem?_headSets]

theorem PathEditV2.Allowed.normal {edit : PathEditV2} (allowed : edit.Allowed) :
    Normal (headSets edit.heads) :=
  normal_of_normalize allowed.normalize_eq allowed.authors

def PathEditV2.result (edit : PathEditV2) : Option AuthorBuckets :=
  if (headSets edit.heads).isEmpty then none else some (headSets edit.heads)

theorem HeadMap.getElem?_edit (map : HeadMap) (edit : PathEditV2) (path : SyncPath) :
    (map.edit edit)[path]? = if edit.path = path then edit.result else map[path]? := by
  unfold HeadMap.edit PathEditV2.result
  split
  · rw [OrderedMap.getElem?_erase_eq]
  · rw [OrderedMap.getElem?_insert_eq]

theorem HeadMap.Proper.edit {map : HeadMap} (proper : map.Proper) {edit : PathEditV2}
    (allowed : edit.Allowed) : (map.edit edit).Proper := by
  have result : ∀ heads, edit.result = some heads → heads = headSets edit.heads ∧ heads ≠ ∅ := by
    intro heads isResult
    unfold PathEditV2.result at isResult
    split at isResult
    · cases isResult
    · rename_i holds
      cases isResult
      exact ⟨rfl, fun nothing => holds (isEmpty_iff.mpr nothing)⟩
  constructor
  · intro path heads found
    rw [getElem?_edit] at found
    split at found
    · rw [(result heads found).1]
      exact allowed.normal
    · exact proper.normal path heads found
  · intro path heads found
    rw [getElem?_edit] at found
    split at found
    · exact (result heads found).2
    · exact proper.holds path heads found
  · intro path heads found
    rw [getElem?_edit] at found
    split at found
    · rename_i same
      exact same ▸ allowed.path
    · exact proper.keyed path heads found

theorem HeadMap.proper_empty : HeadMap.Proper ∅ := by
  constructor
  · intro path heads found
    simp at found
  · intro path heads found
    simp at found
  · intro path heads found
    simp at found

/-! ## One edit -/

section Patches

variable {crypto : Crypto} {pool : Node → Prop} {store : NodeStore}

theorem placeBuckets_does (free : CollisionFree crypto pool) (sound : store.Sound crypto pool)
    {own : Option Entry} (ownHeld : ∀ entry, own = some entry → EntryHeld crypto pool store entry)
    {view : View} {tree : HeadsTree} (shown : Shows crypto pool store view tree)
    (usable : Usable crypto pool (tree.withHere own)) :
    Does crypto pool store (placeBuckets crypto (nameOf crypto own) view)
      fun result after => Shows crypto pool after result (tree.withHere own) := by
  rcases shown.split_eq free with ⟨zeroView, oneView, parts, zeroShown, oneShown⟩
  refine Does.reading_bind parts ?_
  exact mk_does free sound ownHeld zeroShown oneShown usable

theorem patchEdit_does (free : CollisionFree crypto pool) (sound : store.Sound crypto pool)
    {view : View} {map : HeadMap} (shown : Shows crypto pool store view (pathTree crypto map))
    {edit : PathEditV2} (allowed : edit.Allowed) (kept : (map.edit edit).Kept crypto pool) :
    Does crypto pool store (patchEdit crypto view edit)
      fun result after => Shows crypto pool after result (pathTree crypto (map.edit edit)) := by
  rcases allowed.path with ⟨key, keyed⟩
  have placed : (map.edit edit)[edit.path]? = edit.result := by
    rw [getElem?_edit, if_pos rfl]
  have treeIs : pathTree crypto (map.edit edit) =
      (pathTree crypto map).set key (edit.result.map (entryOf crypto)) :=
    pathTree_change keyed (map.getElem?_edit edit)
  have storedHeads : headSets edit.heads ≠ ∅ → Stored crypto pool (headSets edit.heads) := by
    intro holds
    apply kept.stored
    rw [placed, PathEditV2.result, if_neg (fun nothing => holds (isEmpty_iff.mp nothing))]
  have pooled : AuthorsPooled crypto pool (bucketTree (headSets edit.heads)) := by
    by_cases nothing : headSets edit.heads = ∅
    · rw [nothing]
      exact fun node member => absurd member List.not_mem_nil
    · exact (storedHeads nothing).pooled
  have within : (headCounts (bucketTree (headSets edit.heads))).inRange = true := by
    by_cases nothing : headSets edit.heads = ∅
    · rw [nothing]
      rfl
    · exact (storedHeads nothing).inRange
  refine Does.bind (storeHeads_achieves free allowed.normalize_eq allowed.normal pooled within
    sound) ?_
  rintro result after grown soundAfter ⟨resultIs, authors⟩
  subst resultIs
  refine Does.reading_bind keyed ?_
  have ownName : bucketDigest crypto (headSets edit.heads) =
      nameOf crypto (edit.result.map (entryOf crypto)) := by
    unfold PathEditV2.result
    split
    · rename_i nothing
      rw [isEmpty_iff.mp nothing]
      rfl
    · rfl
  have ownHeld : ∀ entry, edit.result.map (entryOf crypto) = some entry →
      EntryHeld crypto pool after entry := by
    intro entry isEntry
    unfold PathEditV2.result at isEntry
    split at isEntry
    · cases isEntry
    · rename_i holds
      cases isEntry
      exact ⟨_, storedHeads fun nothing => holds (isEmpty_iff.mpr nothing), rfl, authors⟩
  rw [ownName, treeIs]
  have usable := kept.usable
  rw [treeIs] at usable
  refine (shown.mono grown).atPrefix_does free ?_ soundAfter (Nat.le_refl _) usable
  intro later view tree grownLater soundLater treeShown treeUsable
  exact placeBuckets_does free soundLater
    (fun entry isEntry => (ownHeld entry isEntry).mono grownLater) treeShown treeUsable

/-! ## Whole runs -/

theorem patchEdits_does (free : CollisionFree crypto pool) (sound : store.Sound crypto pool)
    {view : View} {map : HeadMap} (shown : Shows crypto pool store view (pathTree crypto map))
    {edits : List PathEditV2} (allowed : ∀ edit ∈ edits, edit.Allowed)
    (kept : ∀ later ∈ map.history edits, later.Kept crypto pool) :
    Does crypto pool store (patchEdits crypto view edits)
      fun result after => Shows crypto pool after result (pathTree crypto (map.edits edits)) := by
  induction edits generalizing store view map with
  | nil => exact Does.pure sound shown
  | cons edit edits induction =>
    have next : (map.edit edit).Kept crypto pool := by
      apply kept
      rw [HeadMap.history]
      apply List.mem_cons_of_mem
      cases edits with
      | nil => exact List.mem_singleton.mpr rfl
      | cons edit edits => exact .head _
    refine Does.bind (patchEdit_does free sound shown (allowed edit (.head _)) next)
      ?_
    intro result after _ soundAfter resultShown
    exact induction soundAfter resultShown
      (fun other member => allowed other (.tail _ member))
      (fun later member => kept later (.tail _ member))

/-- The store has the namespace of a map. -/
structure HasMap (crypto : Crypto) (pool : Node → Prop) (store : NodeStore) (map : HeadMap) :
    Prop where
  kept : map.Kept crypto pool
  held : Held crypto store (pathTree crypto map)
  entries : EntriesHeld crypto pool store (pathTree crypto map)

theorem HasMap.shows_root (free : CollisionFree crypto pool) {map : HeadMap}
    (has : HasMap crypto pool store map) :
    Shows crypto pool store (.ofDigest crypto (canonicalRoot crypto map)) (pathTree crypto map) :=
  shows_ofDigest free has.kept.usable has.entries has.held

theorem patch_does (free : CollisionFree crypto pool) (sound : store.Sound crypto pool)
    {map : HeadMap} (has : HasMap crypto pool store map) {edits : List PathEditV2}
    (allowed : ∀ edit ∈ edits, edit.Allowed)
    (kept : ∀ later ∈ map.history edits, later.Kept crypto pool) :
    Does crypto pool store (patch crypto (canonicalRoot crypto map) edits)
      fun root after => root = canonicalRoot crypto (map.edits edits) ∧
        HasMap crypto pool after (map.edits edits) := by
  have last : (map.edits edits).Kept crypto pool := by
    apply kept
    have member : ∀ (edits : List PathEditV2) (map : HeadMap), map.edits edits ∈ map.history edits := by
      intro edits
      induction edits with
      | nil => exact fun map => List.mem_singleton.mpr rfl
      | cons edit edits induction => exact fun map => .tail _ (induction _)
    exact member edits map
  refine Does.bind (patchEdits_does free sound (has.shows_root free) allowed kept) ?_
  intro view middle _ soundMiddle shown
  refine (shown.storeView_does free soundMiddle).mono ?_
  rintro root after grown _ ⟨rootIs, held⟩
  exact ⟨rootIs, last, held, shown.entries.mono grown⟩

theorem HeadMap.history_append (map : HeadMap) (first second : List PathEditV2) :
    (∀ later ∈ map.history first, later ∈ map.history (first ++ second)) ∧
      ∀ later ∈ (map.edits first).history second, later ∈ map.history (first ++ second) := by
  induction first generalizing map with
  | nil =>
    refine ⟨?_, fun later member => member⟩
    intro later member
    rw [List.mem_singleton.mp member]
    cases second with
    | nil => exact List.mem_singleton.mpr rfl
    | cons edit edits => exact .head _
  | cons edit edits induction =>
    rcases induction (map.edit edit) with ⟨before, after⟩
    constructor
    · exact List.forall_mem_cons.mpr ⟨.head _,
        fun later inRest => .tail _ (before later inRest)⟩
    · intro later member
      exact .tail _ (after later member)

theorem patchAll_does (free : CollisionFree crypto pool) (sound : store.Sound crypto pool)
    {map : HeadMap} (has : HasMap crypto pool store map) {calls : List (List PathEditV2)}
    (allowed : ∀ edit ∈ calls.flatten, edit.Allowed)
    (kept : ∀ later ∈ map.history calls.flatten, later.Kept crypto pool) :
    Does crypto pool store (patchAll crypto (canonicalRoot crypto map) calls)
      fun root after => root = canonicalRoot crypto (map.edits calls.flatten) ∧
        HasMap crypto pool after (map.edits calls.flatten) := by
  induction calls generalizing store map with
  | nil => exact Does.pure sound ⟨rfl, has⟩
  | cons edits calls induction =>
    rw [List.flatten_cons] at allowed kept ⊢
    rcases map.history_append edits calls.flatten with ⟨before, after⟩
    refine Does.bind (patch_does free sound has
      (fun edit member => allowed edit (List.mem_append_left _ member))
      (fun later member => kept later (before later member))) ?_
    rintro root middle _ soundMiddle ⟨rootIs, hasMiddle⟩
    subst rootIs
    have joined : map.edits (edits ++ calls.flatten) = (map.edits edits).edits calls.flatten :=
      List.foldl_append ..
    rw [joined]
    exact induction soundMiddle hasMiddle
      (fun edit member => allowed edit (List.mem_append_right _ member))
      (fun later member => kept later (after later member))

/-! ## Lookups -/

theorem readBuckets_empty : readBuckets crypto store (emptyDigest crypto) = .ok ∅ := by
  rw [readBuckets, read, if_pos rfl]
  rfl

theorem Stored.readBuckets_eq (free : CollisionFree crypto pool) {heads : AuthorBuckets}
    (stored : Stored crypto pool heads) (held : AuthorsHeld crypto store (bucketTree heads)) :
    readBuckets crypto store (bucketDigest crypto heads) = .ok heads := by
  rw [readBuckets, stored.read_eq free held stored.nodes_le]
  rfl

theorem HasMap.lookup_eq (free : CollisionFree crypto pool) {map : HeadMap}
    (has : HasMap crypto pool store map) {path : SyncPath} {key : Bits}
    (keyed : pathKey path = .ok key) :
    lookup crypto store (canonicalRoot crypto map) path = .ok (map.at path) := by
  rcases (has.shows_root free).sub_eq free (Nat.le_refl key.length) with ⟨found, descended, shown⟩
  rcases shown.split_eq free with ⟨zeroView, oneView, parts, _, _⟩
  have named : bucketsAt crypto store (canonicalRoot crypto map) path =
      .ok (nameOf crypto (map[path]?.map (entryOf crypto))) := by
    rw [← @get_pathTree_of_key crypto map path key keyed, Patricia.get, bucketsAt, keyed]
    change (do
      let found ← sub crypto store key.length _ key
      let parts ← split crypto store found
      return parts.1) = _
    rw [descended]
    change (do
      let parts ← split crypto store found
      return parts.1) = _
    rw [parts]
    rfl
  rw [lookup, named, HeadMap.at]
  change readBuckets crypto store _ = _
  cases stored : map[path]? with
  | none => exact readBuckets_empty
  | some heads =>
    have atKey := (@get_pathTree_of_key crypto map path key keyed).trans
      (congrArg (Option.map (entryOf crypto)) stored)
    rcases has.entries key _ atKey with ⟨other, otherStored, isEntry, authors⟩
    have same := (has.kept.stored stored).bucketDigest_injective free otherStored
      (congrArg Entry.buckets isEntry)
    subst same
    exact otherStored.readBuckets_eq free authors

/-! ## Any two runs -/

/-- A sequence of patches of the empty namespace that a caller may make: `pool` has the
nodes of every map it goes through, and none has more heads than can be counted. -/
structure Runnable (crypto : Crypto) (pool : Node → Prop) (calls : List (List PathEditV2)) :
    Prop where
  allowed : ∀ edit ∈ calls.flatten, edit.Allowed
  nodes : ∀ map ∈ HeadMap.history ∅ calls.flatten, ∀ node ∈ mapNodes crypto map, pool node
  fits : ∀ map ∈ HeadMap.history ∅ calls.flatten, map.headTotal < headLimit

theorem HeadMap.proper_history {map : HeadMap} (proper : map.Proper) {edits : List PathEditV2}
    (allowed : ∀ edit ∈ edits, edit.Allowed) : ∀ later ∈ map.history edits, later.Proper := by
  induction edits generalizing map with
  | nil =>
    intro later member
    rw [List.mem_singleton.mp member]
    exact proper
  | cons edit edits induction =>
    intro later member
    rcases List.mem_cons.mp member with rfl | inRest
    · exact proper
    · exact induction (proper.edit (allowed edit (.head _)))
        (fun other member => allowed other (.tail _ member)) later inRest

theorem Runnable.kept {calls : List (List PathEditV2)} (runnable : Runnable crypto pool calls) :
    ∀ map ∈ HeadMap.history ∅ calls.flatten, map.Kept crypto pool :=
  fun map member => ⟨proper_history proper_empty runnable.allowed map member,
    runnable.nodes map member, runnable.fits map member⟩

theorem pathTree_empty : pathTree crypto (∅ : HeadMap) = .empty := rfl

theorem hasMap_empty (kept : HeadMap.Kept crypto pool ∅) : HasMap crypto pool store ∅ := by
  refine ⟨kept, ?_, ?_⟩
  · rw [pathTree_empty]
    trivial
  · rw [pathTree_empty]
    exact entriesHeld_empty

theorem Runnable.patchAll_does (free : CollisionFree crypto pool) {calls : List (List PathEditV2)}
    (runnable : Runnable crypto pool calls) (sound : store.Sound crypto pool) :
    Does crypto pool store (patchAll crypto (emptyDigest crypto) calls)
      fun root after => root = canonicalRoot crypto (HeadMap.edits ∅ calls.flatten) ∧
        HasMap crypto pool after (HeadMap.edits ∅ calls.flatten) := by
  have first : HeadMap.Kept crypto pool ∅ := by
    apply runnable.kept
    cases calls.flatten with
    | nil => exact List.mem_singleton.mpr rfl
    | cons edit edits => exact .head _
  exact Namespace.patchAll_does free sound (hasMap_empty first) runnable.allowed runnable.kept

/-- Two runs of patches end at one root exactly when they leave one map; a map without
paths has the empty root, and a lookup returns the map's heads. -/
theorem patched_roots_canonical (free : CollisionFree crypto pool)
    {first second : List (List PathEditV2)} (firstRun : Runnable crypto pool first)
    (secondRun : Runnable crypto pool second) {firstStore secondStore : NodeStore}
    (firstSound : firstStore.Sound crypto pool) (secondSound : secondStore.Sound crypto pool) :
    ∃ firstRoot firstAfter secondRoot secondAfter,
      patchAll crypto (emptyDigest crypto) first firstStore = .ok firstRoot firstAfter ∧
      patchAll crypto (emptyDigest crypto) second secondStore = .ok secondRoot secondAfter ∧
      (firstRoot = secondRoot ↔ HeadMap.edits ∅ first.flatten = HeadMap.edits ∅ second.flatten) ∧
      (HeadMap.edits ∅ first.flatten = ∅ → firstRoot = emptyDigest crypto) ∧
      ∀ path key, pathKey path = .ok key →
        lookup crypto firstAfter firstRoot path = .ok ((HeadMap.edits ∅ first.flatten).at path) := by
  rcases firstRun.patchAll_does free firstSound with
    ⟨firstRoot, firstAfter, firstRan, _, _, firstIs, firstHas⟩
  rcases secondRun.patchAll_does free secondSound with
    ⟨secondRoot, secondAfter, secondRan, _, _, secondIs, secondHas⟩
  subst firstIs secondIs
  refine ⟨_, firstAfter, _, secondAfter, firstRan, secondRan, ⟨?_, ?_⟩, ?_, ?_⟩
  · exact firstHas.kept.canonicalRoot_injective free secondHas.kept
  · intro same
    rw [same]
  · intro nothing
    rw [nothing]
    rfl
  · exact fun path key keyed => firstHas.lookup_eq free keyed

/-! ## Counts -/

/-- How often an author has more than one head at a path. -/
def HeadMap.duplicateTotal (map : HeadMap) : Nat :=
  (map.toList.map fun entry =>
    (entry.2.toList.map fun bucket => if 1 < bucket.2.length then 1 else 0).sum).sum

theorem HasMap.rootAggregates_eq (free : CollisionFree crypto pool) {map : HeadMap}
    (has : HasMap crypto pool store map) :
    rootAggregates crypto store (canonicalRoot crypto map) =
      .ok ⟨map.headTotal, map.duplicateTotal⟩ := by
  have counts : treeCounts (pathTree crypto map) = ⟨map.headTotal, map.duplicateTotal⟩ := by
    rw [treeCounts]
    congr 1
    · exact has.kept.proper.total_pathTree HeadAggregates.headCount
    · exact has.kept.proper.total_pathTree HeadAggregates.duplicateAuthorCount
  have held := has.held
  have usable := has.kept.usable
  rw [rootAggregates, canonicalRoot, ← counts]
  cases tree : pathTree crypto map with
  | empty =>
    rw [rootDigest, if_pos rfl]
    rfl
  | node skip own zero one =>
    rw [tree] at held usable
    have loaded : loadNode crypto store (rootDigest crypto (.node skip own zero one)) =
        .ok (nodeOf crypto skip own zero one) :=
      verified_eq_ok_iff.mpr ⟨held.1, rfl⟩
    have holds : Patricia.node skip own zero one ≠ .empty := by simp
    rw [if_neg (usable.rootDigest_ne_empty free holds), loaded, nodeOf, nodeOver]
    -- Both kinds of node carry the counts of the whole subtree.
    cases Patricia.common (.node skip own zero one) with
    | none => rfl
    | some entry => rfl

/-- After any run of patches the root node alone says how many heads the namespace has, and
how often an author has more than one at a path. -/
theorem root_counts_exact (free : CollisionFree crypto pool) {calls : List (List PathEditV2)}
    (runnable : Runnable crypto pool calls) (sound : store.Sound crypto pool) :
    ∃ root after, patchAll crypto (emptyDigest crypto) calls store = .ok root after ∧
      rootAggregates crypto after root = .ok
        ⟨(HeadMap.edits ∅ calls.flatten).headTotal,
          (HeadMap.edits ∅ calls.flatten).duplicateTotal⟩ := by
  rcases runnable.patchAll_does free sound with ⟨_, after, ran, _, _, rfl, has⟩
  exact ⟨_, after, ran, has.rootAggregates_eq free⟩

end Patches

theorem collisionFree_of_nodup {crypto : Crypto} {nodes : List Node}
    (distinct : (emptyDigest crypto :: nodes.map (Node.digest crypto)).Nodup) :
    CollisionFree crypto (· ∈ nodes) := by
  rw [List.nodup_cons] at distinct
  constructor
  · intro first isFirst second isSecond same
    exact List.inj_on_of_nodup_map distinct.2 isFirst isSecond same
  · intro node member isEmpty
    exact distinct.1 (List.mem_map.mpr ⟨node, member, isEmpty⟩)

theorem NodeStore.sound_empty (crypto : Crypto) (pool : Node → Prop) :
    NodeStore.empty.Sound crypto pool := by
  constructor
  · intro digest node held
    cases held
  · intro digest node held
    cases held
  · intro digest node held
    cases held

def sampleEdit : PathEditV2 := ⟨"a", ExtTreeMap.ofList [(⟨"d", 7⟩, [⟨5⟩])] compare⟩

def sampleMap : HeadMap := HeadMap.edits ∅ [sampleEdit]

set_option maxRecDepth 8192 in
theorem sampleMap_collisionFree :
    CollisionFree Crypto.sample (· ∈ mapNodes Crypto.sample sampleMap) :=
  collisionFree_of_nodup (by with_unfolding_all decide)

set_option maxRecDepth 8192 in
theorem sampleEdit_allowed : sampleEdit.Allowed := by
  have only : ∀ (author : AuthorId) bucket, sampleEdit.heads[author]? = some bucket →
      author = ⟨"d", 7⟩ ∧ bucket = [⟨5⟩] := by
    intro author bucket found
    have listed := (OrderedMap.getElem?_ofList_eq_some_iff (by decide)).mp found
    cases List.mem_singleton.mp listed
    exact ⟨rfl, rfl⟩
  refine ⟨⟨_, countable_eq_ok_iff.mpr ⟨by decide, rfl⟩⟩, ?_, ?_⟩
  · intro author bucket found
    rcases only author bucket found with ⟨rfl, _⟩
    exact ⟨_, countable_eq_ok_iff.mpr ⟨by with_unfolding_all decide, rfl⟩⟩
  · intro author bucket found
    rcases only author bucket found with ⟨_, rfl⟩
    decide

set_option maxRecDepth 8192 in
theorem sampleMap_runnable :
    Runnable Crypto.sample (· ∈ mapNodes Crypto.sample sampleMap) [[sampleEdit]] := by
  refine ⟨?_, ?_, ?_⟩
  · intro edit member
    cases List.mem_singleton.mp member
    exact sampleEdit_allowed
  · with_unfolding_all decide
  · with_unfolding_all decide

set_option maxRecDepth 8192 in
theorem patched_roots_canonical_removed : ∃ firstRoot firstAfter secondRoot secondAfter,
      patchAll Crypto.sample (emptyDigest Crypto.sample) [[sampleEdit], [⟨"a", ∅⟩]]
        NodeStore.empty = .ok firstRoot firstAfter ∧
      patchAll Crypto.sample (emptyDigest Crypto.sample) [[sampleEdit]] NodeStore.empty =
        .ok secondRoot secondAfter ∧
      firstRoot ≠ secondRoot ∧ firstRoot = emptyDigest Crypto.sample := by
  have removal : PathEditV2.Allowed ⟨"a", ∅⟩ := by
    refine ⟨⟨_, countable_eq_ok_iff.mpr ⟨by decide, rfl⟩⟩, ?_, ?_⟩
    · intro author bucket found
      simp at found
    · intro author bucket found
      simp at found
  have firstRun : Runnable Crypto.sample (· ∈ mapNodes Crypto.sample sampleMap)
      [[sampleEdit], [⟨"a", ∅⟩]] := by
    refine ⟨?_, ?_, ?_⟩
    · intro edit member
      rcases List.mem_cons.mp member with rfl | member
      · exact sampleEdit_allowed
      · cases List.mem_singleton.mp member
        exact removal
    · with_unfolding_all decide
    · with_unfolding_all decide
  rcases patched_roots_canonical sampleMap_collisionFree firstRun sampleMap_runnable
    (NodeStore.sound_empty _ _) (NodeStore.sound_empty _ _) with
    ⟨firstRoot, firstAfter, secondRoot, secondAfter, firstRan, secondRan, rootsIff, removed, _⟩
  refine ⟨firstRoot, firstAfter, secondRoot, secondAfter, firstRan, secondRan, ?_, ?_⟩
  · rw [ne_eq, rootsIff]
    intro same
    have sizes := congrArg ExtTreeMap.size same
    revert sizes
    with_unfolding_all decide
  · apply removed
    apply ExtTreeMap.isEmpty_iff.mp
    with_unfolding_all decide

set_option maxRecDepth 8192 in
theorem root_counts_exact_one : ∃ root after,
    patchAll Crypto.sample (emptyDigest Crypto.sample) [[sampleEdit]] NodeStore.empty =
        .ok root after ∧
      rootAggregates Crypto.sample after root = .ok ⟨1, 0⟩ := by
  have counts : sampleMap.headTotal = 1 ∧ sampleMap.duplicateTotal = 0 := by
    with_unfolding_all decide
  rw [← counts.1, ← counts.2]
  exact root_counts_exact sampleMap_collisionFree sampleMap_runnable (NodeStore.sound_empty _ _)

end Yadorilink.Namespace
