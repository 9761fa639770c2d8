import Yadorilink.Namespace.HeadsTrees

/-! What a view shows. A view shows a tree when it is the tree's decoded root over
children in the store, or the digest of a root in the store. Reading operations are
described by the tree alone: resolving decodes the root, splitting gives the entry
and the two subtrees of the tree's position. -/

namespace Yadorilink.Namespace

open Std Patricia Option
open Transaction (Achieves)

/-! ## Trees in a store -/

section Held

variable (crypto : Crypto) (pool : Node → Prop) (store : NodeStore)

def ShapeHeld : HeadsTree → Prop
  | .empty => True
  | .node skip own zero one =>
    store.shapes (shapeDigest crypto (.node skip own zero one)) =
        some ((shapeBodyOf crypto own zero one).node skip) ∧
      ShapeHeld zero ∧ ShapeHeld one

def Held : HeadsTree → Prop
  | .empty => True
  | .node skip own zero one =>
    store.nodes (rootDigest crypto (.node skip own zero one)) =
        some (nodeOf crypto skip own zero one) ∧
      match Patricia.common (.node skip own zero one) with
      | some _ => ShapeHeld crypto store (.node [] own zero one)
      | none => Held zero ∧ Held one

def HeldBelow : HeadsTree → Prop
  | .empty => True
  | .node skip own zero one =>
    match Patricia.common (.node skip own zero one) with
    | some _ => ShapeHeld crypto store zero ∧ ShapeHeld crypto store one
    | none => Held crypto store zero ∧ Held crypto store one

def EntryHeld (entry : Entry) : Prop :=
  ∃ heads, Stored crypto pool heads ∧ entry = entryOf crypto heads ∧
    AuthorsHeld crypto store (bucketTree heads)

def EntriesHeld (tree : HeadsTree) : Prop :=
  ∀ key entry, tree.get key = some entry → EntryHeld crypto pool store entry

/-- The view shows the tree. -/
structure Shows (view : View) (tree : HeadsTree) : Prop where
  usable : Usable crypto pool tree
  entries : EntriesHeld crypto pool store tree
  seen : (view = viewOf crypto tree ∧ HeldBelow crypto store tree) ∨
    (tree ≠ .empty ∧ view = .stored (rootDigest crypto tree) ∧ Held crypto store tree)

end Held

variable {entry : Entry}

section Grown

variable {crypto : Crypto} {pool : Node → Prop} {store later : NodeStore} {tree : HeadsTree}

theorem ShapeHeld.mono (held : ShapeHeld crypto store tree) (grown : store.Extends later) :
    ShapeHeld crypto later tree := by
  induction tree with
  | empty => trivial
  | node skip own zero one zeroInduction oneInduction =>
    rcases held with ⟨here, zeroHeld, oneHeld⟩
    exact ⟨grown.shapes _ _ here, zeroInduction zeroHeld, oneInduction oneHeld⟩

theorem Held.mono (held : Held crypto store tree) (grown : store.Extends later) :
    Held crypto later tree := by
  induction tree with
  | empty => trivial
  | node skip own zero one zeroInduction oneInduction =>
    rw [Held] at held ⊢
    rcases held with ⟨here, below⟩
    refine ⟨grown.nodes _ _ here, ?_⟩
    cases shared : common (.node skip own zero one) with
    | some entry =>
      rw [shared] at below
      exact below.mono grown
    | none =>
      rw [shared] at below
      exact ⟨zeroInduction below.1, oneInduction below.2⟩

theorem HeldBelow.mono (held : HeldBelow crypto store tree) (grown : store.Extends later) :
    HeldBelow crypto later tree := by
  cases tree with
  | empty => trivial
  | node skip own zero one =>
    rw [HeldBelow] at held ⊢
    cases shared : common (.node skip own zero one) with
    | some entry =>
      rw [shared] at held
      exact ⟨held.1.mono grown, held.2.mono grown⟩
    | none =>
      rw [shared] at held
      exact ⟨held.1.mono grown, held.2.mono grown⟩

theorem EntryHeld.mono (held : EntryHeld crypto pool store entry) (grown : store.Extends later) :
    EntryHeld crypto pool later entry := by
  rcases held with ⟨heads, stored, isEntry, authors⟩
  exact ⟨heads, stored, isEntry, authors.mono grown⟩

theorem EntriesHeld.mono (held : EntriesHeld crypto pool store tree)
    (grown : store.Extends later) : EntriesHeld crypto pool later tree :=
  fun key entry found => (held key entry found).mono grown

theorem Shows.mono {view : View} (shows_ : Shows crypto pool store view tree)
    (grown : store.Extends later) : Shows crypto pool later view tree := by
  rcases shows_ with ⟨usable, entries, seen⟩
  refine ⟨usable, entries.mono grown, ?_⟩
  rcases seen with ⟨isView, below⟩ | ⟨holds, isStored, held⟩
  · exact Or.inl ⟨isView, below.mono grown⟩
  · exact Or.inr ⟨holds, isStored, held.mono grown⟩

end Grown

/-! ## Entries -/

section Entries

variable {crypto : Crypto} {pool : Node → Prop} {store : NodeStore} {tree : HeadsTree}

theorem EntryHeld.buckets_ne_empty (free : CollisionFree crypto pool)
    (held : EntryHeld crypto pool store entry) : entry.buckets ≠ emptyDigest crypto := by
  rcases held with ⟨heads, stored, rfl, _⟩
  exact stored.bucketDigest_ne_empty free

theorem EntryHeld.aggregates_eq (free : CollisionFree crypto pool)
    (held : EntryHeld crypto pool store entry) :
    aggregates crypto store entry.buckets = .ok entry.perEntry := by
  rcases held with ⟨heads, stored, rfl, authors⟩
  exact stored.aggregates_eq free authors

theorem EntryHeld.eq_of_buckets (free : CollisionFree crypto pool) {first second : Entry}
    (firstHeld : EntryHeld crypto pool store first) (secondHeld : EntryHeld crypto pool store second)
    (same : first.buckets = second.buckets) : first = second := by
  have counts := firstHeld.aggregates_eq free
  rw [same, secondHeld.aggregates_eq free] at counts
  cases first
  cases second
  cases same
  cases counts
  rfl

theorem EntriesHeld.named (held : EntriesHeld crypto pool store tree) : Named crypto pool tree := by
  intro key entry found
  rcases held key entry found with ⟨heads, stored, isEntry, _⟩
  exact ⟨heads, stored, isEntry⟩

theorem EntriesHeld.child (held : EntriesHeld crypto pool store tree) (bit : Bool) :
    EntriesHeld crypto pool store (tree.child bit) :=
  fun key entry found => held (bit :: key) entry found

theorem EntriesHeld.under (held : EntriesHeld crypto pool store tree) (bits : Bits) :
    EntriesHeld crypto pool store (tree.under bits) := by
  intro key entry found
  rcases get_under_eq_some_iff.mp found with ⟨rest, _, below⟩
  exact held rest entry below

theorem entriesHeld_empty : EntriesHeld crypto pool store .empty := by
  intro key entry found
  simp at found

theorem EntriesHeld.mk {own : Option Entry} {zero one : HeadsTree}
    (ownHeld : ∀ entry, own = some entry → EntryHeld crypto pool store entry)
    (zeroHeld : EntriesHeld crypto pool store zero) (oneHeld : EntriesHeld crypto pool store one) :
    EntriesHeld crypto pool store (Patricia.mk own zero one) := by
  intro key entry found
  cases key with
  | nil => exact ownHeld entry ((here_mk own zero one).symm.trans found)
  | cons bit rest =>
    rw [get_cons, child_mk] at found
    cases bit
    · exact zeroHeld rest entry found
    · exact oneHeld rest entry found

theorem EntriesHeld.nameOf_eq_empty_iff (free : CollisionFree crypto pool) {own : Option Entry}
    (held : ∀ entry, own = some entry → EntryHeld crypto pool store entry) :
    nameOf crypto own = emptyDigest crypto ↔ own = none := by
  cases own with
  | none => simp [nameOf]
  | some entry =>
    simp only [nameOf, map_some, getD_some, reduceCtorEq, iff_false]
    exact (held entry rfl).buckets_ne_empty free

theorem EntriesHeld.count_le (held : EntriesHeld crypto pool store tree) :
    tree.count ≤ (treeCounts tree).headCount := by
  apply count_le_total
  intro key entry found
  rcases held key entry found with ⟨heads, stored, rfl, _⟩
  exact stored.headCount_pos

theorem EntriesHeld.duplicates_le (held : EntriesHeld crypto pool store tree) :
    (treeCounts tree).duplicateAuthorCount ≤ (treeCounts tree).headCount := by
  apply total_le_total
  intro key entry found
  rcases held key entry found with ⟨heads, stored, rfl, _⟩
  exact headCounts_duplicates _

theorem EntriesHeld.inRange (held : EntriesHeld crypto pool store tree)
    (usable : Usable crypto pool tree) :
    (treeCounts tree).inRange = true ∧ tree.count ≤ u64Max := by
  have counted := held.count_le
  have fewer := held.duplicates_le
  have fits := usable.fits
  rw [HeadAggregates.inRange_iff]
  simp only [headLimit, u64Max] at fits ⊢
  omega

end Entries

/-! ## The root's view -/

section RootView

variable {crypto : Crypto} {pool : Node → Prop} {store : NodeStore} {tree : HeadsTree}

@[simp] theorem viewOf_isEmpty : (viewOf crypto tree).isEmpty = tree.isEmpty := by
  cases tree with
  | empty => rfl
  | node skip own zero one =>
    rw [viewOf]
    cases common (.node skip own zero one) <;> rfl

@[simp] theorem viewOf_sharedBuckets : (viewOf crypto tree).sharedBuckets =
    tree.common.map fun entry => (entry.buckets, entry.perEntry) := by
  cases tree with
  | empty => rfl
  | node skip own zero one =>
    rw [viewOf]
    cases common (.node skip own zero one) <;> rfl

section Node

variable (skip newSkip : Bits) (own : Option Entry) (zero one : HeadsTree)

@[simp] theorem viewOf_skip : (viewOf crypto (.node skip own zero one)).skip = skip := by
  rw [viewOf]
  cases common (.node skip own zero one) <;> rfl

@[simp] theorem viewOf_withSkip : (viewOf crypto (.node skip own zero one)).withSkip newSkip =
    viewOf crypto (.node newSkip own zero one) := by
  have same : common (.node newSkip own zero one) =
      common (.node skip own zero one) := rfl
  rw [viewOf, viewOf, same]
  cases common (.node skip own zero one) <;> rfl

end Node

theorem treeCounts_of_common (shared : tree.common = some entry) :
    treeCounts tree = ⟨entry.perEntry.headCount * tree.count,
      entry.perEntry.duplicateAuthorCount * tree.count⟩ := by
  rw [treeCounts, total_of_common _ shared, total_of_common _ shared]

theorem times_of_common (shared : tree.common = some entry)
    (within : (treeCounts tree).inRange = true) :
    entry.perEntry.times tree.count = treeCounts tree := by
  rw [treeCounts_of_common shared] at within ⊢
  rw [HeadAggregates.times, HeadAggregates.checkedTimes]
  simp only [within, if_true, getD_some]

theorem viewOf_aggregates (within : (treeCounts tree).inRange = true) :
    (viewOf crypto tree).aggregates = treeCounts tree := by
  cases tree with
  | empty => rfl
  | node skip own zero one =>
    rw [viewOf]
    cases shared : common (.node skip own zero one) with
    | some entry => exact times_of_common shared within
    | none => rfl

theorem viewOf_conflict (canonical : tree.Canonical) :
    (viewOf crypto tree).conflict = conflicted tree := by
  cases tree with
  | empty => rfl
  | node skip own zero one =>
    rw [viewOf]
    cases shared : common (.node skip own zero one) with
    | some entry =>
      rw [conflicted, canonical.any_of_common _ shared]
      rfl
    | none => rfl

theorem digestOf_viewOf (within : (treeCounts tree).inRange = true) :
    digestOf crypto (viewOf crypto tree) = rootDigest crypto tree := by
  cases tree with
  | empty => rfl
  | node skip own zero one =>
    rw [viewOf, rootDigest, nodeOver]
    cases shared : common (.node skip own zero one) with
    | some entry =>
      have product := times_of_common shared within
      change NodeV2.digest crypto (.uniform skip _ entry.buckets
        (entry.perEntry.times (count (.node skip own zero one)))) = _
      rw [product]
      rfl
    | none => rfl

theorem Usable.children_ne_empty {skip : Bits} {zero one : HeadsTree}
    (usable : Usable crypto pool (.node skip none zero one)) : zero ≠ .empty ∧ one ≠ .empty :=
  usable.canonical.1.resolve_left (by simp)

theorem Usable.shapeBody_eq (free : CollisionFree crypto pool) {skip : Bits} {own : Option Entry}
    {zero one : HeadsTree} (usable : Usable crypto pool (.node skip own zero one))
    (newSkip : Bits) (owner : NodeDigest) :
    shapeBody crypto ((shapeBodyOf crypto own zero one).node newSkip) owner =
      .ok (shapeBodyOf crypto own zero one) := by
  have counted : count (.node [] own zero one) ≠ 0 :=
    Nat.ne_of_gt (usable.node_sub.canonical.count_pos (by simp))
  refine if_neg (not_or.mpr ⟨counted, ?_⟩)
  rintro ⟨noEntry, childEmpty⟩
  cases own with
  | some entry => cases noEntry
  | none =>
    rcases usable.children_ne_empty with ⟨zeroHolds, oneHolds⟩
    rcases childEmpty with zeroEmpty | oneEmpty
    · exact usable.zeroPart.shapeDigest_ne_empty free zeroHolds zeroEmpty
    · exact usable.onePart.shapeDigest_ne_empty free oneHolds oneEmpty

theorem resolve_stored (free : CollisionFree crypto pool) (usable : Usable crypto pool tree)
    (entries : EntriesHeld crypto pool store tree) (holds : tree ≠ .empty)
    (held : Held crypto store tree) :
    resolve crypto store (.stored (rootDigest crypto tree)) = .ok (viewOf crypto tree) := by
  cases tree with
  | empty => exact absurd rfl holds
  | node skip own zero one =>
    rw [Held] at held
    have loaded : loadNode crypto store (rootDigest crypto (.node skip own zero one)) =
        .ok (nodeOf crypto skip own zero one) := verified_eq_ok_iff.mpr ⟨held.1, rfl⟩
    rw [resolve, loaded, nodeOf, nodeOver, viewOf]
    cases shared : common (.node skip own zero one) with
    | none =>
      refine if_neg ?_
      rintro ⟨noName, childEmpty⟩
      have ownHeld : ∀ entry, own = some entry → EntryHeld crypto pool store entry := by
        intro entry isOwn
        refine entries (skip ++ []) entry ?_
        rw [get_node_append]
        exact isOwn
      rw [EntriesHeld.nameOf_eq_empty_iff free ownHeld] at noName
      subst noName
      rcases usable.children_ne_empty with ⟨zeroHolds, oneHolds⟩
      rcases childEmpty with zeroEmpty | oneEmpty
      · exact usable.zeroPart.rootDigest_ne_empty free zeroHolds zeroEmpty
      · exact usable.onePart.rootDigest_ne_empty free oneHolds oneEmpty
    | some entry =>
      rcases usable.canonical.exists_of_common shared with ⟨key, found⟩
      have below := held.2
      rw [shared] at below
      have loadedShape : loadShape crypto store (shapeDigest crypto (.node [] own zero one)) =
          .ok ((shapeBodyOf crypto own zero one).node []) :=
        verified_eq_ok_iff.mpr ⟨below.1, rfl⟩
      have body := usable.shapeBody_eq free []
        (rootDigest crypto (.node skip own zero one))
      have counted : 0 < count (.node skip own zero one) :=
        usable.canonical.count_pos (by simp)
      have countIs : (shapeBodyOf crypto own zero one).entryCount =
          count (.node skip own zero one) := rfl
      have counts := treeCounts_of_common shared
      change (if _ then _ else _) = _
      rw [if_neg ((entries key entry found).buckets_ne_empty free), loadedShape]
      change (do
        let body ← shapeBody crypto ((shapeBodyOf crypto own zero one).node []) _
        _) = _
      rw [body]
      change (if _ then _ else _) = _
      rw [countIs, counts, if_neg (by simp)]
      dsimp only
      rw [Nat.mul_div_cancel _ counted, Nat.mul_div_cancel _ counted]

end RootView

/-! ## Reading a view -/

section Reading

variable {crypto : Crypto} {pool : Node → Prop} {store : NodeStore} {view : View}
  {tree : HeadsTree}

theorem Held.below (held : Held crypto store tree) : HeldBelow crypto store tree := by
  cases tree with
  | empty => trivial
  | node skip own zero one =>
    rw [Held] at held
    rw [HeldBelow]
    cases shared : common (.node skip own zero one) with
    | some entry =>
      rw [shared] at held
      exact held.2.2
    | none =>
      rw [shared] at held
      exact held.2

theorem HeldBelow.under (below : HeldBelow crypto store tree) (bits : Bits) :
    HeldBelow crypto store (tree.under bits) := by
  cases tree with
  | empty => trivial
  | node skip own zero one => exact below

theorem Shows.below (shown : Shows crypto pool store view tree) : HeldBelow crypto store tree := by
  rcases shown.seen with ⟨_, below⟩ | ⟨_, _, held⟩
  · exact below
  · exact held.below

theorem Shows.resolve_eq (free : CollisionFree crypto pool)
    (shown : Shows crypto pool store view tree) :
    resolve crypto store view = .ok (viewOf crypto tree) := by
  rcases shown.seen with ⟨isView, _⟩ | ⟨holds, isStored, held⟩
  · rw [isView]
    cases tree with
    | empty => rfl
    | node skip own zero one =>
      rw [viewOf]
      cases common (.node skip own zero one) <;> rfl
  · rw [isStored]
    exact resolve_stored free shown.usable shown.entries holds held

theorem Shows.resolved (shown : Shows crypto pool store view tree) :
    Shows crypto pool store (viewOf crypto tree) tree :=
  ⟨shown.usable, shown.entries, Or.inl ⟨rfl, shown.below⟩⟩

theorem Shows.isEmpty_eq (shown : Shows crypto pool store view tree) :
    view.isEmpty = tree.isEmpty := by
  rcases shown.seen with ⟨isView, _⟩ | ⟨holds, isStored, _⟩
  · rw [isView, viewOf_isEmpty]
  · rw [isStored]
    cases tree with
    | empty => exact absurd rfl holds
    | node skip own zero one => rfl

theorem Shows.digestOf_eq (shown : Shows crypto pool store view tree) :
    digestOf crypto view = rootDigest crypto tree := by
  rcases shown.seen with ⟨isView, _⟩ | ⟨_, isStored, _⟩
  · rw [isView, digestOf_viewOf (shown.entries.inRange shown.usable).1]
  · rw [isStored]
    rfl

theorem shows_empty (usable : Usable crypto pool .empty) :
    Shows crypto pool store .empty .empty := ⟨usable, entriesHeld_empty, Or.inl ⟨rfl, trivial⟩⟩

theorem shows_ofDigest (free : CollisionFree crypto pool) (usable : Usable crypto pool tree)
    (entries : EntriesHeld crypto pool store tree) (held : Held crypto store tree) :
    Shows crypto pool store (.ofDigest crypto (rootDigest crypto tree)) tree := by
  by_cases holds : tree = .empty
  · subst holds
    rw [rootDigest, View.ofDigest, if_pos rfl]
    exact shows_empty usable
  · rw [View.ofDigest, if_neg (usable.rootDigest_ne_empty free holds)]
    exact ⟨usable, entries, Or.inr ⟨holds, rfl, held⟩⟩

theorem uniformChild_shows (free : CollisionFree crypto pool) (usable : Usable crypto pool tree)
    (entries : EntriesHeld crypto pool store tree) (held : ShapeHeld crypto store tree)
    (shared : tree = .empty ∨ tree.common = some entry) :
    uniformChild crypto store entry.buckets entry.perEntry (shapeDigest crypto tree) =
        .ok (viewOf crypto tree) ∧
      Shows crypto pool store (viewOf crypto tree) tree := by
  cases tree with
  | empty =>
    rw [shapeDigest, uniformChild, if_pos rfl]
    exact ⟨rfl, shows_empty usable⟩
  | node skip own zero one =>
    have shared := shared.resolve_left (by simp)
    have loaded : loadShape crypto store (shapeDigest crypto (.node skip own zero one)) =
        .ok ((shapeBodyOf crypto own zero one).node skip) :=
      verified_eq_ok_iff.mpr ⟨held.1, rfl⟩
    have body := usable.shapeBody_eq free skip (shapeDigest crypto (.node skip own zero one))
    have below : HeldBelow crypto store (.node skip own zero one) := by
      rw [HeldBelow, shared]
      exact held.2
    refine ⟨?_, usable, entries, Or.inl ⟨rfl, below⟩⟩
    rw [uniformChild, if_neg (usable.shapeDigest_ne_empty free (by simp)), loaded, viewOf, shared]
    change (do
      let body ← shapeBody crypto ((shapeBodyOf crypto own zero one).node skip) _
      _) = _
    rw [body]
    rfl

theorem split_of_skip {decoded : View} {first : Bool} {rest : Bits}
    (resolved : resolve crypto store view = .ok decoded) (skipIs : decoded.skip = first :: rest) :
    split crypto store view = .ok (if first then (emptyDigest crypto, .empty, decoded.withSkip rest)
      else (emptyDigest crypto, decoded.withSkip rest, .empty)) := by
  rw [split, resolved]
  simp only [bind, Except.bind, skipIs]
  rfl

theorem Shows.split_eq (free : CollisionFree crypto pool)
    (shown : Shows crypto pool store view tree) :
    ∃ zeroView oneView, split crypto store view = .ok (nameOf crypto tree.here, zeroView, oneView) ∧
      Shows crypto pool store zeroView (tree.child false) ∧
      Shows crypto pool store oneView (tree.child true) := by
  have zeroUsable := shown.usable.child false
  have oneUsable := shown.usable.child true
  have zeroEntries := shown.entries.child false
  have oneEntries := shown.entries.child true
  have below := shown.below
  have resolved := shown.resolve_eq free
  cases tree with
  | empty =>
    refine ⟨.empty, .empty, ?_, shows_empty zeroUsable, shows_empty oneUsable⟩
    rw [split, resolved]
    rfl
  | node skip own zero one =>
    cases skip with
    | cons first rest =>
      have down : Shows crypto pool store (viewOf crypto (.node rest own zero one))
          ((node (first :: rest) own zero one).child first) := by
        have isChild : (node (first :: rest) own zero one).child first =
            .node rest own zero one := if_pos rfl
        have usable := shown.usable.child first
        have entries := shown.entries.child first
        rw [isChild] at usable entries ⊢
        exact ⟨usable, entries, Or.inl ⟨rfl, below⟩⟩
      rw [split_of_skip resolved (viewOf_skip ..), viewOf_withSkip]
      cases first with
      | false => exact ⟨_, .empty, rfl, down, shows_empty oneUsable⟩
      | true => exact ⟨.empty, _, rfl, shows_empty zeroUsable, down⟩
    | nil =>
      rw [HeldBelow] at below
      cases shared : common (.node [] own zero one) with
      | none =>
        rw [shared] at below
        have isView : viewOf crypto (.node [] own zero one) =
            .branch [] (nameOf crypto own) (treeCounts (.node [] own zero one))
              (conflicted (.node [] own zero one)) (rootDigest crypto zero)
              (rootDigest crypto one) := by
          rw [viewOf, shared]
        rw [split, resolved, isView]
        exact ⟨_, _, rfl, shows_ofDigest free zeroUsable zeroEntries below.1,
          shows_ofDigest free oneUsable oneEntries below.2⟩
      | some entry =>
        rw [shared] at below
        have isView : viewOf crypto (.node [] own zero one) =
            .uniform [] entry.buckets entry.perEntry (shapeBodyOf crypto own zero one) := by
          rw [viewOf, shared]
        rcases common_node_eq_some shared with ⟨candidate, zeroShares, oneShares⟩
        rcases uniformChild_shows free zeroUsable zeroEntries below.1 zeroShares with
          ⟨zeroRead, zeroShown⟩
        rcases uniformChild_shows free oneUsable oneEntries below.2 oneShares with
          ⟨oneRead, oneShown⟩
        have ownName : (if own.isSome then entry.buckets else emptyDigest crypto) =
            nameOf crypto own := by
          cases own with
          | none => rfl
          | some found =>
            rw [some_or] at candidate
            cases candidate
            rfl
        refine ⟨_, _, ?_, zeroShown, oneShown⟩
        rw [split, resolved, isView]
        change (do
          let zeroView ← uniformChild crypto store entry.buckets entry.perEntry
            (shapeDigest crypto zero)
          let oneView ← uniformChild crypto store entry.buckets entry.perEntry
            (shapeDigest crypto one)
          pure (if own.isSome then entry.buckets else emptyDigest crypto, zeroView, oneView))
          = _
        have zeroRead : uniformChild crypto store entry.buckets entry.perEntry
          (shapeDigest crypto zero) = .ok _ := zeroRead
        have oneRead : uniformChild crypto store entry.buckets entry.perEntry
          (shapeDigest crypto one) = .ok _ := oneRead
        rw [zeroRead, oneRead, ownName]
        rfl

theorem Shows.prefixed_eq (free : CollisionFree crypto pool)
    (shown : Shows crypto pool store view tree) {bits : Bits}
    (usable : Usable crypto pool (tree.under bits)) :
    ∃ moved, prefixed crypto store view bits = .ok moved ∧
      Shows crypto pool store moved (tree.under bits) := by
  unfold prefixed
  cases bits with
  | nil =>
    rw [under_nil]
    exact ⟨view, if_pos (Or.inl rfl), shown⟩
  | cons bit bits =>
    cases tree with
    | empty =>
      have isEmpty : view.isEmpty = true := shown.isEmpty_eq
      exact ⟨view, if_pos (Or.inr isEmpty), shown⟩
    | node skip own zero one =>
      have notEmpty : view.isEmpty = false := shown.isEmpty_eq
      refine ⟨viewOf crypto ((node skip own zero one).under (bit :: bits)), ?_, usable,
        shown.entries.under _, Or.inl ⟨rfl, shown.below.under _⟩⟩
      rw [if_neg (by simp [notEmpty]), shown.resolve_eq free]
      change Except.ok (View.withSkip (bit :: bits ++ View.skip _) _) = _
      rw [viewOf_skip, viewOf_withSkip]
      rfl

end Reading

end Yadorilink.Namespace
