import Yadorilink.Namespace.Views

/-! What rebuilding does. Storing a view stores its tree, `mk` builds the canonical tree
of its parts, and a change at a key is the change of the tree at that key: every
operation on views is the operation of the same name on the trees they show. -/

namespace Yadorilink.Namespace

open Std List Option Patricia
open Transaction (Achieves)

section Rebuilds

variable {crypto : Crypto} {pool : Node → Prop} {store : NodeStore} {α : Type} {view : View}
  {tree : HeadsTree} {entry : Entry}

/-- Work on a store that succeeds, keeps it sound and lets it only grow. -/
abbrev Does {α : Type} (crypto : Crypto) (pool : Node → Prop) (store : NodeStore)
    (work : StoreM α) (result : α → NodeStore → Prop) : Prop :=
  Achieves (NodeStore.Sound crypto pool) NodeStore.Extends store work result

theorem Does.bind {β : Type} {work : StoreM α} {next : α → StoreM β}
    {middle : α → NodeStore → Prop} {result : β → NodeStore → Prop}
    (first : Does crypto pool store work middle)
    (second : ∀ value after, store.Extends after → after.Sound crypto pool → middle value after →
      Does crypto pool after (next value) result) : Does crypto pool store (work >>= next) result :=
  Achieves.bind (fun _ _ _ => NodeStore.Extends.trans) first second

theorem Does.pure {value : α} {result : α → NodeStore → Prop} (sound : store.Sound crypto pool)
    (shown : result value store) : Does crypto pool store (Pure.pure value) result :=
  Achieves.pure (.refl store) sound shown

theorem Does.reading {read : NodeStore → Except NamespaceError α} {value : α}
    {result : α → NodeStore → Prop} (sound : store.Sound crypto pool)
    (ran : read store = .ok value) (shown : result value store) :
    Does crypto pool store (Namespace.reading read) result := by
  refine ⟨value, store, ?_, .refl store, sound, shown⟩
  rw [Namespace.reading, ran]

theorem Does.reading_bind {β : Type} {read : NodeStore → Except NamespaceError α} {value : α}
    {next : α → StoreM β} {result : β → NodeStore → Prop} (ran : read store = .ok value)
    (rest : Does crypto pool store (next value) result) :
    Does crypto pool store (Namespace.reading read >>= next) result := by
  rcases rest with ⟨final, after, ranNext, grown, facts⟩
  refine ⟨final, after, ?_, grown, facts⟩
  rw [Transaction.bind_apply, Namespace.reading, ran]
  exact ranNext

/-! ## Storing -/

theorem Shows.storeView_does (free : CollisionFree crypto pool) (sound : store.Sound crypto pool)
    (shown : Shows crypto pool store view tree) :
    Does crypto pool store (storeView crypto view) fun digest after =>
      digest = rootDigest crypto tree ∧ Held crypto after tree := by
  rcases shown.seen with ⟨rfl, below⟩ | ⟨_, rfl, held⟩
  · cases tree with
    | empty => exact Does.pure sound ⟨rfl, trivial⟩
    | node skip own zero one =>
      have within := (shown.entries.inRange shown.usable).1
      have pooledNode := shown.usable.node_pooled.1
      rw [HeldBelow] at below
      rw [viewOf]
      cases shared : common (.node skip own zero one) with
      | none =>
        rw [shared] at below
        have isNode : nodeOf crypto skip own zero one =
            .branch skip (nameOf crypto own) (treeCounts (.node skip own zero one))
              (conflicted (.node skip own zero one)) (rootDigest crypto zero)
              (rootDigest crypto one) := by
          rw [nodeOf, nodeOver, shared]
        rcases putNode_ok free sound pooledNode with ⟨after, put, grown, kept, held⟩
        refine ⟨_, after, ?_, grown, kept, rfl, ?_⟩
        · rw [isNode] at put
          rw [rootDigest, ← nodeOf, isNode]
          exact put
        · rw [Held, shared]
          exact ⟨held, below.1.mono grown, below.2.mono grown⟩
      | some entry =>
        rw [shared] at below
        have isNode : nodeOf crypto skip own zero one =
            .uniform skip (shapeDigest crypto (.node [] own zero one)) entry.buckets
              (entry.perEntry.times (count (.node skip own zero one))) := by
          rw [nodeOf, nodeOver, shared, times_of_common shared within]
        rcases putShape_ok free sound shown.usable.node_sub.node_pooled.2 with
          ⟨middle, putRoot, grownRoot, keptRoot, heldRoot⟩
        rcases putNode_ok free keptRoot pooledNode with ⟨after, put, grown, kept, held⟩
        refine ⟨_, after, ?_, grownRoot.trans grown, kept, rfl, ?_⟩
        · rw [isNode] at put
          rw [rootDigest, ← nodeOf, isNode]
          exact Transaction.bind_eq_ok_iff.mpr ⟨_, middle, putRoot, put⟩
        · rw [Held, shared]
          exact ⟨held, grown.shapes _ _ heldRoot,
            below.1.mono (grownRoot.trans grown), below.2.mono (grownRoot.trans grown)⟩
  · exact Does.pure sound ⟨rfl, held⟩

theorem Shows.shapeOf_does (free : CollisionFree crypto pool) (sound : store.Sound crypto pool)
    (shown : Shows crypto pool store (viewOf crypto tree) tree)
    (shared : tree = .empty ∨ tree.common = some entry) :
    Does crypto pool store (shapeOf crypto (viewOf crypto tree)) fun result after =>
      result = (shapeDigest crypto tree, tree.count) ∧ ShapeHeld crypto after tree := by
  cases tree with
  | empty => exact Does.pure sound ⟨rfl, trivial⟩
  | node skip own zero one =>
    have shared := shared.resolve_left (by simp)
    have below := shown.below
    rw [HeldBelow, shared] at below
    rw [viewOf, shared]
    rcases putShape_ok free sound shown.usable.node_pooled.2 with ⟨after, put, grown, kept, held⟩
    refine ⟨_, after, ?_, grown, kept, rfl, held, below.1.mono grown, below.2.mono grown⟩
    exact Transaction.bind_eq_ok_iff.mpr ⟨_, after, put, rfl⟩

/-! ## One position -/

section Position

variable {own : Option Entry} {zero one : HeadsTree}

theorem candidateOf_eq (free : CollisionFree crypto pool)
    (ownHeld : ∀ entry, own = some entry → EntryHeld crypto pool store entry) :
    candidateOf crypto (nameOf crypto own) (viewOf crypto zero) (viewOf crypto one) =
      (own.or (zero.common.or one.common)).map Entry.buckets := by
  have named := EntriesHeld.nameOf_eq_empty_iff free ownHeld
  unfold candidateOf
  cases own with
  | some entry =>
    rw [if_pos (fun nothing => by cases named.mp nothing)]
    rfl
  | none =>
    rw [if_neg (by simp [nameOf]), viewOf_sharedBuckets, viewOf_sharedBuckets, none_or]
    cases zero.common <;> cases one.common <;> rfl

theorem fitsUniform_iff (free : CollisionFree crypto pool) (canonical : tree.Canonical)
    (entries : EntriesHeld crypto pool store tree) (held : EntryHeld crypto pool store entry) :
    fitsUniform entry.buckets (viewOf crypto tree) = true ↔
      tree = .empty ∨ tree.common = some entry := by
  rw [fitsUniform, viewOf_isEmpty, viewOf_sharedBuckets, Bool.or_eq_true, Patricia.isEmpty_iff,
    decide_eq_true_eq, Option.map_map]
  cases shared : tree.common with
  | none => simp
  | some found =>
    rcases canonical.exists_of_common shared with ⟨key, isFound⟩
    simp only [map_some, Option.some.injEq, Function.comp_apply]
    constructor
    · intro fits
      exact fits.imp_right ((entries key found isFound).eq_of_buckets free held)
    · intro fits
      exact fits.imp_right (congrArg Entry.buckets)

theorem common_node_eq (tree : HeadsTree) (isNode : tree = .node [] own zero one)
    (candidate : own.or (zero.common.or one.common) = some entry) :
    tree.common = if (zero = .empty ∨ zero.common = some entry) ∧
      (one = .empty ∨ one.common = some entry) then some entry else none := by
  rw [isNode, Patricia.common, candidate]
  simp only [Bool.and_eq_true, Bool.or_eq_true, Patricia.isEmpty_iff, decide_eq_true_eq]

theorem perEntryOf_eq (free : CollisionFree crypto pool) (held : EntryHeld crypto pool store entry)
    (zeroShares : zero = .empty ∨ zero.common = some entry)
    (oneShares : one = .empty ∨ one.common = some entry) :
    perEntryOf crypto store entry.buckets (viewOf crypto zero) (viewOf crypto one) =
      .ok entry.perEntry := by
  rw [perEntryOf, viewOf_sharedBuckets, viewOf_sharedBuckets]
  rcases zeroShares with rfl | zeroShares
  · rcases oneShares with rfl | oneShares
    · exact held.aggregates_eq free
    · rw [oneShares]
      rfl
  · rw [zeroShares]
    rfl

theorem mkUniform_does (free : CollisionFree crypto pool) (sound : store.Sound crypto pool)
    (ownHeld : ∀ entry, own = some entry → EntryHeld crypto pool store entry)
    (zeroShown : Shows crypto pool store (viewOf crypto zero) zero)
    (oneShown : Shows crypto pool store (viewOf crypto one) one)
    (usable : Usable crypto pool (.node [] own zero one))
    (entries : EntriesHeld crypto pool store (.node [] own zero one))
    (shared : Patricia.common (.node [] own zero one) = some entry) :
    Does crypto pool store
      (mkUniform crypto (nameOf crypto own) entry.buckets (viewOf crypto zero) (viewOf crypto one))
      fun view after => Shows crypto pool after view (.node [] own zero one) := by
  rcases Patricia.common_node_eq_some shared with ⟨_, zeroShares, oneShares⟩
  rcases usable.canonical.exists_of_common shared with ⟨key, found⟩
  refine Does.reading_bind (perEntryOf_eq free (entries key entry found) zeroShares oneShares) ?_
  refine Does.bind (zeroShown.shapeOf_does free sound zeroShares) ?_
  rintro _ afterZero grownZero soundZero ⟨zeroIs, zeroHeld⟩
  subst zeroIs
  refine Does.bind ((oneShown.mono grownZero).shapeOf_does free soundZero oneShares) ?_
  rintro _ afterOne grownOne soundOne ⟨oneIs, oneHeld⟩
  subst oneIs
  have counted := (entries.inRange usable).2
  have hasOwn : decide (nameOf crypto own ≠ emptyDigest crypto) = own.isSome := by
    have named := EntriesHeld.nameOf_eq_empty_iff free ownHeld
    cases own with
    | none => simp [nameOf]
    | some entry => simpa using named
  have countIs : saturatingAdd (saturatingAdd own.isSome.toNat zero.count) one.count =
      Patricia.count (.node [] own zero one) := by
    simp only [Patricia.count] at counted ⊢
    rw [saturatingAdd, saturatingAdd]
    omega
  refine Does.pure soundOne ⟨usable, entries.mono (grownZero.trans grownOne), Or.inl ⟨?_, ?_⟩⟩
  · rw [viewOf, shared]
    simp only [hasOwn, countIs]
    rfl
  · rw [HeldBelow, shared]
    exact ⟨zeroHeld.mono grownOne, oneHeld⟩

theorem treeCounts_node (skip : Bits) (own : Option Entry) (zero one : HeadsTree) :
    treeCounts (.node skip own zero one) =
      ((own.elim .zero Entry.perEntry).add (treeCounts zero)).add (treeCounts one) := by
  cases own <;> rfl

theorem mkBranch_does (free : CollisionFree crypto pool) (sound : store.Sound crypto pool)
    (ownHeld : ∀ entry, own = some entry → EntryHeld crypto pool store entry)
    {zeroView oneView : View} (zeroShown : Shows crypto pool store zeroView zero)
    (oneShown : Shows crypto pool store oneView one)
    (usable : Usable crypto pool (.node [] own zero one))
    (entries : EntriesHeld crypto pool store (.node [] own zero one))
    (unshared : Patricia.common (.node [] own zero one) = none) :
    Does crypto pool store
      (mkBranch crypto (nameOf crypto own) zeroView oneView (viewOf crypto zero)
        (viewOf crypto one))
      fun view after => Shows crypto pool after view (.node [] own zero one) := by
  have ownCounts : aggregates crypto store (nameOf crypto own) =
      .ok (own.elim .zero Entry.perEntry) := by
    cases own with
    | none => rw [nameOf, map_none, getD_none, aggregates, if_pos rfl]; rfl
    | some entry => exact (ownHeld entry rfl).aggregates_eq free
  refine Does.reading_bind ownCounts ?_
  refine Does.bind (zeroShown.storeView_does free sound) ?_
  rintro zeroDigest afterZero grownZero soundZero ⟨zeroIs, zeroHeld⟩
  subst zeroIs
  refine Does.bind ((oneShown.mono grownZero).storeView_does free soundZero) ?_
  rintro oneDigest afterOne grownOne soundOne ⟨oneIs, oneHeld⟩
  subst oneIs
  have within := (entries.inRange usable).1
  have sums := treeCounts_node [] own zero one
  rw [sums] at within
  rcases HeadAggregates.inRange_of_add within with ⟨firstWithin, oneWithin⟩
  have zeroWithin := (HeadAggregates.inRange_of_add firstWithin).2
  have conflictIs : (decide (1 < (own.elim HeadAggregates.zero Entry.perEntry).headCount) ||
      conflicted zero || conflicted one) = conflicted (.node [] own zero one) := by
    cases own <;> rfl
  refine Does.pure soundOne ⟨usable, entries.mono (grownZero.trans grownOne), Or.inl ⟨?_, ?_⟩⟩
  · rw [viewOf, unshared, viewOf_aggregates zeroWithin, viewOf_aggregates oneWithin,
      HeadAggregates.plus_eq_add firstWithin, HeadAggregates.plus_eq_add within, ← sums,
      viewOf_conflict zeroShown.usable.canonical, viewOf_conflict oneShown.usable.canonical,
      conflictIs]
  · rw [HeldBelow, unshared]
    exact ⟨zeroHeld.mono grownOne, oneHeld⟩

theorem mkNode_does (free : CollisionFree crypto pool) (sound : store.Sound crypto pool)
    (ownHeld : ∀ entry, own = some entry → EntryHeld crypto pool store entry)
    {zeroView oneView : View} (zeroShown : Shows crypto pool store zeroView zero)
    (oneShown : Shows crypto pool store oneView one)
    (usable : Usable crypto pool (.node [] own zero one))
    (entries : EntriesHeld crypto pool store (.node [] own zero one)) :
    Does crypto pool store
      (mkNode crypto (nameOf crypto own) zeroView oneView (viewOf crypto zero) (viewOf crypto one))
      fun view after => Shows crypto pool after view (.node [] own zero one) := by
  rw [mkNode, candidateOf_eq free ownHeld]
  cases candidate : own.or (zero.common.or one.common) with
  | none =>
    have unshared : common (.node [] own zero one) = none := by
      rw [common, candidate]
      simp
    exact mkBranch_does free sound ownHeld zeroShown oneShown usable entries unshared
  | some entry =>
    have held : EntryHeld crypto pool store entry := by
      cases own with
      | some found =>
        cases candidate
        exact ownHeld entry rfl
      | none =>
        rw [none_or] at candidate
        cases zeroShared : zero.common with
        | some found =>
          rw [zeroShared] at candidate
          cases candidate
          rcases zeroShown.usable.canonical.exists_of_common zeroShared with ⟨key, isFound⟩
          exact zeroShown.entries key entry isFound
        | none =>
          rw [zeroShared, none_or] at candidate
          rcases oneShown.usable.canonical.exists_of_common candidate with ⟨key, isFound⟩
          exact oneShown.entries key entry isFound
    have shares := common_node_eq (.node [] own zero one) rfl candidate
    have fitsZero := fitsUniform_iff free zeroShown.usable.canonical zeroShown.entries held
    have fitsOne := fitsUniform_iff free oneShown.usable.canonical oneShown.entries held
    change Does crypto pool store (if _ then _ else _) _
    by_cases fits : (zero = .empty ∨ zero.common = some entry) ∧
        (one = .empty ∨ one.common = some entry)
    · rw [if_pos fits] at shares
      rw [if_pos (Bool.and_eq_true_iff.mpr ⟨fitsZero.mpr fits.1, fitsOne.mpr fits.2⟩)]
      exact mkUniform_does free sound ownHeld zeroShown.resolved oneShown.resolved usable entries
        shares
    · rw [if_neg fits] at shares
      have misfit : ¬(fitsUniform entry.buckets (viewOf crypto zero) &&
          fitsUniform entry.buckets (viewOf crypto one)) = true := by
        rw [Bool.and_eq_true_iff, fitsZero, fitsOne]
        exact fits
      rw [if_neg misfit]
      exact mkBranch_does free sound ownHeld zeroShown oneShown usable entries shares

theorem mk_does (free : CollisionFree crypto pool) (sound : store.Sound crypto pool)
    (ownHeld : ∀ entry, own = some entry → EntryHeld crypto pool store entry)
    {zeroView oneView : View} (zeroShown : Shows crypto pool store zeroView zero)
    (oneShown : Shows crypto pool store oneView one)
    (usable : Usable crypto pool (Patricia.mk own zero one)) :
    Does crypto pool store (mk crypto (nameOf crypto own) zeroView oneView)
      fun view after => Shows crypto pool after view (Patricia.mk own zero one) := by
  have entries : EntriesHeld crypto pool store (Patricia.mk own zero one) :=
    EntriesHeld.mk ownHeld zeroShown.entries oneShown.entries
  refine Does.reading_bind (zeroShown.resolve_eq free) ?_
  refine Does.reading_bind (oneShown.resolve_eq free) ?_
  rw [viewOf_isEmpty, viewOf_isEmpty]
  have noName : decide (nameOf crypto (none : Option Entry) ≠ emptyDigest crypto) = false := by
    simp [nameOf]
  cases own with
  | some entry =>
    have hasName : decide (nameOf crypto (some entry) ≠ emptyDigest crypto) = true := by
      have named := EntriesHeld.nameOf_eq_empty_iff free ownHeld
      simpa using named
    rw [mk_some] at usable entries ⊢
    rw [hasName]
    exact mkNode_does free sound ownHeld zeroShown oneShown usable entries
  | none =>
    rw [noName]
    cases zero with
    | empty =>
      cases one with
      | empty => exact Does.pure sound (shows_empty usable)
      | node skip own zero one =>
        rw [mk_none_empty] at usable ⊢
        rcases oneShown.resolved.prefixed_eq free usable with ⟨moved, ran, shown⟩
        exact Does.reading sound ran shown
    | node skip own zero one' =>
      cases one with
      | empty =>
        rw [mk_none_empty_right] at usable ⊢
        rcases zeroShown.resolved.prefixed_eq free usable with ⟨moved, ran, shown⟩
        exact Does.reading sound ran shown
      | node oneSkip oneOwn oneZero oneOne =>
        exact mkNode_does free sound ownHeld zeroShown oneShown usable entries

end Position

/-! ## One key -/

theorem commonPrefix_cases (skip key : Bits) :
    (∃ rest, key = skip ++ rest ∧ commonPrefix skip key = skip.length) ∨
    (∃ rest, rest ≠ [] ∧ skip = key ++ rest ∧ commonPrefix skip key = key.length) ∨
    ∃ shared bit skipRest keyRest, skip = shared ++ bit :: skipRest ∧
      key = shared ++ (!bit) :: keyRest ∧ commonPrefix skip key = shared.length := by
  induction skip generalizing key with
  | nil => exact Or.inl ⟨key, rfl, rfl⟩
  | cons bit skip induction =>
    cases key with
    | nil => exact Or.inr (Or.inl ⟨bit :: skip, by simp, rfl, rfl⟩)
    | cons keyBit key =>
      by_cases same : bit = keyBit
      · subst same
        rw [commonPrefix, if_pos rfl]
        rcases induction key with ⟨rest, rfl, counted⟩ | ⟨rest, holds, rfl, counted⟩ |
          ⟨shared, fork, skipRest, keyRest, rfl, rfl, counted⟩
        · exact Or.inl ⟨rest, rfl, by rw [counted, length_cons]⟩
        · exact Or.inr (Or.inl ⟨rest, holds, rfl, by rw [counted, length_cons]⟩)
        · exact Or.inr (Or.inr ⟨bit :: shared, fork, skipRest, keyRest, rfl, rfl,
            by rw [counted, length_cons]⟩)
      · have opposite : keyBit = !bit := by
          cases bit <;> cases keyBit <;> simp_all
        subst opposite
        rw [commonPrefix, if_neg same]
        exact Or.inr (Or.inr ⟨[], bit, skip, key, rfl, rfl, rfl⟩)

theorem node_append_eq_under (bits skip : Bits) (own : Option Entry) (zero one : HeadsTree) :
    (Patricia.node (bits ++ skip) own zero one) = (Patricia.node skip own zero one).under bits :=
  rfl

theorem Shows.cut {bits skip : Bits} {own : Option Entry} {zero one : HeadsTree}
    (shown : Shows crypto pool store view (.node (bits ++ skip) own zero one)) :
    Shows crypto pool store (viewOf crypto (.node skip own zero one)) (.node skip own zero one) := by
  refine ⟨?_, ?_, Or.inl ⟨rfl, shown.below⟩⟩
  · have usable := shown.usable.sub bits
    rwa [node_append_eq_under, sub_under] at usable
  · intro key entry found
    refine shown.entries (bits ++ key) entry ?_
    rw [node_append_eq_under]
    exact get_under_eq_some_iff.mpr ⟨key, rfl, found⟩

theorem Shows.sub_eq (free : CollisionFree crypto pool)
    (shown : Shows crypto pool store view tree) {turns : Nat} {key : Bits}
    (enough : key.length ≤ turns) :
    ∃ found, sub crypto store turns view key = .ok found ∧
      Shows crypto pool store found (tree.sub key) := by
  induction turns generalizing view tree key with
  | zero =>
    have nothing : key = [] := length_eq_zero_iff.mp (Nat.le_zero.mp enough)
    subst nothing
    exact ⟨view, by rw [sub], shown⟩
  | succ turns induction =>
    cases key with
    | nil => exact ⟨view, by rw [sub], shown⟩
    | cons bit rest =>
      rw [sub, shown.resolve_eq free]
      cases tree with
      | empty =>
        refine ⟨.empty, rfl, ?_⟩
        rw [Patricia.sub_empty]
        exact shows_empty shown.usable
      | node skip own zero one =>
        change ∃ found, (if (viewOf crypto (.node skip own zero one)).isEmpty = true then _
          else _) = _ ∧ _
        rw [viewOf_isEmpty, if_neg (by simp [Patricia.isEmpty])]
        cases skip with
        | nil =>
          rcases shown.resolved.split_eq free with ⟨zeroView, oneView, parts, zeroShown,
            oneShown⟩
          rw [viewOf_skip, parts]
          have shorter : rest.length ≤ turns := Nat.le_of_succ_le_succ enough
          cases bit
          · exact induction zeroShown shorter
          · exact induction oneShown shorter
        | cons first others =>
          rw [viewOf_skip]
          simp only [viewOf_withSkip]
          rcases commonPrefix_cases (first :: others) (bit :: rest) with
            ⟨left, keyIs, counted⟩ | ⟨left, holds, skipIs, counted⟩ |
            ⟨shared, fork, skipRest, keyRest, skipIs, keyIs, counted⟩
          · have cut : (Patricia.node (first :: others) own zero one).sub (bit :: rest) =
                (Patricia.node [] own zero one).sub left := by
              rw [keyIs, Patricia.sub_append, ← append_nil (first :: others),
                node_append_eq_under, append_nil, Patricia.sub_under]
            rw [← append_nil (first :: others)] at shown
            have lengths := congrArg List.length keyIs
            rw [length_append] at lengths
            rw [counted, cut]
            by_cases ends : left = []
            · subst ends
              rw [if_pos (by rw [keyIs, append_nil]), drop_length]
              exact ⟨_, rfl, shown.cut⟩
            · have longer := length_pos_iff.mpr ends
              rw [if_neg (by omega), if_neg (by omega), keyIs, drop_left]
              apply induction shown.cut
              simp only [length_cons] at lengths enough
              omega
          · have cut : (Patricia.node (first :: others) own zero one).sub (bit :: rest) =
                .node left own zero one := by
              rw [skipIs, node_append_eq_under, Patricia.sub_under]
            rw [counted, if_pos rfl, cut, skipIs, drop_left]
            rw [skipIs] at shown
            exact ⟨_, rfl, shown.cut⟩
          · have leaves : (Patricia.node (fork :: skipRest) own zero one).child (!fork) =
                .empty := if_neg (by cases fork <;> simp)
            have cut : (Patricia.node (first :: others) own zero one).sub (bit :: rest) =
                .empty := by
              rw [keyIs, skipIs, Patricia.sub_append, node_append_eq_under,
                Patricia.sub_under, Patricia.sub_cons, leaves, Patricia.sub_empty]
            rw [counted, if_neg (by rw [keyIs]; simp), if_pos (by rw [skipIs]; simp), cut]
            exact ⟨.empty, rfl, shows_empty (cut ▸ shown.usable.sub _)⟩

theorem Does.prefixed (free : CollisionFree crypto pool) {work : StoreM View} {bits : Bits}
    (does : Does crypto pool store work fun result after => Shows crypto pool after result tree)
    (usable : Usable crypto pool (tree.under bits)) :
    Does crypto pool store
      (work >>= fun placed => Namespace.reading fun store =>
        Namespace.prefixed crypto store placed bits)
      fun result after => Shows crypto pool after result (tree.under bits) := by
  refine Does.bind does ?_
  intro result after _ soundAfter placed
  rcases placed.prefixed_eq free usable with ⟨moved, ran, movedShown⟩
  exact Does.reading soundAfter ran movedShown

theorem Shows.atPrefix_does (free : CollisionFree crypto pool) {change : View → StoreM View}
    {rebuild : HeadsTree → HeadsTree}
    (changes : ∀ later view tree, store.Extends later → later.Sound crypto pool →
      Shows crypto pool later view tree → Usable crypto pool (rebuild tree) →
      Does crypto pool later (change view)
        fun result after => Shows crypto pool after result (rebuild tree))
    (sound : store.Sound crypto pool) (shown : Shows crypto pool store view tree) {turns : Nat}
    {key : Bits} (enough : key.length ≤ turns)
    (usable : Usable crypto pool (tree.modify rebuild key)) :
    Does crypto pool store (atPrefix crypto change turns view key)
      fun result after => Shows crypto pool after result (tree.modify rebuild key) := by
  induction turns generalizing store view tree key with
  | zero =>
    have nothing : key = [] := length_eq_zero_iff.mp (Nat.le_zero.mp enough)
    subst nothing
    rw [atPrefix]
    exact changes store view tree (.refl store) sound shown usable
  | succ turns induction =>
    have fromEmpty : ∀ {bits : Bits}, Usable crypto pool ((rebuild .empty).under bits) →
        Usable crypto pool (.empty : HeadsTree) →
        Does crypto pool store (change .empty)
          fun result after => Shows crypto pool after result (rebuild .empty) := by
      intro bits moved emptyUsable
      have usable := moved.sub bits
      rw [Patricia.sub_under] at usable
      exact changes store .empty .empty (.refl store) sound (shows_empty emptyUsable) usable
    cases key with
    | nil =>
      rw [atPrefix]
      exact changes store view tree (.refl store) sound shown usable
    | cons bit rest =>
      rw [atPrefix]
      refine Does.reading_bind (shown.resolve_eq free) ?_
      cases tree with
      | empty =>
        rw [Patricia.modify_empty] at usable ⊢
        exact Does.prefixed free (fromEmpty usable shown.usable) usable
      | node skip own zero one =>
        rw [viewOf_isEmpty, if_neg (by simp [Patricia.isEmpty])]
        cases skip with
        | nil =>
          rcases shown.resolved.split_eq free with ⟨zeroView, oneView, parts, zeroShown,
            oneShown⟩
          have ownHeld : ∀ entry, own = some entry → EntryHeld crypto pool store entry :=
            fun entry isOwn => shown.entries [] entry isOwn
          rw [viewOf_skip]
          refine Does.reading_bind parts ?_
          have shorter : rest.length ≤ turns := Nat.le_of_succ_le_succ enough
          cases bit with
          | true =>
            have below := usable.child true
            rw [Patricia.modify, Patricia.child_mk, if_pos rfl] at below
            refine Does.bind (induction changes sound oneShown shorter below) ?_
            intro result after grown soundAfter placed
            exact mk_does free soundAfter
              (fun entry isOwn => (ownHeld entry isOwn).mono grown)
              (zeroShown.mono grown) placed usable
          | false =>
            have below := usable.child false
            rw [Patricia.modify, Patricia.child_mk, if_neg (by simp)] at below
            refine Does.bind (induction changes sound zeroShown shorter below) ?_
            intro result after grown soundAfter placed
            exact mk_does free soundAfter
              (fun entry isOwn => (ownHeld entry isOwn).mono grown)
              placed (oneShown.mono grown) usable
        | cons first others =>
          rw [viewOf_skip]
          simp only [viewOf_withSkip]
          rcases commonPrefix_cases (first :: others) (bit :: rest) with
            ⟨left, keyIs, counted⟩ | ⟨left, holds, skipIs, counted⟩ |
            ⟨shared, fork, skipRest, keyRest, skipIs, keyIs, counted⟩
          · -- The key runs through the node's position.
            have modified : (Patricia.node (first :: others) own zero one).modify rebuild
                (bit :: rest) =
                ((Patricia.node [] own zero one).modify rebuild left).under
                  (first :: others) := by
              have step := Patricia.modify_skip rebuild (first :: others) [] left own zero
                one
              rw [append_nil] at step
              rw [keyIs, step]
            have dropped : (bit :: rest).drop (first :: others).length = left := by
              rw [keyIs, drop_left]
            have lengths := congrArg List.length keyIs
            simp only [length_append, length_cons] at lengths enough
            rw [modified] at usable ⊢
            rw [counted, if_pos rfl, dropped]
            have below := usable.sub (first :: others)
            rw [Patricia.sub_under] at below
            rw [← append_nil (first :: others)] at shown
            exact Does.prefixed free (induction changes sound shown.cut (by omega) below) usable
          · -- The key ends inside the node's skip.
            have modified : (Patricia.node (first :: others) own zero one).modify rebuild
                (bit :: rest) =
                (rebuild (.node left own zero one)).under (bit :: rest) := by
              have step := Patricia.modify_skip rebuild (bit :: rest) left [] own zero one
              rw [append_nil] at step
              rw [skipIs, step]
              rfl
            have dropped : (first :: others).drop (bit :: rest).length = left := by
              rw [skipIs, drop_left]
            have longer := length_pos_iff.mpr holds
            have lengths := congrArg List.length skipIs
            rw [length_append] at lengths
            rw [modified] at usable ⊢
            rw [counted, if_neg (by omega), if_pos rfl, dropped]
            have below := usable.sub (bit :: rest)
            rw [Patricia.sub_under] at below
            rw [skipIs] at shown
            exact Does.prefixed free (changes store _ _ (.refl store) sound shown.cut below) usable
          · -- The key leaves the node's skip, so that a fork of the two is left.
            have modified : (Patricia.node (first :: others) own zero one).modify rebuild
                (bit :: rest) =
                (Patricia.mk none
                  (if fork then (rebuild .empty).under keyRest
                    else .node skipRest own zero one)
                  (if fork then .node skipRest own zero one
                    else (rebuild .empty).under keyRest)).under shared := by
              rw [skipIs, keyIs, Patricia.modify_skip, Patricia.modify_fork]
            have forkUsable := usable
            rw [modified] at forkUsable
            have below := forkUsable.sub shared
            rw [Patricia.sub_under] at below
            have placedUsable : Usable crypto pool ((rebuild .empty).under keyRest) := by
              have side := below.child (!fork)
              rw [Patricia.child_mk] at side
              cases fork <;> exact side
            have emptyUsable : Usable crypto pool (.empty : HeadsTree) := by
              have side := shown.usable.sub (shared ++ [!fork])
              rw [skipIs, Patricia.sub_append, node_append_eq_under, Patricia.sub_under]
                at side
              cases fork <;> exact side
            have rests : (bit :: rest).drop (shared.length + 1) = keyRest ∧
                (first :: others).drop (shared.length + 1) = skipRest ∧
                (first :: others).getD shared.length false = fork ∧
                (first :: others).take shared.length = shared := by
              rw [keyIs, skipIs]
              simp
            rw [counted, if_neg (by rw [skipIs]; simp), if_neg (by rw [keyIs]; simp),
              rests.1, rests.2.1, rests.2.2.1, rests.2.2.2]
            refine Does.bind (fromEmpty placedUsable emptyUsable) ?_
            intro result after grown soundAfter placed
            by_cases nothing : rebuild .empty = .empty
            · have isEmpty : result.isEmpty = true := by
                rw [placed.isEmpty_eq, nothing]
                rfl
              have unchanged : (Patricia.node (first :: others) own zero one).modify rebuild
                  (bit :: rest) = .node (first :: others) own zero one := by
                rw [modified, nothing, skipIs]
                cases fork <;> rfl
              rw [if_pos isEmpty, unchanged]
              exact Does.pure soundAfter (shown.resolved.mono grown)
            · have notEmpty : result.isEmpty = false := by
                rw [placed.isEmpty_eq]
                cases placedTree : rebuild .empty with
                | empty => exact absurd placedTree nothing
                | node skip own zero one => rfl
              rw [if_neg (by simp [notEmpty])]
              rcases placed.prefixed_eq free placedUsable with ⟨moved, ran, movedShown⟩
              refine Does.reading_bind ran ?_
              have existing : Shows crypto pool after
                  (viewOf crypto (.node skipRest own zero one))
                  (.node skipRest own zero one) := by
                have skipIs : first :: others = (shared ++ [fork]) ++ skipRest := by
                  rw [skipIs, append_assoc]
                  rfl
                rw [skipIs] at shown
                exact (shown.mono grown).cut
              have forked := @mk_does crypto pool after none
                (if fork then (rebuild .empty).under keyRest
                  else .node skipRest own zero one)
                (if fork then .node skipRest own zero one
                  else (rebuild .empty).under keyRest)
                free soundAfter (fun entry isOwn => by cases isOwn)
                (if fork then moved else viewOf crypto (.node skipRest own zero one))
                (if fork then viewOf crypto (.node skipRest own zero one) else moved)
                (by cases fork; exact existing; exact movedShown)
                (by cases fork; exact movedShown; exact existing) below
              rw [modified]
              exact Does.prefixed free forked forkUsable

end Rebuilds

end Yadorilink.Namespace
