import Yadorilink.Namespace.Patches

/-! The difference of two namespaces is the difference of their maps: one entry for each
path whose heads differ, in ascending order of the paths' bytes. The walk goes down two
differently compressed tries together and turns back where digests agree. -/

namespace Yadorilink.Namespace

open Std Patricia List

variable {bits position : Bits}

/-! ## The order of keys -/

def bitsValue : Bits → Nat
  | [] => 0
  | bit :: rest => bit.toNat * 2 ^ rest.length + bitsValue rest

theorem bitsValue_lt (bits : Bits) : bitsValue bits < 2 ^ bits.length := by
  induction bits with
  | nil => exact Nat.one_pos
  | cons bit rest induction =>
    rw [bitsValue, length_cons, Nat.pow_succ]
    cases bit
    · simp only [Bool.toNat_false]
      omega
    · simp only [Bool.toNat_true]
      omega

theorem compare_append_of_length (first second firstRest secondRest : Bits)
    (same : first.length = second.length) :
    compare (first ++ firstRest) (second ++ secondRest) =
      (compare (bitsValue first) (bitsValue second)).then (compare firstRest secondRest) := by
  induction first generalizing second with
  | nil =>
    rw [length_eq_zero_iff.mp same.symm]
    rfl
  | cons bit rest induction =>
    cases second with
    | nil => cases same
    | cons otherBit others =>
      have lengths : rest.length = others.length := Nat.succ.inj same
      have restSmall := bitsValue_lt rest
      have othersSmall := bitsValue_lt others
      rw [lengths] at restSmall
      rw [List.cons_append, List.cons_append, List.compare_cons_cons, induction others lengths,
        bitsValue, bitsValue, lengths]
      by_cases equal : bit = otherBit
      · subst equal
        have shifted : compare (bit.toNat * 2 ^ others.length + bitsValue rest)
            (bit.toNat * 2 ^ others.length + bitsValue others) =
            compare (bitsValue rest) (bitsValue others) := by
          rcases Nat.lt_trichotomy (bitsValue rest) (bitsValue others) with less | same | more
          · rw [Nat.compare_eq_lt.mpr less, Nat.compare_eq_lt.mpr (by omega)]
          · rw [same, Nat.compare_eq_eq.mpr rfl, Nat.compare_eq_eq.mpr rfl]
          · rw [Nat.compare_eq_gt.mpr more, Nat.compare_eq_gt.mpr (by omega)]
        rw [shifted]
        cases bit <;> rfl
      · cases bit with
        | false =>
          cases otherBit with
          | false => exact absurd rfl equal
          | true =>
            have less : compare (false.toNat * 2 ^ others.length + bitsValue rest)
                (true.toNat * 2 ^ others.length + bitsValue others) = .lt := by
              rw [Nat.compare_eq_lt]
              simp only [Bool.toNat_false, Bool.toNat_true]
              omega
            rw [less]
            rfl
        | true =>
          cases otherBit with
          | true => exact absurd rfl equal
          | false =>
            have more : compare (true.toNat * 2 ^ others.length + bitsValue rest)
                (false.toNat * 2 ^ others.length + bitsValue others) = .gt := by
              rw [Nat.compare_eq_gt]
              simp only [Bool.toNat_false, Bool.toNat_true]
              omega
            rw [more]
            rfl

set_option maxRecDepth 8192 in
theorem bitsValue_byteBits (byte : UInt8) : bitsValue (byteBits byte) = byte.toNat := by
  have each : ∀ value : Fin 256, bitsValue (byteBits (UInt8.ofNat value.val)) = value.val := by
    with_unfolding_all decide
  have same := each ⟨byte.toNat, byte.toNat_lt⟩
  rwa [UInt8.ofNat_toNat] at same

theorem compare_bitsOfBytes (first second : List UInt8) :
    compare (bitsOfBytes first) (bitsOfBytes second) = compare first second := by
  induction first generalizing second with
  | nil =>
    cases second with
    | nil => rfl
    | cons byte rest =>
      rcases byteBits_eq byte with ⟨b₀, b₁, b₂, b₃, b₄, b₅, b₆, b₇, bits⟩
      rw [bitsOfBytes, bitsOfBytes, flatMap_cons, bits]
      rfl
  | cons byte rest induction =>
    cases second with
    | nil =>
      rcases byteBits_eq byte with ⟨b₀, b₁, b₂, b₃, b₄, b₅, b₆, b₇, bits⟩
      rw [bitsOfBytes, bitsOfBytes, flatMap_cons, bits]
      rfl
    | cons other others =>
      have lengths : (byteBits byte).length = (byteBits other).length := rfl
      have here : compare byte other = compare byte.toNat other.toNat := by
        rw [UInt8.compare_eq_toNat_compare_toNat]
      rw [bitsOfBytes, bitsOfBytes, flatMap_cons, flatMap_cons, ← bitsOfBytes,
        ← bitsOfBytes, compare_append_of_length _ _ _ _ lengths, induction, bitsValue_byteBits,
        bitsValue_byteBits, List.compare_cons_cons, here]

/-! ## Walking two trees together -/

section Align

variable {crypto : Crypto} {pool : Node → Prop} {store : NodeStore} {leftView rightView : View}
  {left right : HeadsTree}

/-- Both trees lie below the bits they are descended by. -/
structure Descends (left right : HeadsTree) (bits : Bits) : Prop where
  some : bits ≠ []
  left : left = (left.sub bits).under bits
  right : right = (right.sub bits).under bits

theorem exists_descent (left right : HeadsTree) (bits : Bits)
    (bitsIs : bits = if (viewOf crypto left).isEmpty then (viewOf crypto right).skip
      else if (viewOf crypto right).isEmpty then (viewOf crypto left).skip
      else (viewOf crypto left).skip.take
        (commonPrefix (viewOf crypto left).skip (viewOf crypto right).skip)) :
    left = (left.sub bits).under bits ∧ right = (right.sub bits).under bits := by
  have cut : ∀ (bits skip : Bits) (own : Option Entry) (zero one : HeadsTree),
      node (bits ++ skip) own zero one =
        ((node (bits ++ skip) own zero one).sub bits).under bits := by
    intro bits skip own zero one
    rw [node_append_eq_under, sub_under]
  have whole : ∀ (skip : Bits) (own : Option Entry) (zero one : HeadsTree),
      node skip own zero one =
        ((node skip own zero one).sub skip).under skip := by
    intro skip own zero one
    have moved := cut skip [] own zero one
    rwa [append_nil] at moved
  have nothing : ∀ bits : Bits, (empty : HeadsTree) =
      ((empty : HeadsTree).sub bits).under bits := by
    intro bits
    rw [sub_empty, under_empty]
  rw [viewOf_isEmpty, viewOf_isEmpty] at bitsIs
  cases left with
  | empty =>
    cases right with
    | empty => exact ⟨nothing bits, nothing bits⟩
    | node skip own zero one =>
      have isSkip : bits = skip := bitsIs.trans (viewOf_skip ..)
      subst isSkip
      exact ⟨nothing bits, whole bits own zero one⟩
  | node skip own zero one =>
    cases right with
    | empty =>
      have isSkip : bits = skip := bitsIs.trans (viewOf_skip ..)
      subst isSkip
      exact ⟨whole bits own zero one, nothing bits⟩
    | node otherSkip otherOwn otherZero otherOne =>
      rw [viewOf_skip, viewOf_skip] at bitsIs
      have isTaken : bits = skip.take (commonPrefix skip otherSkip) := bitsIs
      rcases commonPrefix_cases skip otherSkip with ⟨rest, rfl, counted⟩ |
        ⟨rest, _, rfl, counted⟩ | ⟨shared, fork, skipRest, otherRest, rfl, rfl, counted⟩
      · rw [counted, take_length] at isTaken
        subst isTaken
        exact ⟨whole .., cut ..⟩
      · rw [counted, take_left] at isTaken
        subst isTaken
        exact ⟨cut .., whole ..⟩
      · rw [counted, take_left] at isTaken
        subst isTaken
        exact ⟨cut .., cut ..⟩

theorem Shows.descend {view : View} {tree : HeadsTree}
    (shown : Shows crypto pool store view tree) (below : tree = (tree.sub bits).under bits) :
    Shows crypto pool store ((viewOf crypto tree).withSkip ((viewOf crypto tree).skip.drop bits.length))
      (tree.sub bits) := by
  have usable := shown.usable.sub bits
  cases cut : tree.sub bits with
  | empty =>
    rw [cut] at below usable
    rw [below]
    exact shows_empty usable
  | node skip own zero one =>
    rw [cut] at below
    have isNode : tree = .node (bits ++ skip) own zero one := below
    rw [isNode] at shown ⊢
    rw [viewOf_skip, drop_left, viewOf_withSkip]
    exact shown.cut

theorem align_cases (free : CollisionFree crypto pool)
    (leftShown : Shows crypto pool store leftView left)
    (rightShown : Shows crypto pool store rightView right) :
    (∃ bits leftBelow rightBelow, Descends left right bits ∧
      align crypto store leftView rightView = .ok (.shared bits leftBelow rightBelow) ∧
      Shows crypto pool store leftBelow (left.sub bits) ∧
      Shows crypto pool store rightBelow (right.sub bits)) ∨
    ∃ leftZero leftOne rightZero rightOne, align crypto store leftView rightView = .ok (.split
        (nameOf crypto left.here, leftZero, leftOne)
        (nameOf crypto right.here, rightZero, rightOne)) ∧
      Shows crypto pool store leftZero (left.child false) ∧
      Shows crypto pool store leftOne (left.child true) ∧
      Shows crypto pool store rightZero (right.child false) ∧
      Shows crypto pool store rightOne (right.child true) := by
  let bits := if (viewOf crypto left).isEmpty then (viewOf crypto right).skip
    else if (viewOf crypto right).isEmpty then (viewOf crypto left).skip
    else (viewOf crypto left).skip.take
      (commonPrefix (viewOf crypto left).skip (viewOf crypto right).skip)
  rcases exists_descent left right bits rfl with ⟨leftBelow, rightBelow⟩
  have unfolded : align crypto store leftView rightView =
      (if bits.isEmpty then do
        let leftParts ← split crypto store (viewOf crypto left)
        let rightParts ← split crypto store (viewOf crypto right)
        return .split leftParts rightParts
      else
        return .shared bits
          ((viewOf crypto left).withSkip ((viewOf crypto left).skip.drop bits.length))
          ((viewOf crypto right).withSkip ((viewOf crypto right).skip.drop bits.length))) := by
    rw [align, leftShown.resolve_eq free]
    change (do
      let right ← resolve crypto store rightView
      _) = _
    rw [rightShown.resolve_eq free]
    rfl
  by_cases nothing : bits = []
  · right
    rcases leftShown.resolved.split_eq free with ⟨leftZero, leftOne, leftParts, zeroShown, oneShown⟩
    rcases rightShown.resolved.split_eq free with
      ⟨rightZero, rightOne, rightParts, rightZeroShown, rightOneShown⟩
    refine ⟨leftZero, leftOne, rightZero, rightOne, ?_, zeroShown, oneShown, rightZeroShown,
      rightOneShown⟩
    rw [unfolded, if_pos (by simp [nothing]), leftParts]
    change (do
      let rightParts ← split crypto store (viewOf crypto right)
      _) = _
    rw [rightParts]
    rfl
  · left
    exact ⟨bits, _, _, ⟨nothing, leftBelow, rightBelow⟩,
      by rw [unfolded, if_neg (by simpa using nothing)]; rfl,
      leftShown.descend leftBelow, rightShown.descend rightBelow⟩

theorem Descends.weight_lt (descends : Descends left right bits)
    (holds : left ≠ .empty ∨ right ≠ .empty) :
    (left.sub bits).weight + (right.sub bits).weight < left.weight + right.weight := by
  have longer : 0 < bits.length := length_pos_iff.mpr descends.some
  have shrinks : ∀ {tree : HeadsTree}, tree = (tree.sub bits).under bits →
      (tree ≠ .empty → (tree.sub bits).weight < tree.weight) ∧
        (tree.sub bits).weight ≤ tree.weight := by
    intro tree below
    by_cases nothing : tree.sub bits = .empty
    · rw [nothing] at below ⊢
      rw [below]
      exact ⟨fun notEmpty => absurd rfl notEmpty, Nat.le_refl _⟩
    · have heavier := weight_under nothing bits
      rw [← below] at heavier
      exact ⟨fun _ => by omega, by omega⟩
  rcases shrinks descends.left with ⟨leftShrinks, leftBound⟩
  rcases shrinks descends.right with ⟨rightShrinks, rightBound⟩
  rcases holds with holds | holds
  · have less := leftShrinks holds
    omega
  · have less := rightShrinks holds
    omega

end Align

/-! ## The differences of two trees -/

section Differences

variable {crypto : Crypto} {pool : Node → Prop} {store : NodeStore} {left right : HeadsTree}

def HeadsAt (crypto : Crypto) (pool : Node → Prop) (own : Option Entry) (heads : AuthorBuckets) :
    Prop :=
  match own with
  | none => heads = ∅
  | some entry => Stored crypto pool heads ∧ entry = entryOf crypto heads

theorem readBuckets_nameOf (free : CollisionFree crypto pool) {own : Option Entry}
    (held : ∀ entry, own = some entry → EntryHeld crypto pool store entry) :
    ∃ heads, readBuckets crypto store (nameOf crypto own) = .ok heads ∧
      HeadsAt crypto pool own heads := by
  cases own with
  | none => exact ⟨∅, readBuckets_empty, rfl⟩
  | some entry =>
    rcases held entry rfl with ⟨heads, stored, rfl, authors⟩
    exact ⟨heads, stored.readBuckets_eq free authors, stored, rfl⟩

theorem HeadsAt.unique (free : CollisionFree crypto pool) {own : Option Entry}
    {first second : AuthorBuckets} (isFirst : HeadsAt crypto pool own first)
    (isSecond : HeadsAt crypto pool own second) : first = second := by
  cases own with
  | none => exact isFirst.trans isSecond.symm
  | some entry =>
    rcases isFirst with ⟨firstStored, rfl⟩
    rcases isSecond with ⟨secondStored, same⟩
    exact firstStored.bucketDigest_injective free secondStored (congrArg Entry.buckets same)

theorem HeadsAt.own_unique {first second : Option Entry} {heads : AuthorBuckets}
    (isFirst : HeadsAt crypto pool first heads) (isSecond : HeadsAt crypto pool second heads) :
    first = second := by
  cases first with
  | none =>
    cases second with
    | none => rfl
    | some entry => exact absurd isFirst isSecond.1.holds
  | some entry =>
    cases second with
    | none => exact absurd isSecond isFirst.1.holds
    | some other => rw [isFirst.2, isSecond.2]

def pathBits (path : SyncPath) : Bits := bitsOfBytes (utf8Bytes path)

theorem pathBits_of_key {path : SyncPath} {key : Bits} (keyed : pathKey path = .ok key) :
    pathBits path = key := (countable_eq_ok_iff.mp keyed).2

/-- The list names each key below `position` where the trees differ, in key order, with
the heads on both sides. -/
structure Differences (crypto : Crypto) (pool : Node → Prop) (position : Bits)
    (left right : HeadsTree) (out : List PathDiffV2) : Prop where
  ascending : out.Pairwise fun first second =>
    compare (pathBits first.path) (pathBits second.path) = .lt
  mem_iff : ∀ diff, diff ∈ out ↔ ∃ key, pathKey diff.path = .ok (position ++ key) ∧
    left.get key ≠ right.get key ∧ HeadsAt crypto pool (left.get key) diff.left ∧
    HeadsAt crypto pool (right.get key) diff.right

theorem differences_self (position : Bits) (tree : HeadsTree) :
    Differences crypto pool position tree tree [] := by
  refine ⟨List.Pairwise.nil, ?_⟩
  intro diff
  simp

theorem Differences.descend {out : List PathDiffV2}
    (below : Differences crypto pool (position ++ bits) (left.sub bits) (right.sub bits) out)
    (descends : Descends left right bits) : Differences crypto pool position left right out := by
  refine ⟨below.ascending, ?_⟩
  intro diff
  rw [below.mem_iff]
  have cut : ∀ (tree : HeadsTree) (key : Bits), (tree.sub bits).get key = tree.get (bits ++ key) := by
    intro tree key
    rw [Patricia.get, Patricia.get, sub_append]
  constructor
  · rintro ⟨key, keyed, facts⟩
    rw [cut, cut] at facts
    exact ⟨bits ++ key, by rw [← append_assoc]; exact keyed, facts⟩
  · rintro ⟨key, keyed, different, facts⟩
    have inside : ∃ rest, key = bits ++ rest := by
      have starts : ∀ {tree : HeadsTree} {entry : Entry}, tree = (tree.sub bits).under bits →
          tree.get key = some entry → ∃ rest, key = bits ++ rest := by
        intro tree entry isBelow found
        rw [isBelow] at found
        rcases get_under_eq_some_iff.mp found with ⟨rest, same, _⟩
        exact ⟨rest, same⟩
      cases inLeft : left.get key with
      | some entry => exact starts descends.left inLeft
      | none =>
        cases inRight : right.get key with
        | some entry => exact starts descends.right inRight
        | none => exact absurd (inLeft.trans inRight.symm) different
    rcases inside with ⟨rest, rfl⟩
    refine ⟨rest, by rw [append_assoc]; exact keyed, ?_⟩
    rw [cut, cut]
    exact ⟨different, facts⟩

theorem Differences.split {here zero one : List PathDiffV2}
    (hereAt : here.Pairwise fun first second =>
      compare (pathBits first.path) (pathBits second.path) = .lt)
    (hereIff : ∀ diff, diff ∈ here ↔ pathKey diff.path = .ok position ∧
      left.here ≠ right.here ∧ HeadsAt crypto pool left.here diff.left ∧
      HeadsAt crypto pool right.here diff.right)
    (zeroBelow : Differences crypto pool (position ++ [false]) (left.child false)
      (right.child false) zero)
    (oneBelow : Differences crypto pool (position ++ [true]) (left.child true) (right.child true)
      one) : Differences crypto pool position left right (here ++ zero ++ one) := by
  have zeroKey : ∀ diff ∈ zero, ∃ rest, pathBits diff.path = position ++ false :: rest := by
    intro diff member
    rcases (zeroBelow.mem_iff diff).mp member with ⟨rest, keyed, _⟩
    exact ⟨rest, by rw [pathBits_of_key keyed, append_assoc]; rfl⟩
  have oneKey : ∀ diff ∈ one, ∃ rest, pathBits diff.path = position ++ true :: rest := by
    intro diff member
    rcases (oneBelow.mem_iff diff).mp member with ⟨rest, keyed, _⟩
    exact ⟨rest, by rw [pathBits_of_key keyed, append_assoc]; rfl⟩
  have hereKey : ∀ diff ∈ here, pathBits diff.path = position :=
    fun diff member => pathBits_of_key ((hereIff diff).mp member).1
  have above : ∀ (bit : Bool) (rest : Bits), compare position (position ++ bit :: rest) = .lt := by
    intro bit rest
    have shorter := compare_append_left position [] (bit :: rest)
    rw [append_nil] at shorter
    exact shorter
  constructor
  · rw [pairwise_append, pairwise_append]
    refine ⟨⟨hereAt, zeroBelow.ascending, ?_⟩, oneBelow.ascending, ?_⟩
    · intro first isHere second isZero
      rcases zeroKey second isZero with ⟨rest, keyIs⟩
      rw [hereKey first isHere, keyIs]
      exact above false rest
    · intro first isBefore second isOne
      rcases oneKey second isOne with ⟨rest, keyIs⟩
      rw [keyIs]
      rcases mem_append.mp isBefore with isHere | isZero
      · rw [hereKey first isHere]
        exact above true rest
      · rcases zeroKey first isZero with ⟨other, otherIs⟩
        rw [otherIs]
        exact (compare_append_left position (false :: other) (true :: rest)).trans rfl
  · intro diff
    rw [mem_append, mem_append, hereIff, zeroBelow.mem_iff, oneBelow.mem_iff]
    constructor
    · intro listed
      rcases listed with (⟨keyed, facts⟩ | ⟨key, keyed, facts⟩) | ⟨key, keyed, facts⟩
      · exact ⟨[], by rw [append_nil]; exact keyed, facts⟩
      · exact ⟨false :: key, by rw [append_assoc] at keyed; exact keyed, facts⟩
      · exact ⟨true :: key, by rw [append_assoc] at keyed; exact keyed, facts⟩
    · rintro ⟨key, keyed, facts⟩
      cases key with
      | nil =>
        rw [append_nil] at keyed
        exact Or.inl (Or.inl ⟨keyed, facts⟩)
      | cons bit rest =>
        cases bit
        · exact Or.inl (Or.inr ⟨rest, by rw [append_assoc]; exact keyed, facts⟩)
        · exact Or.inr ⟨rest, by rw [append_assoc]; exact keyed, facts⟩

theorem diffHere_eq (free : CollisionFree crypto pool) {leftView rightView : View}
    (leftShown : Shows crypto pool store leftView left)
    (rightShown : Shows crypto pool store rightView right)
    (keyed : left.here ≠ none ∨ right.here ≠ none → ∃ path, pathKey path = .ok position) :
    ∃ here, diffHere crypto store (nameOf crypto left.here) (nameOf crypto right.here) position =
        .ok here ∧
      (here.Pairwise fun first second =>
        compare (pathBits first.path) (pathBits second.path) = .lt) ∧
      ∀ diff, diff ∈ here ↔ pathKey diff.path = .ok position ∧ left.here ≠ right.here ∧
        HeadsAt crypto pool left.here diff.left ∧ HeadsAt crypto pool right.here diff.right := by
  unfold diffHere
  by_cases same : nameOf crypto left.here = nameOf crypto right.here
  · have equal := leftShown.entries.named.own_eq free rightShown.entries.named same
    refine ⟨[], if_pos same, List.Pairwise.nil, ?_⟩
    intro diff
    simp [equal]
  · have different : left.here ≠ right.here := fun equal => same (by rw [equal])
    have someHere : left.here ≠ none ∨ right.here ≠ none := by
      by_contra neither
      rw [not_or, not_not, not_not] at neither
      exact different (neither.1.trans neither.2.symm)
    rcases keyed someHere with ⟨path, isKey⟩
    have leftHeld : ∀ entry, left.here = some entry → EntryHeld crypto pool store entry :=
      fun entry isOwn => leftShown.entries [] entry isOwn
    have rightHeld : ∀ entry, right.here = some entry → EntryHeld crypto pool store entry :=
      fun entry isOwn => rightShown.entries [] entry isOwn
    rcases readBuckets_nameOf free leftHeld with ⟨leftHeads, leftRead, leftAt⟩
    rcases readBuckets_nameOf free rightHeld with ⟨rightHeads, rightRead, rightAt⟩
    refine ⟨[⟨path, leftHeads, rightHeads⟩], ?_, pairwise_singleton .., ?_⟩
    · rw [if_neg same, pathOf_eq_ok_iff.mpr isKey, leftRead, rightRead]
      rfl
    · intro diff
      rw [mem_singleton]
      constructor
      · intro isDiff
        subst isDiff
        exact ⟨isKey, different, leftAt, rightAt⟩
      · rintro ⟨diffKey, _, diffLeft, diffRight⟩
        cases diff
        have samePath := pathKey_injective diffKey isKey
        have sameLeft := diffLeft.unique free leftAt
        have sameRight := diffRight.unique free rightAt
        simp only at samePath sameLeft sameRight
        rw [samePath, sameLeft, sameRight]

theorem diffFrom_eq (free : CollisionFree crypto pool) {turns : Nat} {leftView rightView : View}
    (leftShown : Shows crypto pool store leftView left)
    (rightShown : Shows crypto pool store rightView right)
    (enough : left.weight + right.weight ≤ turns)
    (keyed : ∀ key, left.get key ≠ none ∨ right.get key ≠ none →
      ∃ path, pathKey path = .ok (position ++ key)) :
    ∃ out, diffFrom crypto store turns leftView rightView position = .ok out ∧
      Differences crypto pool position left right out := by
  induction turns generalizing left right leftView rightView position with
  | zero =>
    have leftEmpty : left = .empty := weight_eq_zero_iff.mp (by omega)
    have rightEmpty : right = .empty := weight_eq_zero_iff.mp (by omega)
    have same : digestOf crypto leftView = digestOf crypto rightView := by
      rw [leftShown.digestOf_eq, rightShown.digestOf_eq, leftEmpty, rightEmpty]
    rw [diffFrom, if_pos same, leftEmpty, rightEmpty]
    exact ⟨[], rfl, differences_self position .empty⟩
  | succ turns induction =>
    by_cases same : digestOf crypto leftView = digestOf crypto rightView
    · rw [diffFrom, if_pos same]
      rw [leftShown.digestOf_eq, rightShown.digestOf_eq] at same
      have equal := rootDigest_injective free leftShown.usable rightShown.usable
        leftShown.entries.named rightShown.entries.named same
      subst equal
      exact ⟨[], rfl, differences_self position left⟩
    · rw [diffFrom, if_neg same]
      have holds : left ≠ .empty ∨ right ≠ .empty := by
        by_contra neither
        rw [not_or, not_not, not_not] at neither
        apply same
        rw [leftShown.digestOf_eq, rightShown.digestOf_eq, neither.1, neither.2]
      rcases align_cases free leftShown rightShown with
        ⟨bits, leftBelow, rightBelow, descends, aligned, leftBelowShown, rightBelowShown⟩ |
        ⟨leftZero, leftOne, rightZero, rightOne, aligned, leftZeroShown, leftOneShown,
          rightZeroShown, rightOneShown⟩
      · have lighter := descends.weight_lt holds
        have keyedBelow : ∀ key, (left.sub bits).get key ≠ none ∨ (right.sub bits).get key ≠ none →
            ∃ path, pathKey path = .ok (position ++ bits ++ key) := by
          intro key found
          rw [append_assoc]
          apply keyed
          rw [Patricia.get, Patricia.get, sub_append, sub_append]
          exact found
        rcases induction leftBelowShown rightBelowShown (by omega) keyedBelow with
          ⟨out, ran, differences⟩
        refine ⟨out, ?_, differences.descend descends⟩
        simp only [aligned, bind, Except.bind]
        exact ran
      · have lighter : ∀ bit, (left.child bit).weight + (right.child bit).weight ≤ turns := by
          intro bit
          have bound : ∀ {tree : HeadsTree}, (tree ≠ .empty →
              (tree.child bit).weight < tree.weight) ∧
              (tree.child bit).weight ≤ tree.weight := by
            intro tree
            by_cases nothing : tree = .empty
            · subst nothing
              exact ⟨fun notEmpty => absurd rfl notEmpty, Nat.le_refl _⟩
            · have smaller := weight_child nothing
              cases bit
              · exact ⟨fun _ => by omega, by omega⟩
              · exact ⟨fun _ => by omega, by omega⟩
          rcases @bound left with ⟨leftLess, leftBound⟩
          rcases @bound right with ⟨rightLess, rightBound⟩
          rcases holds with holds | holds
          · have less := leftLess holds
            omega
          · have less := rightLess holds
            omega
        have keyedBelow : ∀ bit key, (left.child bit).get key ≠ none ∨
            (right.child bit).get key ≠ none →
            ∃ path, pathKey path = .ok (position ++ [bit] ++ key) := by
          intro bit key found
          rw [append_assoc]
          exact keyed (bit :: key) found
        have keyedHere : left.here ≠ none ∨ right.here ≠ none →
            ∃ path, pathKey path = .ok position := by
          intro found
          have atPosition := keyed [] found
          rwa [append_nil] at atPosition
        rcases diffHere_eq free leftShown rightShown keyedHere with
          ⟨here, hereRan, hereAt, hereIff⟩
        rcases induction leftZeroShown rightZeroShown (lighter false) (keyedBelow false) with
          ⟨zero, zeroRan, zeroDifferences⟩
        rcases induction leftOneShown rightOneShown (lighter true) (keyedBelow true) with
          ⟨one, oneRan, oneDifferences⟩
        refine ⟨here ++ zero ++ one, ?_,
          Differences.split hereAt hereIff zeroDifferences oneDifferences⟩
        simp only [aligned, bind, Except.bind, hereRan, zeroRan, oneRan]
        rfl

end Differences

/-! ## The differences of two namespaces -/

section Diff

variable {crypto : Crypto} {pool : Node → Prop} {store : NodeStore}

theorem HasMap.headsAt {map : HeadMap} (has : HasMap crypto pool store map) {path : SyncPath}
    {key : Bits} (keyed : pathKey path = .ok key) :
    HeadsAt crypto pool ((pathTree crypto map).get key) (map.at path) := by
  rw [get_pathTree_of_key keyed, HeadMap.at]
  cases found : map[path]? with
  | none => rfl
  | some heads => exact ⟨has.kept.stored found, rfl⟩

/-- `diff` lists each path whose heads differ, once, in ascending order of the paths'
bytes and with the heads on both sides. -/
theorem diff_sound_complete (free : CollisionFree crypto pool) {left right : HeadMap}
    (leftHas : HasMap crypto pool store left) (rightHas : HasMap crypto pool store right) :
    ∃ enough, ∀ turns, enough ≤ turns → ∃ out,
      diff crypto store turns (canonicalRoot crypto left) (canonicalRoot crypto right) = .ok out ∧
      (out.Pairwise fun first second =>
        compare (utf8Bytes first.path) (utf8Bytes second.path) = .lt) ∧
      ∀ path leftHeads rightHeads, ⟨path, leftHeads, rightHeads⟩ ∈ out ↔
        left.at path ≠ right.at path ∧ leftHeads = left.at path ∧ rightHeads = right.at path := by
  refine ⟨(pathTree crypto left).weight + (pathTree crypto right).weight, ?_⟩
  intro turns enough
  have keyed : ∀ key, (pathTree crypto left).get key ≠ none ∨ (pathTree crypto right).get key ≠ none →
      ∃ path, pathKey path = .ok ([] ++ key) := by
    have entryKeyed : ∀ {map : HeadMap} {key : Bits}, (pathTree crypto map).get key ≠ none →
        ∃ path, pathKey path = .ok ([] ++ key) := by
      intro map key found
      rcases Option.ne_none_iff_exists'.mp found with ⟨entry, isEntry⟩
      rcases get_pathTree.mp isEntry with ⟨path, _, isKey, _⟩
      exact ⟨path, isKey⟩
    intro key found
    exact found.elim entryKeyed entryKeyed
  rcases diffFrom_eq free (leftHas.shows_root free) (rightHas.shows_root free) enough keyed with
    ⟨out, ran, differences⟩
  refine ⟨out, ran, ?_, ?_⟩
  · apply differences.ascending.imp
    intro first second smaller
    rwa [pathBits, pathBits, compare_bitsOfBytes] at smaller
  · intro path leftHeads rightHeads
    rw [differences.mem_iff]
    constructor
    · rintro ⟨key, isKey, different, leftAt, rightAt⟩
      have isKey : pathKey path = .ok key := isKey
      have leftIs := leftAt.unique free (leftHas.headsAt isKey)
      have rightIs := rightAt.unique free (rightHas.headsAt isKey)
      refine ⟨?_, leftIs, rightIs⟩
      intro same
      have leftHeadsAt := leftHas.headsAt isKey
      rw [same] at leftHeadsAt
      exact different (leftHeadsAt.own_unique (rightHas.headsAt isKey))
    · rintro ⟨different, leftIs, rightIs⟩
      have isPath : ∃ key, pathKey path = .ok key := by
        cases inLeft : left[path]? with
        | some heads => exact leftHas.kept.proper.keyed path heads inLeft
        | none =>
          cases inRight : right[path]? with
          | some heads => exact rightHas.kept.proper.keyed path heads inRight
          | none =>
            rw [HeadMap.at, HeadMap.at, inLeft, inRight] at different
            exact absurd rfl different
      rcases isPath with ⟨key, isKey⟩
      have leftAt := leftHas.headsAt isKey
      have rightAt := rightHas.headsAt isKey
      rw [leftIs, rightIs]
      refine ⟨key, isKey, ?_, leftAt, rightAt⟩
      intro same
      rw [same] at leftAt
      exact different (leftAt.unique free rightAt)

end Diff

theorem diff_sound_complete_added :
    ∃ store turns out, diff Crypto.sample store turns (canonicalRoot Crypto.sample sampleMap)
        (canonicalRoot Crypto.sample ∅) = .ok out ∧
      ⟨"a", sampleMap.at "a", ∅⟩ ∈ out := by
  rcases sampleMap_runnable.patchAll_does sampleMap_collisionFree
    (NodeStore.sound_empty Crypto.sample _) with ⟨root, store, _, _, _, _, has⟩
  have kept : HeadMap.Kept Crypto.sample (· ∈ mapNodes Crypto.sample sampleMap) ∅ :=
    sampleMap_runnable.kept ∅ (.head _)
  rcases diff_sound_complete sampleMap_collisionFree has (hasMap_empty kept) with ⟨turns, all⟩
  rcases all turns (Nat.le_refl _) with ⟨out, ran, _, members⟩
  refine ⟨store, turns, out, ran, (members "a" _ _).mpr ⟨?_, rfl, rfl⟩⟩
  intro same
  have sizes := congrArg ExtTreeMap.size same
  revert sizes
  with_unfolding_all decide

end Yadorilink.Namespace
