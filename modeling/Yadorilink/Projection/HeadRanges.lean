import Yadorilink.Foundation.PrefixRanges
import Yadorilink.Projection.ProviderRows

/-! The reads of the head table that go by ranges of paths: whether anything lives below a path, and
the heads of one directory level. A path below `p` lies between `p/` and `p0`. -/

namespace Yadorilink

open Std OrderedMap ExtTreeMap List

/-! ## The table -/

/-- The rows of `native_heads`, in the order of their paths. -/
def headRows (heads : HeadMap) : List (SyncPath × Dot × HeadPayload) :=
  heads.toList.flatMap fun entry => entry.2.toList.map fun head => (entry.1, head)

def nativeHasDescendantHead (heads : HeadMap) (path : SyncPath) : Bool :=
  (headRows heads).any fun row => decide (path ++ "/" < row.1 ∧ row.1 < path ++ "0")

/-- What stands before and behind the first separator. -/
def splitOnce (separator : Char) (text : List Char) : Option (List Char × List Char) :=
  if separator ∈ text then
    some (text.takeWhile fun char => char ≠ separator,
      (text.dropWhile fun char => char ≠ separator).drop 1)
  else none

/-- The heads of a level's paths, and the children with a live head below them. -/
structure NativeLevelHeads where
  children : HeadMap
  withDescendant : ExtTreeSet SyncPath

def levelLower (parent : SyncPath) : SyncPath := if parent = "" then "" else parent ++ "/"

def inLevelRange (parent path : SyncPath) : Bool :=
  decide (levelLower parent < path) && (parent == "" || decide (path < parent ++ "0"))

/-- One row of the scan: a head of the level, or one that shows a child to have heads below. -/
def NativeLevelHeads.add (lower : SyncPath) (level : NativeLevelHeads)
    (row : SyncPath × Dot × HeadPayload) : NativeLevelHeads :=
  match splitOnce '/' (row.1.toList.drop lower.toList.length) with
  | some (child, _) =>
    { level with withDescendant := level.withDescendant.insert (lower ++ String.ofList child) }
  | none =>
    { level with
      children := level.children.insert row.1
        (((level.children[row.1]?).getD ∅).insert row.2.1 row.2.2) }

/-- `native_heads_at_level`; a parent that ends in a separator is refused. -/
def nativeHeadsAtLevel (heads : HeadMap) (parent : SyncPath) : Option NativeLevelHeads :=
  if parent.toList.getLast? = some '/' then none
  else
    some (((headRows heads).filter fun row => inLevelRange parent row.1).foldl
      (NativeLevelHeads.add (levelLower parent)) ⟨∅, ∅⟩)

/-! ## Rows -/

variable {heads : HeadMap} {path : SyncPath}

theorem exists_headRows_iff : (∃ row ∈ headRows heads, row.1 = path) ↔
      ∃ stored, heads[path]? = some stored ∧ stored.isEmpty = false := by
  constructor
  · intro held
    rcases held with ⟨row, member, rfl⟩
    rcases mem_flatMap.mp member with ⟨entry, listed, inner⟩
    rcases mem_map.mp inner with ⟨head, found, rfl⟩
    refine ⟨entry.2, mem_toList_iff_getElem?_eq_some.mp listed, ?_⟩
    rw [← isEmpty_toList, isEmpty_eq_false_iff]
    exact ne_nil_of_mem found
  · intro held
    rcases held with ⟨stored, found, nonempty⟩
    rw [← isEmpty_toList, isEmpty_eq_false_iff] at nonempty
    rcases exists_mem_of_ne_nil _ nonempty with ⟨head, held⟩
    refine ⟨(path, head), mem_flatMap.mpr ⟨(path, stored), ?_, ?_⟩, rfl⟩
    · exact mem_toList_iff_getElem?_eq_some.mpr found
    · exact mem_map_of_mem held

theorem slash_covBy_zero : '/' ⋖ '0' := by
  constructor
  · decide
  · intro char above below
    rw [Char.lt_def, UInt32.lt_iff_toNat_lt] at above below
    simp at above below
    omega

theorem below_iff {key : SyncPath} : path ++ "/" < key ∧ key < path ++ "0" ↔
      ∃ first rest, key.toList = path.toList ++ '/' :: first :: rest := by
  rw [String.lt_iff_toList_lt, String.lt_iff_toList_lt, String.toList_append, String.toList_append]
  exact PrefixRanges.between_iff slash_covBy_zero path.toList key.toList

theorem nativeHasDescendantHead_iff :
    nativeHasDescendantHead heads path = true ↔ ∃ row ∈ headRows heads, ∃ first rest,
        row.1.toList = path.toList ++ '/' :: first :: rest := by
  rw [nativeHasDescendantHead, any_eq_true]
  constructor
  · intro found
    rcases found with ⟨row, member, between⟩
    exact ⟨row, member, below_iff.mp (of_decide_eq_true between)⟩
  · intro found
    rcases found with ⟨row, member, below⟩
    exact ⟨row, member, decide_eq_true (below_iff.mpr below)⟩

/-! ## Paths with a name at both ends -/

/-- The path has components at its ends: it is not empty, and no separator starts or ends it. -/
structure PlainEnds (path : SyncPath) : Prop where
  nonempty : path.toList ≠ []
  start : path.toList.head? ≠ some '/'
  stop : path.toList.getLast? ≠ some '/'

variable {separator : Char}

theorem getLast?_splitOnP_concat {P : Char → Bool} (separates : P separator = true)
    (text : List Char) :
    ∃ front, front ≠ [] ∧ (text ++ [separator]).splitOnP P = front ++ [[]] := by
  induction text with
  | nil =>
    refine ⟨[[]], cons_ne_nil _ _, ?_⟩
    rw [nil_append, splitOnP_cons_eq_if_modifyHead, if_pos separates, splitOnP_nil]
    rfl
  | cons char text induction =>
    rcases induction with ⟨front, nonempty, whole⟩
    rw [cons_append, splitOnP_cons_eq_if_modifyHead, whole]
    split
    · exact ⟨[] :: front, cons_ne_nil _ _, rfl⟩
    · cases front with
      | nil => exact absurd rfl nonempty
      | cons first front => exact ⟨(char :: first) :: front, cons_ne_nil _ _, rfl⟩

theorem nonempty_of_checkSegments {segments : List (List Char)}
    (passed : checkSegments segments = .ok ()) : [] ∉ segments := by
  induction segments with
  | nil => exact not_mem_nil
  | cons segment rest induction =>
    rw [checkSegments] at passed
    split at passed
    · cases passed
    · rename_i nonempty
      split at passed
      · cases passed
      · rw [mem_cons, not_or]
        refine ⟨?_, induction passed⟩
        rintro rfl
        exact nonempty rfl

theorem plainEnds_of_validatePath (valid : validatePath path = .ok ()) : PlainEnds path := by
  rw [validatePath] at valid
  split at valid
  · cases valid
  rename_i nonempty
  split at valid
  · cases valid
  split at valid
  · cases valid
  split at valid
  · cases valid
  split at valid
  · cases valid
  rename_i relative
  split at valid
  · cases valid
  split at valid
  · cases valid
  split at valid
  · cases valid
  refine ⟨?_, relative, ?_⟩
  · intro empty
    rw [empty] at nonempty
    exact nonempty rfl
  · intro ends
    rcases getLast?_eq_some_iff.mp ends with ⟨front, whole⟩
    rw [whole] at valid
    rcases @getLast?_splitOnP_concat '/' PathRules.isSeparator (by decide) front with
      ⟨segments, _, split⟩
    rw [split] at valid
    exact nonempty_of_checkSegments valid (mem_append_right _ (.head _))

/-! ## A level -/

/-- The path is a name behind what the paths of the level start with. -/
def OnLevel (parent path : SyncPath) : Prop :=
  ∃ name, path.toList = (levelLower parent).toList ++ name ∧ '/' ∉ name

variable {parent : SyncPath}

theorem inLevelRange_iff : inLevelRange parent path = true ↔
      ∃ first rest, path.toList = (levelLower parent).toList ++ first :: rest := by
  rw [inLevelRange, levelLower, Bool.and_eq_true, decide_eq_true_iff]
  by_cases root : parent = ""
  · rw [if_pos root, root]
    rw [String.lt_iff_toList_lt]
    cases path.toList with
    | nil => simp
    | cons first rest => simp
  · have behind : ∀ first rest, path.toList = (parent ++ "/").toList ++ first :: rest ↔
        path.toList = parent.toList ++ '/' :: first :: rest := by
      intro first rest
      rw [String.toList_append, append_assoc]
      rfl
    rw [if_neg root]
    simp only [behind, beq_iff_eq, root, Bool.or_eq_true, false_or, decide_eq_true_eq]
    exact below_iff

theorem splitOnce_append {front last : List Char} (plain : separator ∉ front) :
    splitOnce separator (front ++ separator :: last) = some (front, last) := by
  have stops : ∀ char ∈ front, decide (char ≠ separator) = true := by
    intro char member
    exact decide_eq_true fun same => plain (same ▸ member)
  rw [splitOnce, if_pos (mem_append_right _ mem_cons_self),
    takeWhile_append_of_pos stops, dropWhile_append_of_pos stops]
  simp

theorem splitOnce_eq_none {text : List Char} :
    splitOnce separator text = none ↔ separator ∉ text := by
  rw [splitOnce]
  split
  · rename_i member
    simp [member]
  · rename_i absent
    simp [absent]

theorem exists_of_splitOnce {text front last : List Char}
    (parts : splitOnce separator text = some (front, last)) :
    text = front ++ separator :: last ∧ separator ∉ front := by
  by_cases member : separator ∈ text
  · rcases eq_append_cons_of_mem member with ⟨before, behind, whole, fresh⟩
    rw [whole, splitOnce_append fresh] at parts
    cases parts
    exact ⟨whole, fresh⟩
  · rw [splitOnce_eq_none.mpr member] at parts
    cases parts

/-! ## What the scan collects -/

variable {level : NativeLevelHeads} {row : SyncPath × Dot × HeadPayload}

section Scans

variable {lower : SyncPath} {rows : List (SyncPath × Dot × HeadPayload)}

theorem mem_withDescendant_foldl {child : SyncPath} :
    child ∈ (rows.foldl (NativeLevelHeads.add lower) level).withDescendant ↔
      child ∈ level.withDescendant ∨ ∃ row ∈ rows, ∃ name rest,
        splitOnce '/' (row.1.toList.drop lower.toList.length) = some (name, rest) ∧
          lower ++ String.ofList name = child := by
  induction rows generalizing level with
  | nil => simp
  | cons row rows induction =>
    rw [foldl_cons, induction, NativeLevelHeads.add]
    cases parts : splitOnce '/' (row.1.toList.drop lower.toList.length) with
    | none =>
      simp only [mem_cons, exists_eq_or_imp, parts]
      simp
    | some pair =>
      rcases pair with ⟨name, rest⟩
      simp only [mem_cons, exists_eq_or_imp, parts, ExtTreeSet.mem_insert,
        LawfulEqCmp.compare_eq_iff_eq]
      constructor
      · intro held
        rcases held with (same | old) | later
        · exact .inr (.inl ⟨name, rest, rfl, same⟩)
        · exact .inl old
        · exact .inr (.inr later)
      · intro held
        rcases held with old | here | later
        · exact .inl (.inr old)
        · rcases here with ⟨_, _, same, named⟩
          cases same
          exact .inl (.inl named)
        · exact .inr later

def withHead (heads : Option PathHeads) (row : SyncPath × Dot × HeadPayload) : Option PathHeads :=
  some ((heads.getD ∅).insert row.2.1 row.2.2)

theorem children_add_of_ne (other : row.1 ≠ path) :
    (level.add lower row).children[path]? = level.children[path]? := by
  rw [NativeLevelHeads.add]
  split
  · rfl
  · rw [getElem?_insert_eq, if_neg other]

theorem children_add_self : (level.add lower row).children[row.1]? =
      if '/' ∉ row.1.toList.drop lower.toList.length then withHead (level.children[row.1]?) row
      else level.children[row.1]? := by
  rw [NativeLevelHeads.add]
  split
  · rename_i child rest parts
    have member : '/' ∈ row.1.toList.drop lower.toList.length := by
      rw [(exists_of_splitOnce parts).1]
      exact mem_append_right _ mem_cons_self
    rw [if_neg (not_not.mpr member)]
  · rename_i parts
    rw [if_pos (splitOnce_eq_none.mp parts), getElem?_insert_eq, if_pos rfl]
    rfl

theorem children_foldl : (rows.foldl (NativeLevelHeads.add lower) level).children[path]? =
      if '/' ∉ path.toList.drop lower.toList.length then
        (rows.filter fun row => row.1 = path).foldl withHead (level.children[path]?)
      else level.children[path]? := by
  induction rows generalizing level with
  | nil => simp
  | cons row rows induction =>
    rw [foldl_cons, induction]
    by_cases here : row.1 = path
    · subst here
      rw [children_add_self, filter_cons_of_pos (by simp), foldl_cons]
      split
      · rfl
      · rfl
    · rw [children_add_of_ne here, filter_cons_of_neg (by simpa using here)]

end Scans

theorem filter_toList_path (heads : HeadMap) (path : SyncPath) :
    heads.toList.filter (fun entry => entry.1 = path) =
      ((heads[path]?).map fun stored => (path, stored)).toList := by
  have distinct : (heads.toList.map Prod.fst).Nodup := by
    rw [map_fst_toList_eq_keys]
    exact nodup_keys
  cases stored : heads[path]? with
  | none =>
    rw [Option.map_none, Option.toList_none, filter_eq_nil_iff]
    intro entry member same
    have found := mem_toList_iff_getElem?_eq_some.mp member
    rw [of_decide_eq_true same, stored] at found
    cases found
  | some kept =>
    have member : (path, kept) ∈ heads.toList :=
      mem_toList_iff_getElem?_eq_some.mpr stored
    have same : heads.toList.filter (fun entry => entry.1 = path) =
        heads.toList.filter (fun entry => entry = (path, kept)) := by
      apply filter_congr
      intro entry listed
      rw [decide_eq_decide]
      constructor
      · intro atPath
        exact inj_on_of_nodup_map distinct listed member atPath
      · intro whole
        rw [whole]
    rw [same, filter_eq, count_eq_one_of_mem (distinct.of_map _) member]
    rfl

theorem headRows_filter_path (heads : HeadMap) (path : SyncPath) :
    (headRows heads).filter (fun row => row.1 = path) =
      ((heads[path]?).getD ∅).toList.map fun head => (path, head) := by
  have split : (headRows heads).filter (fun row => row.1 = path) =
      (heads.toList.filter fun entry => entry.1 = path).flatMap fun entry =>
        entry.2.toList.map fun head => (entry.1, head) := by
    rw [headRows, filter_flatMap]
    induction heads.toList with
    | nil => rfl
    | cons entry entries induction =>
      rw [flatMap_cons, induction]
      by_cases here : entry.1 = path
      · rw [filter_cons_of_pos (by simpa using here), flatMap_cons]
        congr 1
        rw [filter_eq_self]
        intro row member
        rcases mem_map.mp member with ⟨head, _, rfl⟩
        exact decide_eq_true here
      · rw [filter_cons_of_neg (by simpa using here)]
        have none : (entry.2.toList.map fun head => (entry.1, head)).filter
            (fun row => row.1 = path) = [] := by
          rw [filter_eq_nil_iff]
          intro row member
          rcases mem_map.mp member with ⟨head, _, rfl⟩
          simpa using here
        rw [none, nil_append]
  rw [split, filter_toList_path]
  cases heads[path]? with
  | none => rfl
  | some kept => simp

/-! ## The heads of a level -/

/-- Every path has plain ends, and heads. -/
structure PlainTable (heads : HeadMap) : Prop where
  ends : ∀ path stored, heads[path]? = some stored → PlainEnds path
  heads : NoEmptyPath heads

theorem PlainTable.ends_of_row (plain : PlainTable heads) (member : row ∈ headRows heads) :
    PlainEnds row.1 := by
  rcases exists_headRows_iff.mp ⟨row, member, rfl⟩ with ⟨stored, found, _⟩
  exact plain.ends row.1 stored found

theorem foldl_withHead {heads : Option PathHeads} {listed : List (Dot × HeadPayload)}
    (some : listed ≠ []) :
    (listed.map fun head => (path, head)).foldl withHead heads =
      Option.some (listed.foldl (fun built entry => built.insert entry.1 entry.2)
        (heads.getD ∅)) := by
  induction listed generalizing heads with
  | nil => exact absurd rfl some
  | cons head rest induction =>
    rw [map_cons, foldl_cons, foldl_cons]
    cases rest with
    | nil => rfl
    | cons next rest => exact induction (cons_ne_nil _ _)

theorem headRows_filter_level (heads : HeadMap) (parent path : SyncPath) :
    ((headRows heads).filter fun row => inLevelRange parent row.1).filter
        (fun row => row.1 = path) =
      if inLevelRange parent path then ((heads[path]?).getD ∅).toList.map fun head => (path, head)
      else [] := by
  rw [filter_filter]
  split
  · rename_i within
    rw [← headRows_filter_path]
    apply filter_congr
    intro row _
    by_cases here : row.1 = path
    · rw [here, within, Bool.and_true]
    · simp [here]
  · rename_i outside
    rw [filter_eq_nil_iff]
    intro row _ both
    rw [Bool.and_eq_true, decide_eq_true_iff] at both
    rw [both.1] at both
    exact outside both.2

theorem OnLevel.inLevelRange (level : OnLevel parent path) (ends : PlainEnds path) :
    inLevelRange parent path = true := by
  rcases level with ⟨name, whole, _⟩
  cases name with
  | cons first rest => exact inLevelRange_iff.mpr ⟨first, rest, whole⟩
  | nil =>
    -- The path would be the level's own lower bound, which is empty or ends in a separator.
    rw [append_nil, levelLower] at whole
    split at whole
    · exact absurd whole ends.nonempty
    · have stops := ends.stop
      rw [whole, String.toList_append] at stops
      exact absurd getLast?_concat stops

theorem drop_levelLower {name : List Char}
    (whole : path.toList = (levelLower parent).toList ++ name) :
    path.toList.drop (levelLower parent).toList.length = name := by
  rw [whole, drop_left]

theorem nativeHeadsAtLevel_spec (plain : PlainTable heads)
    (read : nativeHeadsAtLevel heads parent = some level) :
    (∀ path, OnLevel parent path → level.children[path]? = heads[path]?) ∧
    (∀ path, ¬OnLevel parent path → level.children[path]? = none) ∧
    ∀ path, path ∈ level.withDescendant ↔
      OnLevel parent path ∧ nativeHasDescendantHead heads path = true := by
  rw [nativeHeadsAtLevel] at read
  split at read
  · cases read
  cases read
  refine ⟨?_, ?_, ?_⟩
  · intro path onLevel
    have direct := onLevel
    rcases direct with ⟨name, whole, plainName⟩
    rw [children_foldl, drop_levelLower whole, if_pos plainName, headRows_filter_level,
      getElem?_empty]
    cases stored : heads[path]? with
    | none =>
      have noRows : (∅ : PathHeads).toList = [] := rfl
      rw [Option.getD_none, noRows]
      split
      · rfl
      · rfl
    | some kept =>
      have nonempty : kept.toList ≠ [] := by
        rw [← isEmpty_eq_false_iff, isEmpty_toList]
        exact plain.heads path kept stored
      rw [if_pos (onLevel.inLevelRange (plain.ends path kept stored)), Option.getD_some,
        foldl_withHead nonempty, Option.getD_none, foldl_insert_toList]
  · intro path offLevel
    rw [children_foldl, headRows_filter_level, getElem?_empty]
    split
    · rename_i plainName
      split
      · rename_i within
        rcases inLevelRange_iff.mp within with ⟨first, rest, whole⟩
        rw [drop_levelLower whole] at plainName
        exact absurd ⟨first :: rest, whole, plainName⟩ offLevel
      · rfl
    · rfl
  · intro path
    rw [mem_withDescendant_foldl]
    constructor
    · intro held
      rcases held with absurdity | found
      · exact absurd absurdity ExtTreeSet.not_mem_empty
      · rcases found with ⟨row, member, name, rest, parts, named⟩
        rw [mem_filter] at member
        rcases inLevelRange_iff.mp member.2 with ⟨first, more, whole⟩
        rw [drop_levelLower whole] at parts
        rcases exists_of_splitOnce parts with ⟨split, plainName⟩
        have shape : path.toList = (levelLower parent).toList ++ name := by
          rw [← named, String.toList_append, String.toList_ofList]
        have below : row.1.toList = path.toList ++ '/' :: rest := by
          rw [whole, split, shape, append_assoc]
        refine ⟨⟨name, shape, plainName⟩, nativeHasDescendantHead_iff.mpr ⟨row, member.1, ?_⟩⟩
        cases rest with
        | nil =>
          have stops := (plain.ends_of_row member.1).stop
          rw [below] at stops
          exact absurd getLast?_concat stops
        | cons next rest => exact ⟨next, rest, below⟩
    · intro held
      rcases held with ⟨onLevel, below⟩
      rcases onLevel with ⟨name, shape, plainName⟩
      rcases nativeHasDescendantHead_iff.mp below with ⟨row, member, first, rest, whole⟩
      rw [shape, append_assoc] at whole
      refine .inr ⟨row, mem_filter.mpr ⟨member, ?_⟩, name, first :: rest, ?_, ?_⟩
      · rw [inLevelRange_iff]
        cases name with
        | nil => exact ⟨'/', first :: rest, whole⟩
        | cons lead name => exact ⟨lead, name ++ '/' :: first :: rest, whole⟩
      · rw [drop_levelLower whole]
        exact splitOnce_append plainName
      · apply String.toList_inj.mp
        rw [String.toList_append, String.toList_ofList, shape]

/-! ## Agreement with the walk over the tree -/

theorem hasDescendant_iff {state : NativeState} : hasDescendant state path = true ↔
      ∃ (key : SyncPath) (stored : PathHeads), state.heads[key]? = some stored ∧ ∃ rest,
        key.toList = path.toList ++ '/' :: rest := by
  have shape : ∀ key : SyncPath, (path ++ "/").toList <+: key.toList ↔
      ∃ rest, key.toList = path.toList ++ '/' :: rest := by
    intro key
    rw [String.toList_append]
    constructor
    · intro continues
      rcases continues with ⟨rest, whole⟩
      exact ⟨rest, by rw [← whole, append_assoc]; rfl⟩
    · intro split
      rcases split with ⟨rest, whole⟩
      exact ⟨rest, by rw [whole, append_assoc]; rfl⟩
  rw [hasDescendant, Option.any_eq_true]
  constructor
  · intro found
    rcases found with ⟨key, first, starts⟩
    rcases (mem_keys_iff _ key).mp (mem_of_find?_eq_some first) with ⟨stored, held⟩
    exact ⟨key, stored, held, (shape key).mp ( isPrefixOf_iff_prefix.mp starts)⟩
  · intro found
    rcases found with ⟨key, stored, held, below⟩
    have member : key ∈ state.heads.keys := (mem_keys_iff _ key).mpr ⟨stored, held⟩
    have continues := (shape key).mpr below
    have reached : decide (compare key (path ++ "/") ≠ .lt) = true := by
      apply decide_eq_true
      rw [Ne, compare_lt_iff_lt, String.lt_iff_toList_lt]
      exact List.not_lt.mpr (List.IsPrefix.le continues)
    have some : (state.heads.keys.find? fun key =>
        decide (compare key (path ++ "/") ≠ .lt)).isSome = true :=
      find?_isSome.mpr ⟨key, member, reached⟩
    rcases Option.isSome_iff_exists.mp some with ⟨first, firstFound⟩
    refine ⟨first, firstFound, isPrefixOf_iff_prefix.mpr ?_⟩
    rcases find?_eq_some_iff_append.mp firstFound with ⟨above, before, behind, split, skipped⟩
    apply PrefixRanges.prefix_of_between _ _ continues
    · have notBelow := of_decide_eq_true above
      rw [Ne, compare_lt_iff_lt, String.lt_iff_toList_lt] at notBelow
      exact notBelow
    · -- The key is the first one found, or comes behind it.
      rw [split, mem_append, mem_cons] at member
      have sorted := @ordered_keys _ _ _ state.heads _
      rw [split, pairwise_append, pairwise_cons] at sorted
      rcases member with earlier | same | later
      · have passed := skipped key earlier
        rw [reached] at passed
        cases passed
      · rw [same]
        exact lt_irrefl _
      · have ordered := sorted.2.1.1 key later
        rw [compare_lt_iff_lt, String.lt_iff_toList_lt] at ordered
        exact lt_asymm ordered

theorem nativeHasDescendantHead_eq {state : NativeState} (plain : PlainTable state.heads)
    (path : SyncPath) : nativeHasDescendantHead state.heads path = hasDescendant state path := by
  rw [Bool.eq_iff_iff, nativeHasDescendantHead_iff, hasDescendant_iff]
  constructor
  · intro found
    rcases found with ⟨row, member, first, rest, whole⟩
    rcases exists_headRows_iff.mp ⟨row, member, rfl⟩ with ⟨stored, held, _⟩
    exact ⟨row.1, stored, held, first :: rest, whole⟩
  · intro found
    rcases found with ⟨key, stored, held, rest, whole⟩
    rcases exists_headRows_iff.mpr ⟨stored, held, plain.heads key stored held⟩ with
      ⟨row, member, same⟩
    refine ⟨row, member, ?_⟩
    rw [same]
    cases rest with
    | nil =>
      have stops := (plain.ends key stored held).stop
      rw [whole] at stops
      exact absurd getLast?_concat stops
    | cons first rest => exact ⟨first, rest, whole⟩

end Yadorilink
