import Yadorilink.Provider.NamespaceIndex

/-! The index of a provider root is exact after every transaction. Only the recorded paths and
their ancestors are judged anew; nothing else can have changed. -/

namespace Yadorilink.ProviderIndex

open Std Reconcile ExtTreeSet List

/-! ## Paths -/

def PlainPath (path : SyncPath) : Prop :=
  [] ∉ path.toList.splitOnP fun char => char == '/'

theorem PlainPath.parts {path : SyncPath} (plain : PlainPath path) {front rest : List Char}
    (whole : path.toList = front ++ '/' :: rest) :
    PlainPath (String.ofList front) ∧ front ≠ [] ∧ rest ≠ [] ∧ front.getLast? ≠ some '/' := by
  rw [PlainPath, whole, splitOnP_append_cons front rest (by decide), mem_append,
    not_or] at plain
  rcases plain with ⟨before, behind⟩
  refine ⟨?_, ?_, ?_, ?_⟩
  · rw [PlainPath, String.toList_ofList]
    exact before
  · rintro rfl
    exact before (by simp)
  · rintro rfl
    exact behind (by simp)
  · intro ends
    rcases getLast?_eq_some_iff.mp ends with ⟨start, rfl⟩
    rw [splitOnP_append_cons start [] (by decide)] at before
    exact before (by simp)

theorem rtrim_append_of_mem {text last set : List Char} (listed : ∀ char ∈ last, char ∈ set) :
    rtrim (text ++ last) set = rtrim text set := by
  induction last using List.reverseRecOn with
  | nil => rw [append_nil]
  | append_singleton last char induction =>
    rw [rtrim, ← append_assoc, rdropWhile_concat,
      if_pos (decide_eq_true (listed char (by simp)))]
    exact induction fun other member => listed other (mem_append_left _ member)

theorem rtrim_of_getLast?_ne {text : List Char} (stops : text.getLast? ≠ some '/') :
    rtrim text ['/'] = text := by
  rw [rtrim, rdropWhile_eq_self_iff]
  intro nonempty listed
  apply stops
  rw [getLast?_eq_getLast_of_ne_nil nonempty]
  simpa using listed

theorem parentPath_of_no_slash {path : SyncPath} (flat : '/' ∉ path.toList) :
    parentPath path = "" := by
  have all : path.toList.filter (fun char => char ≠ '/') = path.toList := by
    rw [filter_eq_self]
    intro char member
    exact decide_eq_true fun same => flat (same ▸ member)
  have empty : rtrim path.toList path.toList = [] := by
    rw [rtrim, rdropWhile_eq_nil_iff]
    intro char member
    exact decide_eq_true member
  rw [parentPath, all, empty]
  rfl

theorem parentPath_of_slash {path : SyncPath} {front name : List Char}
    (whole : path.toList = front ++ '/' :: name) (last : '/' ∉ name)
    (stops : front.getLast? ≠ some '/') : parentPath path = String.ofList front := by
  have inner : rtrim path.toList (path.toList.filter fun char => char ≠ '/') = front ++ ['/'] := by
    have split : path.toList = (front ++ ['/']) ++ name := by
      rw [whole, append_assoc]
      rfl
    have named : ∀ char ∈ name, char ∈ path.toList.filter fun char => char ≠ '/' := by
      intro char member
      rw [mem_filter, whole]
      exact ⟨by simp [member], decide_eq_true fun same => last (same ▸ member)⟩
    calc rtrim path.toList (path.toList.filter fun char => char ≠ '/')
        = rtrim ((front ++ ['/']) ++ name) (path.toList.filter fun char => char ≠ '/') := by
          rw [← split]
      _ = rtrim (front ++ ['/']) (path.toList.filter fun char => char ≠ '/') :=
          rtrim_append_of_mem named
      _ = front ++ ['/'] := by
          rw [rtrim, rdropWhile_concat_neg]
          simp
  rw [parentPath, inner, rtrim_append_of_mem (by simp), rtrim_of_getLast?_ne stops]

theorem parentPath_eq_parentOf {path : SyncPath} (plain : PlainPath path) :
    parentPath path = parentOf path := by
  by_cases nested : '/' ∈ path.toList
  · rcases exists_of_mem_slash nested with ⟨front, last, whole, fresh⟩
    rw [parentPath_of_slash whole fresh (plain.parts whole).2.2.2, parentOf, whole,
      rsplitOnce_append fresh]
  · rw [parentPath_of_no_slash nested, parentOf, rsplitOnce_eq_none.mpr nested]

theorem mem_properAncestorsFrom_iff {turns : Nat} {text : List Char} (enough : text.length ≤ turns)
    {path : SyncPath} :
    path ∈ properAncestorsFrom turns text ↔ ∃ rest, text = path.toList ++ '/' :: rest := by
  constructor
  · intro member
    clear enough
    induction turns generalizing text with
    | zero => cases member
    | succ turns induction =>
      rw [properAncestorsFrom] at member
      by_cases nested : '/' ∈ text
      · rcases exists_of_mem_slash nested with ⟨front, last, whole, fresh⟩
        rw [whole, rsplitOnce_append fresh] at member
        rcases mem_cons.mp member with rfl | above
        · exact ⟨last, by rw [String.toList_ofList, whole]⟩
        · rcases induction above with ⟨rest, deeper⟩
          exact ⟨rest ++ '/' :: last, by rw [whole, deeper]; simp⟩
      · rw [rsplitOnce_eq_none.mpr nested] at member
        cases member
  · rintro ⟨rest, whole⟩
    have member := mem_properAncestorsFrom enough whole
    rwa [String.ofList_toList] at member

theorem mem_properAncestors_iff {path key : SyncPath} :
    path ∈ properAncestors key ↔ ∃ rest, key.toList = path.toList ++ '/' :: rest :=
  mem_properAncestorsFrom_iff (Nat.le_refl _)

theorem inRangeBelow_iff {path key : SyncPath} (plain : PlainPath key) :
    inRangeBelow path key = true ↔ path ∈ properAncestors key := by
  rw [inRangeBelow, decide_eq_true_iff, below_iff, mem_properAncestors_iff]
  constructor
  · rintro ⟨first, rest, whole⟩
    exact ⟨first :: rest, whole⟩
  · rintro ⟨rest, whole⟩
    cases rest with
    | nil => exact absurd rfl (plain.parts whole).2.2.1
    | cons first rest => exact ⟨first, rest, whole⟩

theorem PlainPath.ancestor {path key : SyncPath} (plain : PlainPath key)
    (above : path ∈ properAncestors key) : PlainPath path ∧ path ≠ "" := by
  rcases mem_properAncestors_iff.mp above with ⟨rest, whole⟩
  have parts := plain.parts whole
  rw [String.ofList_toList] at parts
  refine ⟨parts.1, ?_⟩
  rintro rfl
  exact parts.2.1 rfl

theorem self_mem_ancestorsFrom (turns : Nat) (path : SyncPath) : path ∈ ancestorsFrom turns path := by
  cases turns with
  | zero => exact mem_singleton_self path
  | succ turns => exact .head _

theorem mem_ancestorsFrom {turns : Nat} {path key : SyncPath} (plain : PlainPath key)
    (enough : key.toList.length ≤ turns) (above : path ∈ properAncestors key) :
    path ∈ ancestorsFrom turns key := by
  induction turns generalizing key with
  | zero =>
    rcases mem_properAncestors_iff.mp above with ⟨rest, whole⟩
    rw [whole, length_append, length_cons] at enough
    omega
  | succ turns induction =>
    rcases mem_properAncestors_iff.mp above with ⟨rest, whole⟩
    have nested : '/' ∈ key.toList := by
      rw [whole]
      simp
    rcases exists_of_mem_slash nested with ⟨front, last, split, fresh⟩
    have parent : parentPath key = String.ofList front :=
      parentPath_of_slash split fresh (plain.parts split).2.2.2
    have shorter : (String.ofList front).toList.length ≤ turns := by
      rw [split, length_append, length_cons] at enough
      rw [String.toList_ofList]
      omega
    rw [ancestorsFrom, if_pos nested, parent]
    apply mem_cons_of_mem
    have listed : path ∈ properAncestors key := above
    rw [properAncestors, split, length_append, length_cons, ← Nat.add_assoc,
      properAncestorsFrom, rsplitOnce_append fresh] at listed
    rcases mem_cons.mp listed with rfl | higher
    · exact self_mem_ancestorsFrom turns _
    · apply induction (plain.parts split).1 shorter
      rw [mem_properAncestors_iff, String.toList_ofList]
      exact (mem_properAncestorsFrom_iff (by omega)).mp higher

/-! ## Rows -/

section Rows

variable {files : List FileRow} {path : SyncPath}

theorem shownAt_iff : shownAt files path = true ↔
    ∃ row ∈ files, row.shown = true ∧ row.path = path := by
  simp [shownAt]

theorem liveAt_iff : liveAt files path = true ↔
    ∃ row ∈ files, row.live = true ∧ row.path = path := by
  simp [liveAt]

theorem FileRow.live_of_shown {row : FileRow} (shown : row.shown = true) : row.live = true := by
  rw [FileRow.shown, Bool.and_eq_true] at shown
  exact shown.1

/-- The path is a proper ancestor of a path that is shown. -/
def ShownUnder (files : List FileRow) (path : SyncPath) : Prop :=
  ∃ row ∈ files, row.shown = true ∧ path ∈ properAncestors row.path

def LiveUnder (files : List FileRow) (path : SyncPath) : Prop :=
  ∃ row ∈ files, row.live = true ∧ (row.path = path ∨ path ∈ properAncestors row.path)

theorem shownBelow_iff (plain : ∀ row ∈ files, PlainPath row.path) :
    shownBelow files path = true ↔ ShownUnder files path := by
  rw [shownBelow, any_eq_true]
  constructor
  · rintro ⟨row, member, below⟩
    rw [Bool.and_eq_true, inRangeBelow_iff (plain row member)] at below
    exact ⟨row, member, below⟩
  · rintro ⟨row, member, below⟩
    refine ⟨row, member, ?_⟩
    rw [Bool.and_eq_true, inRangeBelow_iff (plain row member)]
    exact below

theorem liveUnder_of_live (plain : ∀ row ∈ files, PlainPath row.path)
    (live : liveAt files path = true ∨ liveBelow files path = true) : LiveUnder files path := by
  rcases live with here | below
  · rcases liveAt_iff.mp here with ⟨row, member, live, same⟩
    exact ⟨row, member, live, .inl same⟩
  · rw [liveBelow, any_eq_true] at below
    rcases below with ⟨row, member, below⟩
    rw [Bool.and_eq_true, inRangeBelow_iff (plain row member)] at below
    exact ⟨row, member, below.1, .inr below.2⟩

theorem ShownUnder.liveUnder (under : ShownUnder files path) : LiveUnder files path := by
  rcases under with ⟨row, member, shown, above⟩
  exact ⟨row, member, FileRow.live_of_shown shown, .inr above⟩

theorem any_set {check : FileRow → Bool} {place : Nat} {old new : FileRow}
    (found : files[place]? = some old) (same : check new = check old) :
    (files.set place new).any check = files.any check := by
  induction files generalizing place with
  | nil => cases found
  | cons row rest induction =>
    cases place with
    | zero =>
      cases found
      rw [set_cons_zero, any_cons, any_cons, same]
    | succ place =>
      rw [set_cons_succ, any_cons, any_cons, induction found]

theorem any_eraseIdx {check : FileRow → Bool} {place : Nat} {old : FileRow}
    (found : files[place]? = some old) (fails : check old = false) :
    (files.eraseIdx place).any check = files.any check := by
  induction files generalizing place with
  | nil => cases found
  | cons row rest induction =>
    cases place with
    | zero =>
      cases found
      rw [eraseIdx_zero, tail_cons, any_cons, fails, Bool.false_or]
    | succ place =>
      rw [eraseIdx_cons_succ, any_cons, any_cons, induction found]

end Rows

/-! ## Writes -/

/-- Rows have plain paths, and a sequence number is set only along with what a trigger sees. -/
def TxStep.Recorded : TxStep → Prop
  | .insert row => PlainPath row.path
  | .update _ row => PlainPath row.path
  | .amend _ _ versionSeq => versionSeq = none
  | _ => True

/-- What the statements of a transaction have left: the rows differ from those before only at
recorded paths, and nothing else differs but what is published and enumerated. -/
structure Pending (before index : Index) : Prop where
  rows : ∀ row ∈ index.files, PlainPath row.path
  recorded : ∀ path ∈ index.dirtyPaths, PlainPath path
  shown : ∀ path, path ∉ index.dirtyPaths → shownAt index.files path = shownAt before.files path
  live : ∀ path, path ∉ index.dirtyPaths → liveAt index.files path = liveAt before.files path
  items : ∀ item ∈ index.items, item.live = true →
    ∃ known ∈ before.items, known.live = true ∧ known.path = item.path
  dirs : index.dirs = before.dirs
  events : index.events = before.events
  revision : index.namespaceRevision = before.namespaceRevision

theorem Pending.refl {index : Index} (rows : ∀ row ∈ index.files, PlainPath row.path)
    (settled : index.dirtyPaths = ∅) : Pending index index where
  rows := rows
  recorded path member := by simp [settled] at member
  shown _ _ := rfl
  live _ _ := rfl
  items item member live := ⟨item, member, live, rfl⟩
  dirs := rfl
  events := rfl
  revision := rfl

theorem mem_insert_iff {paths : ExtTreeSet SyncPath} {path new : SyncPath} :
    path ∈ paths.insert new ↔ path = new ∨ path ∈ paths := by
  rw [mem_insert, Std.compare_eq_iff_eq, eq_comm]

theorem Pending.rewrite {before index : Index} (pending : Pending before index)
    {files : List FileRow} {dirtyPaths : ExtTreeSet SyncPath}
    (rows : ∀ row ∈ files, PlainPath row.path)
    (recorded : ∀ path ∈ dirtyPaths, PlainPath path)
    (kept : ∀ path, path ∉ dirtyPaths → path ∉ index.dirtyPaths ∧
      shownAt files path = shownAt index.files path ∧ liveAt files path = liveAt index.files path) :
    Pending before { index with files, dirtyPaths } where
  rows := rows
  recorded := recorded
  shown path fresh := by
    rcases kept path fresh with ⟨unrecorded, same, _⟩
    exact same.trans (pending.shown path unrecorded)
  live path fresh := by
    rcases kept path fresh with ⟨unrecorded, _, same⟩
    exact same.trans (pending.live path unrecorded)
  items := pending.items
  dirs := pending.dirs
  events := pending.events
  revision := pending.revision

theorem Pending.insert {before index : Index} (pending : Pending before index) {row : FileRow}
    (plain : PlainPath row.path) : Pending before (index.write (.insert row)) := by
  apply pending.rewrite
  · exact forall_mem_concat pending.rows plain
  · intro path member
    rcases mem_insert_iff.mp member with rfl | old
    · exact plain
    · exact pending.recorded path old
  · intro path fresh
    rw [mem_insert_iff, not_or] at fresh
    refine ⟨fresh.2, ?_, ?_⟩
    · simp [shownAt, Ne.symm fresh.1]
    · simp [liveAt, Ne.symm fresh.1]

theorem Pending.update {before index : Index} (pending : Pending before index) {place : Nat}
    {row old : FileRow} (found : index.files[place]? = some old) (plain : PlainPath row.path) :
    Pending before { index with
      files := index.files.set place row
      dirtyPaths := (index.dirtyPaths.insert row.path).insert old.path } := by
  apply pending.rewrite
  · intro other member
    rcases mem_or_eq_of_mem_set member with stayed | rfl
    · exact pending.rows other stayed
    · exact plain
  · intro path member
    rcases mem_insert_iff.mp member with rfl | new
    · exact pending.rows old (mem_of_getElem? found)
    · rcases mem_insert_iff.mp new with rfl | earlier
      · exact plain
      · exact pending.recorded path earlier
  · intro path fresh
    rw [mem_insert_iff, mem_insert_iff, not_or, not_or] at fresh
    rcases fresh with ⟨notOld, notNew, unrecorded⟩
    refine ⟨unrecorded, any_set found ?_, any_set found ?_⟩
    · simp [Ne.symm notOld, Ne.symm notNew]
    · simp [Ne.symm notOld, Ne.symm notNew]

theorem Pending.amend {before index : Index} (pending : Pending before index) {place : Nat}
    {row old : FileRow} (found : index.files[place]? = some old) (path : row.path = old.path)
    (shown : row.shown = old.shown) (live : row.live = old.live) :
    Pending before { index with files := index.files.set place row } := by
  apply pending.rewrite
  · intro other member
    rcases mem_or_eq_of_mem_set member with stayed | rfl
    · exact pending.rows other stayed
    · rw [path]
      exact pending.rows old (mem_of_getElem? found)
  · exact pending.recorded
  · intro other fresh
    refine ⟨fresh, any_set found ?_, any_set found ?_⟩
    · rw [shown, path]
    · rw [live, path]

theorem Pending.delete {before index : Index} (pending : Pending before index) {place : Nat}
    {old : FileRow} (found : index.files[place]? = some old) :
    Pending before { index with
      files := index.files.eraseIdx place
      dirtyPaths := index.dirtyPaths.insert old.path } := by
  apply pending.rewrite
  · intro other member
    exact pending.rows other (mem_of_mem_eraseIdx member)
  · intro path member
    rcases mem_insert_iff.mp member with rfl | earlier
    · exact pending.rows old (mem_of_getElem? found)
    · exact pending.recorded path earlier
  · intro path fresh
    rw [mem_insert_iff, not_or] at fresh
    refine ⟨fresh.2, any_eraseIdx found ?_, any_eraseIdx found ?_⟩
    · simp [Ne.symm fresh.1]
    · simp [Ne.symm fresh.1]

theorem Pending.write {before index : Index} (pending : Pending before index) {step : TxStep}
    (recorded : step.Recorded) : Pending before (index.write step) := by
  cases step with
  | insert row => exact pending.insert recorded
  | update place row =>
    rw [Index.write]
    split
    · exact pending
    · rename_i old found
      exact pending.update found recorded
  | amend place contentSig versionSeq =>
    cases recorded
    rw [Index.write]
    split
    · exact pending
    · rename_i old found
      exact pending.amend found rfl rfl rfl
  | delete place =>
    rw [Index.write]
    split
    · exact pending
    · rename_i old found
      exact pending.delete found
  | enumerate parent =>
    exact ⟨pending.rows, pending.recorded, pending.shown, pending.live, pending.items,
      pending.dirs, pending.events, pending.revision⟩
  | publish item version =>
    refine ⟨pending.rows, pending.recorded, pending.shown, pending.live, ?_, pending.dirs,
      pending.events, pending.revision⟩
    intro other member live
    rcases mem_map.mp member with ⟨known, listed, rfl⟩
    split at live
    · rw [if_pos (by assumption)]
      exact pending.items known listed live
    · rw [if_neg (by assumption)]
      exact pending.items known listed live

theorem Pending.writes {before index : Index} (pending : Pending before index)
    {steps : List TxStep} (recorded : ∀ step ∈ steps, step.Recorded) :
    Pending before (steps.foldl Index.write index) := by
  induction steps generalizing index with
  | nil => exact pending
  | cons step rest induction =>
    exact induction (pending.write (recorded step mem_cons_self))
      fun other member => recorded other (.tail _ member)

/-! ## What the recorded paths do not reach -/

section Unreached

variable {before index : Index} {path : SyncPath}

theorem mem_ancestors_of_dirty (pending : Pending before index) {key : SyncPath}
    (recorded : key ∈ index.dirtyPaths) (above : key = path ∨ path ∈ properAncestors key) :
    path ∈ index.ancestors := by
  rw [Index.ancestors, mem_insertMany_list, List.contains_iff_mem, List.mem_flatMap]
  refine .inr ⟨key, mem_toList.mpr recorded, ?_⟩
  rcases above with rfl | above
  · exact self_mem_ancestorsFrom _ _
  · exact mem_ancestorsFrom (pending.recorded key recorded) (Nat.le_refl _) above

theorem shownUnder_iff_of_unreached (pending : Pending before index)
    (unreached : path ∉ index.ancestors) :
    ShownUnder index.files path ↔ ShownUnder before.files path := by
  have same : ∀ key, path ∈ properAncestors key →
      shownAt index.files key = shownAt before.files key := by
    intro key above
    apply pending.shown
    intro recorded
    exact unreached (mem_ancestors_of_dirty pending recorded (.inr above))
  constructor
  · rintro ⟨row, member, shown, above⟩
    have there := (same row.path above).symm.trans (shownAt_iff.mpr ⟨row, member, shown, rfl⟩)
    rcases shownAt_iff.mp there with ⟨other, listed, otherShown, samePath⟩
    exact ⟨other, listed, otherShown, samePath ▸ above⟩
  · rintro ⟨row, member, shown, above⟩
    have there := (same row.path above).trans (shownAt_iff.mpr ⟨row, member, shown, rfl⟩)
    rcases shownAt_iff.mp there with ⟨other, listed, otherShown, samePath⟩
    exact ⟨other, listed, otherShown, samePath ▸ above⟩

theorem liveUnder_of_unreached (pending : Pending before index)
    (unreached : path ∉ index.ancestors) (under : LiveUnder before.files path) :
    LiveUnder index.files path := by
  rcases under with ⟨row, member, live, above⟩
  have fresh : row.path ∉ index.dirtyPaths := by
    intro recorded
    exact unreached (mem_ancestors_of_dirty pending recorded above)
  have there := (pending.live row.path fresh).trans (liveAt_iff.mpr ⟨row, member, live, rfl⟩)
  rcases liveAt_iff.mp there with ⟨other, listed, otherLive, samePath⟩
  exact ⟨other, listed, otherLive, samePath ▸ above⟩

end Unreached

/-! ## The log -/

/-- What logging and bumping leave alone. -/
structure Carried (index next : Index) : Prop where
  files : next.files = index.files
  dirs : next.dirs = index.dirs
  dirtyPaths : next.dirtyPaths = index.dirtyPaths
  revision : next.namespaceRevision = index.namespaceRevision
  items : ∀ item ∈ next.items, item.live = true →
    ∃ known ∈ index.items, known.live = true ∧ known.path = item.path

theorem Carried.refl (index : Index) : Carried index index :=
  ⟨rfl, rfl, rfl, rfl, fun item member live => ⟨item, member, live, rfl⟩⟩

theorem Carried.trans {index middle next : Index} (first : Carried index middle)
    (second : Carried middle next) : Carried index next where
  files := second.files.trans first.files
  dirs := second.dirs.trans first.dirs
  dirtyPaths := second.dirtyPaths.trans first.dirtyPaths
  revision := second.revision.trans first.revision
  items item member live := by
    rcases second.items item member live with ⟨known, listed, knownLive, same⟩
    rcases first.items known listed knownLive with ⟨older, listed, olderLive, sameOlder⟩
    exact ⟨older, listed, olderLive, sameOlder.trans same⟩

/-- The events have the numbers from one to the last one used, in this order. -/
def Contiguous (logged : Index × Nat) : Prop :=
  logged.1.events.map (·.seq) = List.range' 1 logged.2

/-- Logging keeps the numbers without gaps, and never goes back. -/
structure Logs (logged next : Index × Nat) : Prop where
  carried : Carried logged.1 next.1
  contiguous : Contiguous logged → Contiguous next
  grows : logged.2 ≤ next.2

theorem Logs.refl (logged : Index × Nat) : Logs logged logged :=
  ⟨Carried.refl _, id, Nat.le_refl _⟩

theorem Logs.trans {logged middle next : Index × Nat} (first : Logs logged middle)
    (second : Logs middle next) : Logs logged next :=
  ⟨first.carried.trans second.carried, fun holds => second.contiguous (first.contiguous holds),
    first.grows.trans second.grows⟩

theorem logs_foldl {α : Type} {work : Index × Nat → α → Index × Nat}
    (one : ∀ logged item, Logs logged (work logged item)) (logged : Index × Nat) (items : List α) :
    Logs logged (items.foldl work logged) := by
  induction items generalizing logged with
  | nil => exact Logs.refl logged
  | cons item rest induction => exact (one logged item).trans (induction _)

theorem logs_logEvent (kind : ChangeKind) (logged : Index × Nat) (told : ItemId × SyncPath) :
    Logs logged (Index.logEvent kind logged told) := by
  refine ⟨⟨rfl, rfl, rfl, rfl, fun item member live => ⟨item, member, live, rfl⟩⟩, ?_,
    Nat.le_succ _⟩
  intro contiguous
  have numbers : logged.1.events.map (·.seq) = List.range' 1 logged.2 := contiguous
  rw [Contiguous, Index.logEvent, map_append, numbers, List.range'_1_concat,
    Nat.add_comm 1 logged.2]
  rfl

theorem carried_bumpAt (index : Index) (childSet : Bool) (folder : SyncPath) :
    Carried index (index.bumpAt childSet folder) := by
  refine ⟨rfl, rfl, rfl, rfl, ?_⟩
  intro other member live
  rcases mem_map.mp member with ⟨known, listed, rfl⟩
  refine ⟨known, listed, ?_⟩
  split at live
  · rw [if_pos (by assumption)]
    exact ⟨live, rfl⟩
  · rw [if_neg (by assumption)]
    exact ⟨live, rfl⟩

theorem logs_bumpItem (childSet : Bool) (logged : Index × Nat) (folder : SyncPath) :
    Logs logged (Index.bumpItem childSet logged folder) := by
  have bumped : Logs logged (logged.1.bumpAt childSet folder, logged.2) :=
    ⟨carried_bumpAt .., id, Nat.le_refl _⟩
  unfold Index.bumpItem
  split
  · exact Logs.refl logged
  · split
    · exact Logs.refl logged
    · split
      · exact bumped.trans (logs_logEvent ..)
      · exact bumped

theorem storeRevision_eq {logged : Index × Nat} (contiguous : Contiguous logged)
    (grows : logged.1.namespaceRevision ≤ logged.2) :
    logged.1.storeRevision logged.2 = some { logged.1 with namespaceRevision := logged.2 } := by
  rw [Index.storeRevision, if_neg]
  rintro ⟨_, differ⟩
  apply differ
  have counted : (logged.1.events.filter fun event =>
      logged.1.namespaceRevision < event.seq && event.seq ≤ logged.2).length =
      ((logged.1.events.map (·.seq)).filter fun seq =>
        logged.1.namespaceRevision < seq && seq ≤ logged.2).length := by
    rw [filter_map, length_map]
    rfl
  have numbers : logged.1.events.map (·.seq) = List.range' 1 logged.2 := contiguous
  have split : List.range' 1 logged.2 = List.range' 1 logged.1.namespaceRevision ++
      List.range' (1 + logged.1.namespaceRevision)
        (logged.2 - logged.1.namespaceRevision) := by
    rw [List.range'_append_1, Nat.add_sub_cancel' grows]
  rw [counted, numbers, split, filter_append, filter_eq_nil_iff.mpr,
    filter_eq_self.mpr, nil_append, length_range']
  · intro seq member
    rw [mem_range'_1] at member
    simp
    omega
  · intro seq member
    rw [mem_range'_1] at member
    simp
    omega

/-! ## The reconcile -/

/-- The directories are the proper ancestors of what is shown, each with its parent; every live
item has a live row at its path or below it; and the log has every number up to the revision. -/
structure Index.Exact (index : Index) : Prop where
  dirs : ∀ path parent, index.dirs[path]? = some parent ↔
    path ≠ "" ∧ parent = parentOf path ∧ ShownUnder index.files path
  items : ∀ item ∈ index.items, item.live = true → LiveUnder index.files item.path
  log : index.events.map (·.seq) = List.range' 1 index.namespaceRevision

section Reconciling

variable {before index : Index}

theorem mem_newDirs_iff (pending : Pending before index) {path : SyncPath} :
    path ∈ index.newDirs ↔ path ∈ index.ancestors ∧ path ≠ "" ∧ index.dirs[path]? = none ∧
      ShownUnder index.files path := by
  rw [Index.newDirs, mem_filter, mem_toList, Bool.and_eq_true, Bool.and_eq_true,
    shownBelow_iff pending.rows, Bool.not_eq_true', decide_eq_true_iff, and_assoc]
  have absent : index.dirs.contains path = false ↔ index.dirs[path]? = none := by
    rw [ExtTreeMap.contains_eq_isSome_getElem?, Option.isSome_eq_false_iff, Option.isNone_iff_eq_none]
  rw [absent]

theorem mem_vanished_iff (pending : Pending before index) {path : SyncPath} :
    path ∈ index.vanished ↔ path ∈ index.ancestors ∧ ¬ShownUnder index.files path := by
  rw [Index.vanished, mem_filter, mem_toList, Bool.not_eq_true',
    ← Bool.not_eq_true, shownBelow_iff pending.rows]

theorem updateDirs_exact (pending : Pending before index)
    (exact_ : ∀ path parent, before.dirs[path]? = some parent ↔
      path ≠ "" ∧ parent = parentOf path ∧ ShownUnder before.files path)
    (path parent : SyncPath) :
    index.updateDirs.dirs[path]? = some parent ↔
      path ≠ "" ∧ parent = parentOf path ∧ ShownUnder index.files path := by
  have known := exact_ path
  rw [← pending.dirs] at known
  rw [Index.updateDirs, OrderedMap.getElem?_foldl_erase, map_id', Index.withNewDirs,
    OrderedMap.getElem?_foldl_insert]
  by_cases reached : path ∈ index.ancestors
  · by_cases under : ShownUnder index.files path
    · rcases under with ⟨row, member, shown, above⟩
      rcases (pending.rows row member).ancestor above with ⟨plain, nonempty⟩
      have under : ShownUnder index.files path := ⟨row, member, shown, above⟩
      have stays : path ∉ index.vanished := by
        rw [mem_vanished_iff pending]
        exact fun gone => gone.2 under
      have listed : (if path ∈ index.newDirs then some (parentPath path) else index.dirs[path]?) =
          some (parentOf path) := by
        split
        · rw [parentPath_eq_parentOf plain]
        · rename_i old
          cases found : index.dirs[path]? with
          | none => exact absurd ((mem_newDirs_iff pending).mpr ⟨reached, nonempty, found, under⟩) old
          | some stored => rw [((known stored).mp found).2.1]
      rw [if_neg stays, listed]
      constructor
      · intro same
        exact ⟨nonempty, (Option.some.inj same).symm, under⟩
      · intro both
        exact congrArg some both.2.1.symm
    · rw [if_pos ((mem_vanished_iff pending).mpr ⟨reached, under⟩)]
      constructor
      · intro kept
        cases kept
      · intro both
        exact absurd both.2.2 under
  · have old : path ∉ index.newDirs := fun new => reached ((mem_newDirs_iff pending).mp new).1
    have stays : path ∉ index.vanished := fun gone => reached ((mem_vanished_iff pending).mp gone).1
    rw [if_neg stays, if_neg old, known, shownUnder_iff_of_unreached pending reached]

theorem liveUnder_of_not_retired (pending : Pending before index)
    (live : ∀ item ∈ before.items, item.live = true → LiveUnder before.files item.path)
    {item : ProviderItem} (member : item ∈ index.items) (itemLive : item.live = true)
    (stays : index.retires item = false) : LiveUnder index.files item.path := by
  by_cases reached : item.path ∈ index.ancestors
  · apply liveUnder_of_live pending.rows
    by_contra neither
    rw [not_or, Bool.not_eq_true, Bool.not_eq_true] at neither
    rw [Index.retires, itemLive, neither.1, neither.2, contains_iff_mem.mpr reached] at stays
    cases stays
  · rcases pending.items item member itemLive with ⟨known, listed, knownLive, same⟩
    exact liveUnder_of_unreached pending reached (same ▸ live known listed knownLive)

theorem mem_retire {item : ProviderItem} (member : item ∈ index.retire.items)
    (live : item.live = true) : item ∈ index.items ∧ index.retires item = false := by
  rcases mem_map.mp member with ⟨known, listed, rfl⟩
  split at live
  · cases live
  · rename_i stays
    rw [if_neg stays]
    exact ⟨listed, Bool.eq_false_iff.mpr stays⟩

theorem liveUnder_of_minted {dirs : List SyncPath}
    (under : ∀ path ∈ dirs, LiveUnder index.files path) {randomblob : Nat → ItemId}
    {minted : List ProviderItem} (mints : index.mint dirs randomblob = some minted)
    {item : ProviderItem} (member : item ∈ minted) : LiveUnder index.files item.path := by
  rw [Index.mint] at mints
  split at mints
  · cases mints
    rcases List.mem_map.mp member with ⟨place, listed, rfl⟩
    have mintable : place.1 ∈ index.mintable dirs := by
      rw [← List.zipIdx_map_fst 0 (index.mintable dirs)]
      exact List.mem_map_of_mem listed
    have new : place.1 ∈ index.newPaths dirs := (List.mem_filter.mp mintable).1
    rw [Index.newPaths, mem_toList, mem_insertMany_list,
      List.contains_iff_mem, List.mem_append] at new
    rcases new with nothing | recorded | structural
    · simp at nothing
    · rcases shownAt_iff.mp (List.mem_filter.mp recorded).2 with ⟨row, inFiles, shown, same⟩
      exact ⟨row, inFiles, FileRow.live_of_shown shown, .inl same⟩
    · exact under place.1 structural
  · cases mints

theorem Pending.settle (pending : Pending before index) (retired : Nat) :
    Pending before (index.retire.settleRetired retired) where
  rows := pending.rows
  recorded := pending.recorded
  shown := pending.shown
  live := pending.live
  items item member live := pending.items item (mem_retire member live).1 live
  dirs := pending.dirs
  events := pending.events
  revision := pending.revision

/-- With the ids drawn, the reconcile of the namespace comes to its end, and leaves the index
exact. -/
theorem reconcileNamespace_exact (pending : Pending before index)
    (dirs : ∀ path parent, before.dirs[path]? = some parent ↔
      path ≠ "" ∧ parent = parentOf path ∧ ShownUnder before.files path)
    (items : ∀ item ∈ index.items, item.live = true → LiveUnder index.files item.path)
    (log : index.events.map (·.seq) = List.range' 1 index.namespaceRevision)
    (retiring : List ProviderItem) {randomblob : Nat → ItemId} {minted : List ProviderItem}
    (mints : index.updateDirs.mint index.newDirs randomblob = some minted) :
    ∃ next, index.reconcileNamespace retiring randomblob = some next ∧ next.Exact ∧
      next.files = index.files := by
  have structural : ∀ path ∈ index.newDirs, LiveUnder index.updateDirs.files path :=
    fun path new => ((mem_newDirs_iff pending).mp new).2.2.2.liveUnder
  let withItems : Index := { index.updateDirs with items := index.updateDirs.items ++ minted }
  let start : Index × Nat := (withItems, index.namespaceRevision)
  let created := (minted.map fun item => (item.itemId, item.parentPath)).foldl
    (Index.logEvent .upsert) start
  let removed := (created.1.retiredTold retiring).foldl (Index.logEvent .delete) created
  let bumped := index.childChanges.dedup.foldl (Index.bumpItem true) removed
  have logs : Logs start bumped :=
    ((logs_foldl (logs_logEvent .upsert) start _).trans
      (logs_foldl (logs_logEvent .delete) created _)).trans
      (logs_foldl (logs_bumpItem true) removed _)
  have contiguous : Contiguous bumped := logs.contiguous log
  have stored := storeRevision_eq contiguous (by rw [logs.carried.revision]; exact logs.grows)
  refine ⟨{ bumped.1 with namespaceRevision := bumped.2 }, ?_, ⟨?_, ?_, contiguous⟩,
    logs.carried.files⟩
  · rw [Index.reconcileNamespace]
    dsimp only
    rw [mints]
    exact stored
  · intro path parent
    dsimp only
    rw [logs.carried.dirs, logs.carried.files]
    exact updateDirs_exact pending dirs path parent
  · intro item member live
    dsimp only at member ⊢
    rw [logs.carried.files]
    rcases logs.carried.items item member live with ⟨known, listed, knownLive, same⟩
    rw [← same]
    rcases mem_append.mp listed with old | new
    · exact items known old knownLive
    · exact liveUnder_of_minted structural mints new

def FreshIds (index : Index) (randomblob : Nat → ItemId) : Prop :=
  let settled := index.retire.settleRetired (index.items.filter index.retires).length
  (settled.updateDirs.mint settled.newDirs randomblob).isSome

theorem reconcileLiveness_exact (exact_ : before.Exact) (pending : Pending before index)
    {randomblob : Nat → ItemId} (recorded : index.dirtyPaths.isEmpty = false)
    (fresh : FreshIds index randomblob) :
    ∃ next, index.reconcileLiveness randomblob = some next ∧ next.Exact ∧
      next.files = index.files ∧ next.dirtyPaths = ∅ := by
  rcases Option.isSome_iff_exists.mp fresh with ⟨minted, mints⟩
  have settled := pending.settle (index.items.filter index.retires).length
  have log : index.events.map (·.seq) = List.range' 1 index.namespaceRevision := by
    rw [pending.events, pending.revision]
    exact exact_.log
  rcases reconcileNamespace_exact settled exact_.dirs
    (fun item member live => liveUnder_of_not_retired pending exact_.items
      (mem_retire member live).1 live (mem_retire member live).2)
    log (index.items.filter index.retires) mints with ⟨next, ran, nextExact, sameFiles⟩
  refine ⟨{ next.demote with dirtyPaths := ∅ }, ?_, ⟨nextExact.dirs, nextExact.items,
    nextExact.log⟩, sameFiles, rfl⟩
  rw [Index.reconcileLiveness, recorded, if_neg Bool.false_ne_true]
  dsimp only
  rw [ran]
  rfl

theorem exact_of_unrecorded (exact_ : before.Exact) (pending : Pending before index)
    (unrecorded : index.dirtyPaths = ∅) : index.Exact := by
  have unreached : ∀ path, path ∉ index.ancestors := by
    intro path
    rw [Index.ancestors, unrecorded]
    simp
  refine ⟨?_, ?_, ?_⟩
  · intro path parent
    rw [pending.dirs, exact_.dirs, shownUnder_iff_of_unreached pending (unreached path)]
  · intro item member live
    rcases pending.items item member live with ⟨known, listed, knownLive, same⟩
    exact liveUnder_of_unreached pending (unreached _) (same ▸ exact_.items known listed knownLive)
  · rw [pending.events, pending.revision]
    exact exact_.log

theorem reconcileLiveness_eq_none {randomblob : Nat → ItemId}
    (recorded : index.dirtyPaths.isEmpty = false) (taken : ¬FreshIds index randomblob) :
    index.reconcileLiveness randomblob = none := by
  have none : (index.retire.settleRetired (index.items.filter index.retires).length).updateDirs.mint
      (index.retire.settleRetired (index.items.filter index.retires).length).newDirs randomblob =
      none := Option.not_isSome_iff_eq_none.mp taken
  rw [Index.reconcileLiveness, recorded, if_neg Bool.false_ne_true]
  dsimp only
  rw [Index.reconcileNamespace]
  dsimp only
  rw [none]
  rfl

end Reconciling

/-! ## Transactions -/

/-- Between transactions: the index is exact, the rows have plain paths and nothing is recorded. -/
structure Index.Settled (index : Index) : Prop where
  exact : index.Exact
  rows : ∀ row ∈ index.files, PlainPath row.path
  unrecorded : index.dirtyPaths = ∅

theorem settled_declared {files : List FileRow} (rows : ∀ row ∈ files, PlainPath row.path)
    (dead : ∀ row ∈ files, row.live = false) : (declared files).Settled := by
  refine ⟨⟨?_, ?_, rfl⟩, rows, rfl⟩
  · intro path parent
    constructor
    · intro found
      simp [declared] at found
    · rintro ⟨_, _, row, member, shown, _⟩
      rw [FileRow.shown, dead row member] at shown
      cases shown
  · intro item member
    cases member

/-- A transaction that draws fresh ids, or records nothing, commits what it wrote; any other
rolls back. The index is exact afterwards. -/
theorem Index.Settled.transact {index : Index} (settled : index.Settled) {steps : List TxStep}
    (recorded : ∀ step ∈ steps, step.Recorded) (randomblob : Nat → ItemId) :
    (index.transact steps randomblob).Settled ∧
      (FreshIds (steps.foldl Index.write index) randomblob →
        (index.transact steps randomblob).files = (steps.foldl Index.write index).files) := by
  have pending := (Pending.refl settled.rows settled.unrecorded).writes recorded
  cases empty : (steps.foldl Index.write index).dirtyPaths.isEmpty with
  | true =>
    have unrecorded : (steps.foldl Index.write index).dirtyPaths = ∅ :=
      isEmpty_iff.mp empty
    have same : index.transact steps randomblob = steps.foldl Index.write index := by
      rw [Index.transact, Index.reconcileLiveness, if_pos empty]
      rfl
    rw [same]
    exact ⟨⟨exact_of_unrecorded settled.exact pending unrecorded, pending.rows, unrecorded⟩,
      fun _ => rfl⟩
  | false =>
    by_cases fresh : FreshIds (steps.foldl Index.write index) randomblob
    · rcases reconcileLiveness_exact settled.exact pending empty fresh with
        ⟨next, ran, nextExact, sameFiles, unrecorded⟩
      have same : index.transact steps randomblob = next := by
        rw [Index.transact, ran]
        rfl
      rw [same]
      exact ⟨⟨nextExact, sameFiles ▸ pending.rows, unrecorded⟩, fun _ => sameFiles⟩
    · have same : index.transact steps randomblob = index := by
        rw [Index.transact, reconcileLiveness_eq_none empty fresh]
        rfl
      rw [same]
      exact ⟨settled, fun drawn => absurd drawn fresh⟩

theorem settled_runAll {index : Index} (settled : index.Settled) {transactions : List Transaction}
    (recorded : ∀ transaction ∈ transactions, ∀ step ∈ transaction.steps, step.Recorded) :
    (runAll index transactions).Settled := by
  induction transactions generalizing index with
  | nil => exact settled
  | cons transaction rest induction =>
    exact induction (settled.transact (recorded transaction mem_cons_self) _).1
      fun other member => recorded other (.tail _ member)

/-- After any transactions over the rows of a group that had no live row when its root was
declared, the index is exact; and a further transaction fails only over an id that is taken. -/
theorem provider_index_exact {files : List FileRow} (rows : ∀ row ∈ files, PlainPath row.path)
    (dead : ∀ row ∈ files, row.live = false) {transactions : List Transaction}
    (recorded : ∀ transaction ∈ transactions, ∀ step ∈ transaction.steps, step.Recorded) :
    (runAll (declared files) transactions).Exact ∧
      ∀ steps randomblob, (∀ step ∈ steps, step.Recorded) →
        FreshIds (steps.foldl Index.write (runAll (declared files) transactions)) randomblob →
        ((runAll (declared files) transactions).transact steps randomblob).files =
          (steps.foldl Index.write (runAll (declared files) transactions)).files := by
  have settled := settled_runAll (settled_declared rows dead) recorded
  refine ⟨settled.exact, ?_⟩
  intro steps randomblob stepsRecorded
  exact (settled.transact stepsRecorded randomblob).2

/-- A file in a folder: the folder is listed, under the root. -/
theorem provider_index_exact_one_file :
    (runAll (declared []) [⟨[.enumerate [], .insert ⟨"d/x", .current, false, 1, ""⟩],
      fun place => [place.toUInt8]⟩]).dirs["d"]? = some "" := by
  have recorded : ∀ transaction ∈ [(⟨[.enumerate [], .insert ⟨"d/x", .current, false, 1, ""⟩],
      fun place => [place.toUInt8]⟩ : Transaction)], ∀ step ∈ transaction.steps,
      step.Recorded := by
    intro transaction member step listed
    rw [List.mem_singleton.mp member] at listed
    rcases List.mem_cons.mp listed with rfl | listed
    · trivial
    · rw [List.mem_singleton.mp listed]
      show PlainPath "d/x"
      unfold PlainPath
      decide
  refine ((provider_index_exact (by simp) (by simp) recorded).1.dirs "d" "").mpr ?_
  refine ⟨by decide, by decide, ⟨"d/x", .current, false, 1, ""⟩, ?_, by decide, by decide⟩
  decide

/-- A scaffold row that gets a sequence number by itself is shown, and its folder is not listed;
nor is the folder that a path with an empty component has above it. -/
theorem unrecorded_row_unlisted :
    ¬(runAll (declared []) [⟨[.insert ⟨"d/x", .current, false, 0, ""⟩], fun _ => []⟩,
      ⟨[.amend 0 "" (some 1)], fun _ => []⟩]).Exact ∧
    ¬(runAll (declared []) [⟨[.insert ⟨"d//x", .current, false, 1, ""⟩], fun _ => []⟩]).Exact := by
  constructor
  · intro exact_
    have listed := (exact_.dirs "d" "").mpr
      ⟨by decide, by decide, ⟨"d/x", .current, false, 1, ""⟩, by decide, by decide, by decide⟩
    revert listed
    decide
  · intro exact_
    have listed := (exact_.dirs "d/" "d").mpr
      ⟨by decide, by decide, ⟨"d//x", .current, false, 1, ""⟩, by decide, by decide, by decide⟩
    revert listed
    decide

end Yadorilink.ProviderIndex
