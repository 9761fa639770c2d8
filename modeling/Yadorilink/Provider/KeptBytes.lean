import Yadorilink.Provider.Epochs
import Yadorilink.Provider.AtMostOnce

/-! No refusal loses the bytes of an edit. Bytes that the first transaction refuses are decided
again by a second one, which keeps them under a name of their own; and no write replaces a row
that was there before, except the edit of an item that the trust predicate lets through. -/

namespace Yadorilink.Provider

open Std Fallible ExtTreeMap Option OperationTables

variable {content : ContentInput} {input : ApplyInput}

namespace ProviderDb

variable {N : Type} {env : WritePath N} {draw : List ProviderItem → ItemId}
  {after db : ProviderDb N} {path source target : SyncPath} {result : Stored × ProviderDb N}
  {version current : FileVersion} {rows : ExtTreeMap SyncPath FileVersion}
  {moving : List (SyncPath × FileVersion)} {shown : SyncPath × FileVersion → VersionHash}
  {put : SyncPath × FileVersion → FileVersion} {base : VersionHash}

/-- The rows that were live before are live still, as they were. -/
def Spares (before after : ProviderDb N) : Prop :=
  ∀ (path : SyncPath) (version : FileVersion), before.rows[path]? = some version →
    after.rows[path]? = some version

/-- Some live path holds a file of exactly these bytes. -/
def Holds (db : ProviderDb N) (content : ContentInput) : Prop :=
  ∃ (path : SyncPath) (version : FileVersion), db.rows[path]? = some version ∧
    version.fileMeta.recordKind = .file ∧ version.blocks = content.blocks ∧ version.size = content.size

theorem Spares.of_rows {before : ProviderDb N} (rows : after.rows = before.rows) :
    Spares before after := by
  intro path version shown
  rw [rows]
  exact shown

theorem Spares.trans {first second third : ProviderDb N} (one : Spares first second)
    (two : Spares second third) : Spares first third :=
  fun path version shown => two path version (one path version shown)

theorem Holds.later (holds : db.Holds content) (spares : Spares db after) :
    after.Holds content := by
  rcases holds with ⟨path, version, shown, same⟩
  exact ⟨path, version, spares path version shown, same⟩

/-! ## Writes that leave the rows alone -/

theorem rows_mintItem {result : ItemId × ProviderDb N}
    (minted : db.mintItem draw path = .ok result) : result.2.rows = db.rows := by
  rcases mintItem_eq_ok minted with ⟨_, _, _, same⟩ | ⟨_, _, same⟩
  · rw [same]
  · rw [same]

theorem rows_mintParent {result : Option ItemId × ProviderDb N}
    (minted : db.mintParent draw path = .ok result) : result.2.rows = db.rows := by
  rw [mintParent] at minted
  split at minted
  · cases minted
    rfl
  · rcases bind_eq_ok_iff.mp minted with ⟨one, made, rest⟩
    cases rest
    exact rows_mintItem made

theorem rows_appliedItem {id : ItemId} {expect : Option VersionHash}
    {result : AppliedItem × ProviderDb N}
    (applied : db.appliedItem env draw id expect = .ok result) : result.2.rows = db.rows := by
  rw [appliedItem] at applied
  split at applied
  · cases applied
  · split at applied
    · cases applied
    · rcases bind_eq_ok_iff.mp applied with ⟨parent, made, rest⟩
      cases rest
      exact rows_mintParent made

theorem rows_noteChildSetChange (db : ProviderDb N) (folder : SyncPath) :
    (db.noteChildSetChange folder).rows = db.rows := by
  rw [noteChildSetChange]
  split <;> rfl

theorem rows_renameTree (renamed : db.renameTree source target = .ok after) :
    after.rows = db.rows := by
  rw [renameTree] at renamed
  dsimp only at renamed
  split at renamed
  · cases renamed
    rfl
  · split at renamed
    · cases renamed
    · split at renamed
      · cases renamed
        rw [rows_noteChildSetChange, rows_noteChildSetChange]
      · cases renamed
        rfl

/-! ## Commits -/

theorem rows_commitOneGroup {mutations : List LocalMutation}
    (committed : db.commitOneGroup env mutations = .ok after) :
    after.rows = applyRows db.rows mutations := by
  rw [commitOneGroup] at committed
  split at committed
  · cases committed
  · cases committed
    rfl

theorem rows_commitRecursiveOperation {kind : RecursiveOperationKind}
    {mutations : List LocalMutation}
    (committed : db.commitRecursiveOperation env kind mutations = .ok after) :
    after.rows = applyRows db.rows mutations := by
  rcases bind_eq_ok_iff.mp committed with ⟨renamed, rename, rest⟩
  have rows : renamed.rows = db.rows := by
    cases kind with
    | renameTree source target => exact rows_renameTree rename
    | rmTree root =>
      cases rename
      rfl
  split at rest
  · cases rest
  · cases rest
    rw [← rows]
    rfl

/-! ## New files -/

theorem row_of_checkDestination (free : db.checkDestination env path none = .ok ()) :
    db.rows[path]? = none := by
  cases shown : db.rows[path]? with
  | none => rfl
  | some version =>
    have listed : (path, version) ∈ db.liveRowsUnder path := by
      refine List.mem_filter.mpr ⟨mem_toList_iff_getElem?_eq_some.mpr shown, ?_⟩
      rw [atOrBelow, beq_self_eq_true, Bool.true_or]
    rw [liveRowsUnder_of_checkDestination free] at listed
    exact absurd listed List.not_mem_nil

theorem authorNew_spec {result : ItemId × ProviderDb N}
    (free : db.checkDestination env path none = .ok ())
    (authored : db.authorNew env draw path version = .ok result) :
    Spares db result.2 ∧ result.2.rows[path]? = some version := by
  rcases bind_eq_ok_iff.mp authored with ⟨written, commits, rest⟩
  rcases bind_eq_ok_iff.mp rest with ⟨minted, mints, rest⟩
  cases rest
  have rows : ((minted.2.setPublished env minted.1 version false).noteChildSetChange
      (splitParent path).1).rows = db.rows.insert path version := by
    rw [rows_noteChildSetChange]
    exact (rows_mintItem mints).trans (rows_commitOneGroup commits)
  constructor
  · intro other shown before
    rw [rows, getElem?_insert]
    split
    · rename_i same
      rw [← LawfulEqCmp.eq_of_compare same, row_of_checkDestination free] at before
      cases before
    · exact before
  · rw [rows, getElem?_insert_self]

/-! ## Copies -/

theorem kept_of_findPlace {sig : List Char} {candidates : List SyncPath}
    (found : db.findPlace env sig candidates = some (.kept path)) :
    ∃ existing, db.rows[path]? = some existing ∧ existing.keptEditSemanticKey = sig := by
  induction candidates with
  | nil => cases found
  | cons candidate rest induction =>
    rw [findPlace] at found
    split at found
    · rename_i existing shown
      split at found
      · rename_i same
        cases found
        exact ⟨existing, shown, same⟩
      · exact induction found
    · split at found
      · cases found
      · exact induction found

theorem holds_of_key {existing : FileVersion} (shown : db.rows[path]? = some existing)
    (same : existing.keptEditSemanticKey = version.keptEditSemanticKey)
    (file : version.fileMeta.recordKind = .file) (blocks : version.blocks = content.blocks)
    (size : version.size = content.size) : db.Holds content := by
  rcases FileVersion.contentSig_append_inj same with ⟨sizes, kinds, allBlocks⟩
  exact ⟨path, existing, shown, kinds.trans file, allBlocks.trans blocks, sizes.trans size⟩

theorem authorCopy_spec {result : ItemId × ProviderDb N}
    (file : version.fileMeta.recordKind = .file) (blocks : version.blocks = content.blocks)
    (size : version.size = content.size)
    (copied : db.authorCopy env draw source version = .ok result) :
    Spares db result.2 ∧ result.2.Holds content := by
  rcases authorCopy_eq_ok copied with
    ⟨names, ⟨path, found, mints⟩ | ⟨path, authored, parent, found, authors, mints, rfl⟩⟩
  · rcases kept_of_findPlace found with ⟨existing, shown, same⟩
    have spares := Spares.of_rows (rows_mintItem mints)
    exact ⟨spares, (holds_of_key shown same file blocks size).later spares⟩
  · rcases authorNew_spec (free_of_findPlace found) authors with ⟨spares, shown⟩
    have later : Spares authored.2 parent.2 := .of_rows (rows_mintParent mints)
    exact ⟨spares.trans later, path, version, later path version shown, file, blocks, size⟩

theorem keepBeside_spec {id : ItemId} (carries : input.content = some content)
    (shown : db.rows[source]? = some current)
    (keeps : db.keepBeside env draw input id source current = .ok result) :
    Spares db result.2 ∧ result.2.Holds content := by
  rw [keepBeside] at keeps
  split at keeps
  · cases keeps
  · rename_i kept bytes
    rcases filter_eq_some_iff.mp bytes with ⟨same, _⟩
    rw [carries] at same
    cases same
    rcases bind_eq_ok_iff.mp keeps with ⟨copied, copies, rest⟩
    rcases bind_eq_ok_iff.mp rest with ⟨applied, applies, rest⟩
    cases rest
    have later : Spares copied applied.2 := .of_rows (rows_appliedItem applies)
    have first : Spares db copied ∧ copied.Holds content := by
      rw [copyUnlessSame] at copies
      split at copies
      · rename_i same
        cases copies
        exact ⟨.of_rows rfl, holds_of_key shown same.symm rfl rfl rfl⟩
      · rcases bind_eq_ok_iff.mp copies with ⟨made, authors, rest⟩
        cases rest
        exact authorCopy_spec rfl rfl rfl authors
    exact ⟨first.1.trans later, first.2.later later⟩

theorem keepRefusedBytes_spec (carries : input.content = some content)
    (keeps : db.keepRefusedBytes env draw input = .ok result) :
    Spares db result.2 ∧ result.2.Holds content := by
  rw [keepRefusedBytes, carries] at keeps
  dsimp only at keeps
  split at keeps
  · rename_i file found
    rcases bind_eq_some_iff.mp found with ⟨item, _, rest⟩
    rcases bind_eq_some_iff.mp rest with ⟨current, shows, rest⟩
    cases rest
    exact keepBeside_spec carries (filter_eq_some_iff.mp shows).1 keeps
  · rcases bind_eq_ok_iff.mp keeps with ⟨copied, copies, rest⟩
    rcases bind_eq_ok_iff.mp rest with ⟨applied, applies, rest⟩
    cases rest
    rcases authorCopy_spec rfl rfl rfl copies with ⟨spares, holds⟩
    have later : Spares copied.2 applied.2 := .of_rows (rows_appliedItem applies)
    exact ⟨spares.trans later, holds.later later⟩

/-! ## What the second decision never answers -/

def Final {α : Type} (result : Except ApplyError α) : Prop :=
  ∀ error, result = .error error → error.keepsBytes = false

theorem Final.ok {α : Type} (value : α) : Final (.ok value : Except ApplyError α) := by
  intro error failed
  cases failed

theorem Final.error {α : Type} {error : ApplyError} (final : error.keepsBytes = false) :
    Final (.error error : Except ApplyError α) := by
  intro other failed
  cases failed
  exact final

theorem Final.bind {α β : Type} {first : Except ApplyError α} {next : α → Except ApplyError β}
    (one : Final first) (two : ∀ value, first = .ok value → Final (next value)) :
    Final (first >>= next) := by
  cases first with
  | error error => exact .error (one error rfl)
  | ok value => exact two value rfl

theorem final_mintItem (db : ProviderDb N) (path : SyncPath) : Final (db.mintItem draw path) := by
  rw [mintItem]
  split
  · exact .ok _
  · dsimp only
    split
    · exact .error rfl
    · exact .ok _

theorem final_mintParent (db : ProviderDb N) (path : SyncPath) :
    Final (db.mintParent draw path) := by
  rw [mintParent]
  split
  · exact .ok _
  · exact (final_mintItem db _).bind fun _ _ => .ok _

theorem final_appliedItem (db : ProviderDb N) (id : ItemId) (expect : Option VersionHash) :
    Final (db.appliedItem env draw id expect) := by
  rw [appliedItem]
  split
  · exact .error rfl
  · split
    · exact .error rfl
    · exact (final_mintParent db _).bind fun _ _ => .ok _

theorem final_authorNew (db : ProviderDb N) (path : SyncPath) (version : FileVersion) :
    Final (db.authorNew env draw path version) := by
  refine Final.bind ?_ fun written _ => (final_mintItem written path).bind fun _ _ => .ok _
  rw [commitOneGroup]
  split
  · exact .error rfl
  · exact .ok _

theorem final_authorCopy (db : ProviderDb N) (source : SyncPath) (version : FileVersion) :
    Final (db.authorCopy env draw source version) := by
  rw [authorCopy]
  split
  · exact .error rfl
  · exact final_mintItem db _
  · exact (final_authorNew db _ _).bind fun authored _ =>
      (final_mintParent authored.2 _).bind fun _ _ => .ok _

theorem final_keepBeside (db : ProviderDb N) (id : ItemId) (source : SyncPath)
    (carries : input.content = some content) (file : current.fileMeta.recordKind = .file) :
    Final (db.keepBeside env draw input id source current) := by
  rw [keepBeside, carries, file, filter_some, beq_self_eq_true, if_pos rfl]
  refine Final.bind ?_ fun copied _ => (final_appliedItem copied id none).bind fun _ _ => .ok _
  rw [copyUnlessSame]
  split
  · exact .ok _
  · exact (final_authorCopy db source _).bind fun _ _ => .ok _

theorem final_keepRefusedBytes (db : ProviderDb N) (carries : input.content = some content) :
    Final (db.keepRefusedBytes env draw input) := by
  rw [keepRefusedBytes, carries]
  dsimp only
  split
  · rename_i file found
    rcases bind_eq_some_iff.mp found with ⟨item, _, rest⟩
    rcases bind_eq_some_iff.mp rest with ⟨current, shows, rest⟩
    cases rest
    have kind := (filter_eq_some_iff.mp shows).2
    exact final_keepBeside db _ _ carries (beq_iff_eq.mp kind)
  · exact (final_authorCopy db _ _).bind fun copied _ =>
      (final_appliedItem copied.2 copied.1 none).bind fun _ _ => .ok _

/-! ## Create -/

theorem holds_of_satisfied {existing : FileVersion} (carries : input.content = some content)
    (file : input.entryKind = .file) (shown : db.rows[path]? = some existing)
    (satisfied : createIsAlreadySatisfied input existing = true) : db.Holds content := by
  rw [createIsAlreadySatisfied, file, carries] at satisfied
  simp only [Bool.and_eq_true, beq_iff_eq] at satisfied
  exact ⟨path, existing, shown, satisfied.1.1.1, satisfied.1.2, satisfied.1.1.2⟩

theorem create_spec (carries : input.content = some content) (file : input.entryKind = .file)
    (created : db.create env draw input = .ok result) :
    Spares db result.2 ∧ result.2.Holds content := by
  rcases bind_eq_ok_iff.mp created with ⟨path, _, rest⟩
  split at rest
  · rename_i satisfied
    rcases bind_eq_ok_iff.mp rest with ⟨minted, mints, rest⟩
    rcases bind_eq_ok_iff.mp rest with ⟨applied, applies, rest⟩
    cases rest
    have spares : Spares db applied.2 :=
      .of_rows ((rows_appliedItem applies).trans (rows_mintItem mints))
    cases shown : db.rows[path]? with
    | none =>
      rw [shown] at satisfied
      cases satisfied
    | some existing =>
      rw [shown] at satisfied
      exact ⟨spares, (holds_of_satisfied carries file shown satisfied).later spares⟩
  · rcases bind_eq_ok_iff.mp rest with ⟨_, free, rest⟩
    rcases bind_eq_ok_iff.mp rest with ⟨version, made, rest⟩
    rcases bind_eq_ok_iff.mp rest with ⟨authored, authors, rest⟩
    rcases bind_eq_ok_iff.mp rest with ⟨applied, applies, rest⟩
    cases rest
    rw [createdVersion, file, carries] at made
    cases made
    rcases authorNew_spec free authors with ⟨spares, shown⟩
    have later : Spares authored.2 applied.2 := .of_rows (rows_appliedItem applies)
    exact ⟨spares.trans later, path, _, later path _ shown, rfl, rfl, rfl⟩

/-! ## Renames -/

theorem atOrBelow_iff {other : SyncPath} :
    atOrBelow path other = true ↔
      ∃ rest, other.toList = path.toList ++ rest ∧ (rest = [] ∨ ∃ char more,
        rest = '/' :: char :: more) := by
  have ends : (path ++ "/").toList = path.toList ++ ['/'] := by
    rw [String.toList_append]
    rfl
  rw [atOrBelow, below, Bool.or_eq_true, Bool.and_eq_true, beq_iff_eq, List.isPrefixOf_iff_prefix,
    bne_iff_ne]
  constructor
  · rintro (same | ⟨⟨rest, joined⟩, longer⟩)
    · exact ⟨[], by rw [same, List.append_nil], .inl rfl⟩
    · rw [List.append_assoc] at joined
      refine ⟨'/' :: rest, joined.symm, .inr ?_⟩
      cases rest with
      | nil =>
        rw [List.append_nil, ← ends] at joined
        exact absurd (String.toList_inj.mp joined).symm longer
      | cons char more => exact ⟨char, more, rfl⟩
  · rintro ⟨rest, joined, rfl | ⟨char, more, rfl⟩⟩
    · rw [List.append_nil] at joined
      exact .inl (String.toList_inj.mp joined)
    · refine .inr ⟨⟨char :: more, by rw [joined, List.append_assoc]; rfl⟩, ?_⟩
      intro same
      rw [← String.toList_inj, ends, joined] at same
      have lengths := congrArg List.length same
      simp at lengths

theorem toList_moved {rest : List Char} (joined : path.toList = source.toList ++ rest) :
    (moved source target path).toList = target.toList ++ rest := by
  rw [moved, String.toList_append, String.toList_ofList, joined, List.drop_left]

theorem atOrBelow_moved (target : SyncPath) (under : atOrBelow source path = true) :
    atOrBelow target (moved source target path) = true := by
  rcases atOrBelow_iff.mp under with ⟨rest, joined, shape⟩
  exact atOrBelow_iff.mpr ⟨rest, toList_moved joined, shape⟩

theorem moved_ne (under : atOrBelow source path = true) (other : path ≠ source) :
    moved source target path ≠ target := by
  rcases atOrBelow_iff.mp under with ⟨rest, joined, rfl | ⟨char, more, rfl⟩⟩
  · rw [List.append_nil] at joined
    exact absurd (String.toList_inj.mp joined) other
  · intro same
    rw [← String.toList_inj, toList_moved joined] at same
    have lengths := congrArg List.length same
    simp at lengths

theorem moved_self (source target : SyncPath) : moved source target source = target := by
  rw [← String.toList_inj, toList_moved (List.append_nil _).symm, List.append_nil]

theorem applyRows_append (rows : ExtTreeMap SyncPath FileVersion)
    (first second : List LocalMutation) :
    applyRows rows (first ++ second) = applyRows (applyRows rows first) second :=
  List.foldl_append ..

theorem getElem?_applyRows_moves {atNs : Int}
    (elsewhere : ∀ row ∈ moving, row.1 ≠ path ∧ moved source target row.1 ≠ path) :
    (applyRows rows (moving.flatMap fun row =>
      [.delete row.1 (shown row) atNs, .upsert (moved source target row.1) (put row) none]))[path]? =
      rows[path]? := by
  induction moving generalizing rows with
  | nil => rfl
  | cons row rest induction =>
    rw [List.flatMap_cons, applyRows_append, induction fun other member =>
      elsewhere other (.tail row member)]
    have here := elsewhere row (.head _)
    rw [applyRows, List.foldl_cons, List.foldl_cons, List.foldl_nil]
    dsimp only
    rw [getElem?_insert, if_neg fun same => here.2 (LawfulEqCmp.eq_of_compare same),
      getElem?_erase, if_neg fun same => here.1 (LawfulEqCmp.eq_of_compare same)]

theorem getElem?_applyRows_target {atNs : Int}
    (under : ∀ row ∈ moving, atOrBelow source row.1 = true)
    (apart : atOrBelow source target = false)
    (puts : ∀ row ∈ moving, row.1 = source → put row = version)
    (moves : ∃ row ∈ moving, row.1 = source) :
    (applyRows rows (moving.flatMap fun row =>
      [.delete row.1 (shown row) atNs,
        .upsert (moved source target row.1) (put row) none]))[target]? = some version := by
  induction moving generalizing rows with
  | nil =>
    rcases moves with ⟨row, member, _⟩
    exact absurd member List.not_mem_nil
  | cons row rest induction =>
    rw [List.flatMap_cons, applyRows_append]
    have restUnder : ∀ other ∈ rest, atOrBelow source other.1 = true := fun other member =>
      under other (.tail row member)
    by_cases later : ∃ other ∈ rest, other.1 = source
    · exact induction restUnder (fun other member => puts other (.tail row member))
        later
    · have here : row.1 = source := by
        rcases moves with ⟨other, member, same⟩
        rcases List.mem_cons.mp member with rfl | inRest
        · exact same
        · exact absurd ⟨other, inRest, same⟩ later
      rw [getElem?_applyRows_moves]
      · rw [applyRows, List.foldl_cons, List.foldl_cons, List.foldl_nil]
        dsimp only
        rw [here, moved_self, getElem?_insert_self,
          puts row (.head _) here]
      · intro other member
        have otherUnder := restUnder other member
        refine ⟨?_, moved_ne otherUnder fun same => later ⟨other, member, same⟩⟩
        intro same
        rw [same, apart] at otherUnder
        cases otherUnder

theorem insideMoving_of_atOrBelow (under : atOrBelow source path = true) :
    insideMoving (some source) path = true := by
  rw [insideMoving, any_some, Bool.or_eq_true, beq_iff_eq]
  rw [atOrBelow, Bool.or_eq_true, beq_iff_eq, below, Bool.and_eq_true] at under
  exact under.imp id And.left

theorem insideMoving_of_checkDestination {moving : Option SyncPath}
    (free : db.checkDestination env path moving = .ok ()) {row : SyncPath × FileVersion}
    (listed : row ∈ db.liveRowsUnder path) : insideMoving moving row.1 = true := by
  rw [checkDestination] at free
  split at free
  · cases free
  · split at free
    · cases free
    · rename_i none
      rw [Bool.not_eq_true, List.any_eq_false] at none
      simpa using none row listed

theorem mem_liveRowsUnder {row : SyncPath × FileVersion} :
    row ∈ db.liveRowsUnder path ↔ db.rows[row.1]? = some row.2 ∧ atOrBelow path row.1 = true := by
  rw [liveRowsUnder, List.mem_filter]
  exact and_congr_left fun _ => mem_toList_iff_getElem?_eq_some

theorem rows_of_rename (shown : db.rows[source]? = some current) (different : target ≠ source)
    (checked : db.checkRename env source target = .ok ()) (rows : after.rows =
      applyRows db.rows (db.renameMutations env input source target (some (version, base)))) :
    after.rows[target]? = some version ∧
      ∀ (path : SyncPath) (other : FileVersion), db.rows[path]? = some other →
        after.rows[path]? = some other ∨ insideMoving (some source) path = true := by
  rw [checkRename, if_neg different] at checked
  split at checked
  · cases checked
  · rename_i outside
    have apart : atOrBelow source target = false := by
      rw [atOrBelow, below, beq_eq_false_iff_ne.mpr different, Bool.false_or,
        Bool.and_eq_false_iff]
      exact .inl (Bool.not_eq_true _ ▸ outside)
    rw [rows, renameMutations]
    dsimp only
    constructor
    · apply getElem?_applyRows_target _ apart
      · intro row _ same
        rw [if_pos same]
        rfl
      · exact ⟨(source, current), mem_liveRowsUnder.mpr ⟨shown, by
          rw [atOrBelow, beq_self_eq_true, Bool.true_or]⟩, rfl⟩
      · exact fun row member => (mem_liveRowsUnder.mp member).2
    · intro path other before
      by_cases inside : insideMoving (some source) path = true
      · exact .inr inside
      · refine .inl ?_
        rw [getElem?_applyRows_moves, before]
        intro row member
        have under := (mem_liveRowsUnder.mp member).2
        constructor
        · rintro rfl
          exact inside (insideMoving_of_atOrBelow under)
        · rintro rfl
          apply inside
          have listed : (moved source target row.1, other) ∈ db.liveRowsUnder target :=
            mem_liveRowsUnder.mpr ⟨before, atOrBelow_moved target under⟩
          exact insideMoving_of_checkDestination checked listed

/-! ## Edits -/

theorem authorEdit_spec {id : ItemId} (shown : db.rows[source]? = some current)
    (checked : db.checkRename env source target = .ok ())
    (authors : db.authorEdit env input id source target base (some version) = .ok after) :
    after.rows[target]? = some version ∧
      ∀ (path : SyncPath) (other : FileVersion), db.rows[path]? = some other →
        after.rows[path]? = some other ∨ insideMoving (some source) path = true := by
  rw [authorEdit.eq_def] at authors
  split at authors
  · rename_i same
    rcases bind_eq_ok_iff.mp authors with ⟨written, commits, rest⟩
    split at rest
    · cases rest
    · cases rest
      have rows : (written.setPublished env id version true).rows =
          db.rows.insert source version := rows_commitOneGroup commits
      rw [rows, same]
      refine ⟨getElem?_insert_self, ?_⟩
      intro path other before
      by_cases here : source = path
      · refine .inr ?_
        rw [← here, insideMoving, any_some, beq_self_eq_true, Bool.true_or]
      · rw [getElem?_insert,
          if_neg fun equal => here (LawfulEqCmp.eq_of_compare equal)]
        exact .inl before
  · rename_i different
    rcases bind_eq_ok_iff.mp authors with ⟨written, commits, rest⟩
    dsimp only at rest
    split at rest
    · cases rest
    · cases rest
      exact rows_of_rename shown different checked
        (rows_commitRecursiveOperation commits : written.rows = _)

/-- The named base is the current version of the directory or symlink that the item is. -/
def BasedOnFolder (env : WritePath N) (db : ProviderDb N) (input : ApplyInput) : Prop :=
  ∃ item, db.modifiedItem input = some item ∧
    match db.rows[item.path]? with
    | none => input.base.hash? = some (structuralVersion.computeHash env.crypto)
    | some current =>
      current.fileMeta.recordKind ≠ .file ∧
        input.base.hash? = some (current.computeHash env.crypto)

/-- What a committed change leaves of the rows: a row is replaced or moved only by the edit of
its item, or of one above it, that the trust predicate lets through. -/
def ReplacesTrusted (env : WritePath N) (db : ProviderDb N) (input : ApplyInput)
    (after : ProviderDb N) : Prop :=
  ∀ (path : SyncPath) (version : FileVersion), db.rows[path]? = some version →
    after.rows[path]? = some version ∨
      ∃ item current, db.modifiedItem input = some item ∧ db.rows[item.path]? = some current ∧
        editBaseTrusted (db.provenance env input item current) = true ∧
        insideMoving (some item.path) path = true

theorem Spares.replacesTrusted (spares : Spares db after) (input : ApplyInput) :
    ReplacesTrusted env db input after :=
  fun path version shown => .inl (spares path version shown)

theorem effectiveInput_of_content (env : WritePath N) (db : ProviderDb N) (current : FileVersion)
    (carries : input.content = some content) :
    input.advisoryMtime = false ∧ db.effectiveInput env input current = input ∧
      db.editBase env input current = input.base.hash? ∧ input.puts = true := by
  have plain : input.advisoryMtime = false := by
    rw [ApplyInput.advisoryMtime, ApplyInput.carriesSemanticEdit, carries]
    simp
  refine ⟨plain, ?_, ?_, ?_⟩
  · rw [effectiveInput, plain, Bool.false_and, if_neg Bool.false_ne_true]
  · rw [editBase, sameContent, plain, Bool.false_and, if_neg Bool.false_ne_true]
  · rw [ApplyInput.puts, ApplyInput.hasContent, carries]
    rfl

theorem bytes_of_editedVersion (carries : input.content = some content)
    (file : current.fileMeta.recordKind = .file)
    (edited : db.editedVersion env input base current = .ok version) :
    version.fileMeta.recordKind = .file ∧ version.blocks = content.blocks ∧
      version.size = content.size := by
  rw [editedVersion, carries] at edited
  dsimp only [orElse_some] at edited
  rw [file] at edited
  cases edited
  exact ⟨rfl, rfl, rfl⟩

theorem modifyRow_spec {item : ProviderItem} (carries : input.content = some content)
    (modified : db.modifiedItem input = some item) (shown : db.rows[item.path]? = some current)
    (file : ¬db.BasedOnFolder env input)
    (modifies : db.modifyRow env draw input item current = .ok result) :
    db.ReplacesTrusted env input result.2 ∧ result.2.Holds content := by
  rcases effectiveInput_of_content env db current carries with
    ⟨plain, effective, base, puts⟩
  rcases bind_eq_ok_iff.mp modifies with ⟨target, _, rest⟩
  rcases bind_eq_ok_iff.mp rest with ⟨_, checked, rest⟩
  dsimp only at rest
  rw [effective, plain, puts] at rest
  split at rest
  · cases rest
  · split at rest
    · rcases keepBeside_spec carries shown rest with ⟨spares, holds⟩
      exact ⟨spares.replacesTrusted input, holds⟩
    · rename_i trusted
      rw [Bool.not_false, Bool.and_true, Bool.true_and, Bool.not_eq_true, Bool.not_eq_false']
        at trusted
      -- The base is the current version, so the item is a file.
      have kind : current.fileMeta.recordKind = .file := by
        by_contra other
        have named := (editBaseTrusted_eq_true trusted).1
        rw [provenance] at named
        dsimp only at named
        rw [base] at named
        refine file ⟨item, modified, ?_⟩
        rw [shown]
        exact ⟨other, named⟩
      rcases bind_eq_ok_iff.mp rest with ⟨edited, edits, rest⟩
      rcases bind_eq_ok_iff.mp rest with ⟨authored, authors, rest⟩
      rcases bind_eq_ok_iff.mp rest with ⟨applied, applies, rest⟩
      cases rest
      rw [editOf, if_pos puts] at edits
      rcases bind_eq_ok_iff.mp edits with ⟨version, builds, rest⟩
      cases rest
      rcases authorEdit_spec shown checked authors with ⟨there, others⟩
      have rows := rows_appliedItem applies
      refine ⟨?_, target, version, ?_, bytes_of_editedVersion carries kind builds⟩
      · intro path other before
        rw [rows]
        rcases others path other before with spared | inside
        · exact .inl spared
        · exact .inr ⟨item, current, modified, shown, trusted, inside⟩
      · rw [rows]
        exact there

theorem modify_spec (carries : input.content = some content) (kind : input.kind = .modify)
    (file : ¬db.BasedOnFolder env input) (modifies : db.modify env draw input = .ok result) :
    db.ReplacesTrusted env input result.2 ∧ result.2.Holds content := by
  rw [modify] at modifies
  split at modifies
  · cases modifies
  · rename_i id named
    split at modifies
    · cases modifies
    · rename_i item found
      split at modifies
      · rename_i live
        have modified : db.modifiedItem input = some item := by
          rw [modifiedItem, if_pos kind, named, bind_some, found, filter_some, live,
            if_pos rfl]
        split at modifies
        · rename_i structural
          -- A directory without a row takes no bytes but over its own version.
          have plain : (!input.structuralOnly && !input.advisoryMtime) = true := by
            rw [ApplyInput.structuralOnly, ApplyInput.advisoryMtime,
              ApplyInput.carriesSemanticEdit, carries]
            simp
          rw [modifyStructural, plain, Bool.true_and] at modifies
          split at modifies
          · cases modifies
          · rename_i based
            refine absurd ⟨item, modified, ?_⟩ file
            rw [structural]
            rw [bne_iff_ne, not_not] at based
            rw [based]
            rfl
        · rename_i current shown
          exact modifyRow_spec carries modified shown file modifies
      · cases modifies

end ProviderDb

/-! ## Both transactions -/

section ApplyChange

variable {N : Type} (env : WritePath N) (draw : Bool → List ProviderItem → ItemId)

/-- One transaction, which a permit that does not verify rolls back. -/
def transaction (permitted : Bool → Bool) (tables : OperationTables Stored (ProviderDb N))
    (input : ApplyInput) (keepRefused : Bool) :
    Except ApplyError (ApplyResult Stored × OperationTables Stored (ProviderDb N)) :=
  match OperationTables.applyInTx (ProviderDb.decision env (draw keepRefused)) tables
      input.operation input.nowMs keepRefused with
  | .error error => .error error
  | .ok result => if permitted keepRefused then .ok result else .error (.db "the permit is gone")

/-- `apply_change`: refused bytes are decided again, on the tables as other writers have left
them meanwhile. The answer, and the tables in the end. -/
def applyChange (permitted : Bool → Bool) (tables meanwhile : OperationTables Stored (ProviderDb N))
    (input : ApplyInput) :
    Except ApplyError (ApplyResult Stored) × OperationTables Stored (ProviderDb N) :=
  match transaction env draw permitted tables input false with
  | .ok result => (.ok result.1, result.2)
  | .error error =>
    if error.keepsBytes && input.operation.carriesBytes then
      match transaction env draw permitted meanwhile input true with
      | .ok result => (.ok result.1, result.2)
      | .error error => (.error error, meanwhile)
    else
      (.error error, tables)

variable {env} {draw} {tables : OperationTables Stored (ProviderDb N)}

theorem transaction_eq_ok {permitted : Bool → Bool} {keepRefused : Bool}
    {result : ApplyResult Stored × OperationTables Stored (ProviderDb N)}
    (committed : transaction env draw permitted tables input keepRefused = .ok result) :
    (result.1.replayed = true ∧ result.2.world = tables.world.reconcile) ∨
      ∃ stored, tables.world.reconcile.changeInTx env (draw keepRefused) input keepRefused =
        .ok (stored, result.2.world) := by
  rw [transaction] at committed
  split at committed
  · cases committed
  · rename_i applied applies
    split at committed
    · cases committed
      rw [applyInTx] at applies
      dsimp only at applies
      split at applies
      · cases applies
      · split at applies
        · cases applies
        · rename_i replayed replays
          cases applies
          exact .inl ⟨replayed_of_replayIn replays, rfl⟩
        · split at applies
          · cases applies
          · rename_i stored world changes
            rcases bind_eq_ok_iff.mp applies with ⟨recorded, records, rest⟩
            cases rest
            refine .inr ⟨stored, ?_⟩
            rw [(recordOperation_ok records).1]
            exact changes
    · cases committed

theorem final_transaction {permitted : Bool → Bool} {keepRefused : Bool}
    (known : input.id.rootId ∈ tables.roots) (change : ProviderDb.Final
      (tables.world.reconcile.changeInTx env (draw keepRefused) input keepRefused)) :
    ProviderDb.Final (transaction env draw permitted tables input keepRefused) := by
  have answered : ProviderDb.Final (tables.replayIn input.id input.fingerprint) := by
    rw [replayIn]
    split
    · split
      · exact .error rfl
      · exact .ok _
    · split
      · exact .error rfl
      · exact .ok _
  have recorded (recording : OperationTables Stored (ProviderDb N)) (stored : Stored) :
      ProviderDb.Final (recording.recordOperation input.operation stored input.nowMs) := by
    refine ProviderDb.Final.bind ?_ fun _ _ => .ok _
    rw [saveSession]
    split
    · exact .error rfl
    · exact .ok _
  intro error failed
  rw [transaction] at failed
  split at failed
  · rename_i applies
    cases failed
    rw [applyInTx] at applies
    dsimp only at applies
    split at applies
    · rename_i unknown
      exact absurd known unknown
    split at applies
    · rename_i refuses
      cases applies
      exact answered error refuses
    · cases applies
    · split at applies
      · rename_i fails
        cases applies
        exact change error fails
      · cases records : recordOperation _ input.operation _ input.nowMs with
        | error refusal =>
          rw [records] at applies
          cases applies
          exact recorded _ _ _ records
        | ok recorded =>
          rw [records] at applies
          cases applies
  · split at failed
    · cases failed
    · cases failed
      rfl

theorem first_change_spec {db : ProviderDb N} {draw : List ProviderItem → ItemId}
    {result : Stored × ProviderDb N} (carries : input.content = some content)
    (request : input.kind = .create ∧ input.entryKind = .file ∨
      input.kind = .modify ∧ ¬db.BasedOnFolder env input)
    (changed : db.changeInTx env draw input false = .ok result) :
    db.ReplacesTrusted env input result.2 ∧ result.2.Holds content := by
  rcases bind_eq_ok_iff.mp changed with ⟨decided, decides, rest⟩
  cases rest
  have first : db.ReplacesTrusted env input decided.2 ∧ decided.2.Holds content := by
    rcases bind_eq_ok_iff.mp decides with ⟨_, _, rest⟩
    rcases request with ⟨create, file⟩ | ⟨modify, file⟩
    · rw [create] at rest
      rcases ProviderDb.create_spec carries file rest with ⟨spares, holds⟩
      exact ⟨spares.replacesTrusted input, holds⟩
    · rw [modify] at rest
      exact ProviderDb.modify_spec carries modify file rest
  exact first

theorem second_change_spec (env : WritePath N) (draw : List ProviderItem → ItemId)
    (db : ProviderDb N) (carries : input.content = some content) :
    ProviderDb.Final (db.changeInTx env draw input true) ∧
      ∀ result, db.changeInTx env draw input true = .ok result →
        db.Spares result.2 ∧ result.2.Holds content := by
  constructor
  · exact (ProviderDb.final_keepRefusedBytes db carries).bind fun _ _ => .ok _
  · intro result changed
    rcases bind_eq_ok_iff.mp changed with ⟨decided, decides, rest⟩
    cases rest
    have kept : db.Spares decided.2 ∧ decided.2.Holds content :=
      ProviderDb.keepRefusedBytes_spec carries decides
    exact kept

/-- A request that carries the bytes of a file, over anything but the current version of a
directory or symlink: it succeeds, and some live path then holds exactly its bytes (or it was a
replay), or it fails for good and changes nothing; and a row that was there before is replaced or
moved only by an edit that the trust predicate lets through. -/
theorem refusals_keep_bytes (env : WritePath N) (draw : Bool → List ProviderItem → ItemId)
    (permitted : Bool → Bool) (tables meanwhile : OperationTables Stored (ProviderDb N))
    (input : ApplyInput) (content : ContentInput) (known : input.id.rootId ∈ meanwhile.roots)
    (carries : input.content = some content)
    (request : input.kind = .create ∧ input.entryKind = .file ∨
      input.kind = .modify ∧ ¬tables.world.reconcile.BasedOnFolder env input) :
    (∀ result, (applyChange env draw permitted tables meanwhile input).1 = .ok result →
      (result.replayed = true ∨
        (applyChange env draw permitted tables meanwhile input).2.world.Holds content) ∧
      (tables.world.reconcile.ReplacesTrusted env input
          (applyChange env draw permitted tables meanwhile input).2.world ∨
        meanwhile.world.Spares (applyChange env draw permitted tables meanwhile input).2.world)) ∧
    ∀ error, (applyChange env draw permitted tables meanwhile input).1 = .error error →
      error.keepsBytes = false ∧
        ((applyChange env draw permitted tables meanwhile input).2 = tables ∨
          (applyChange env draw permitted tables meanwhile input).2 = meanwhile) := by
  have later := second_change_spec env (draw true) meanwhile.world.reconcile carries
  rw [applyChange]
  cases first : transaction env draw permitted tables input false with
  | ok result =>
    refine ⟨?_, fun _ failed => by cases failed⟩
    intro answer same
    cases same
    rcases transaction_eq_ok first with ⟨replayed, world⟩ | ⟨stored, changed⟩
    · refine ⟨.inl replayed, .inl ?_⟩
      exact (ProviderDb.Spares.of_rows (by rw [world])).replacesTrusted input
    · rcases first_change_spec carries request changed with ⟨replaces, holds⟩
      exact ⟨.inr holds, .inl replaces⟩
  | error refusal =>
    dsimp only
    split
    · cases second : transaction env draw permitted meanwhile input true with
      | ok result =>
        refine ⟨?_, fun _ failed => by cases failed⟩
        intro answer same
        cases same
        rcases transaction_eq_ok second with ⟨replayed, world⟩ | ⟨stored, changed⟩
        · refine ⟨.inl replayed, .inr ?_⟩
          exact .of_rows (by rw [world]; rfl)
        · rcases later.2 _ changed with ⟨spares, holds⟩
          exact ⟨.inr holds, .inr spares⟩
      | error error =>
        refine ⟨fun _ succeeded => (by cases succeeded), ?_⟩
        intro other same
        cases same
        exact ⟨final_transaction known later.1 error second, .inr rfl⟩
    · rename_i final
      refine ⟨fun _ succeeded => (by cases succeeded), ?_⟩
      intro other same
      cases same
      refine ⟨?_, .inl rfl⟩
      have bytes : input.operation.carriesBytes = true := by
        rw [Operation.carriesBytes, ApplyInput.operation, carries]
        rcases request with ⟨kind, _⟩ | ⟨kind, _⟩
        · rw [kind]
          rfl
        · rw [kind]
          rfl
      rw [bytes, Bool.and_true, Bool.not_eq_true] at final
      exact final

/-- A root whose only file is in the way of a create. -/
def takenName : OperationTables Stored (ProviderDb (List (SyncPath × VersionHash))) :=
  ⟨["root"], [], [], [], ⟨Epochs.showing (Epochs.oneBlockFile 1), ∅, [], []⟩⟩

def createTaken : ApplyInput where
  id := ⟨"root", [7], 1⟩
  fingerprint := 0
  kind := .create
  name := some "a"
  content := some ⟨[⟨[9], 1⟩], 1⟩

set_option maxRecDepth 8192 in
/-- The create of a name that other bytes have is not refused: its bytes are kept beside them. -/
theorem create_of_taken_name_kept :
    ∃ result, (applyChange Epochs.lastPutWins (fun _ => Epochs.drawn) (fun _ => true) takenName
        takenName createTaken).1 = .ok result ∧ result.stored.outcome = .concurrent ∧
      (applyChange Epochs.lastPutWins (fun _ => Epochs.drawn) (fun _ => true) takenName takenName
        createTaken).2.world.Holds ⟨[⟨[9], 1⟩], 1⟩ := by
  have told : (applyChange Epochs.lastPutWins (fun _ => Epochs.drawn) (fun _ => true) takenName
      takenName createTaken).1.toOption.map
        (fun result => (result.replayed, result.stored.outcome)) = some (false, .concurrent) := by
    decide
  cases answer : (applyChange Epochs.lastPutWins (fun _ => Epochs.drawn) (fun _ => true) takenName
      takenName createTaken).1 with
  | error error =>
    rw [answer] at told
    cases told
  | ok result =>
    rw [answer] at told
    rcases Prod.mk.inj (Option.some.inj told) with ⟨fresh, outcome⟩
    refine ⟨result, rfl, outcome, ?_⟩
    have kept := ((refusals_keep_bytes Epochs.lastPutWins (fun _ => Epochs.drawn)
      (fun _ => true) takenName takenName createTaken ⟨[⟨[9], 1⟩], 1⟩ (by decide) rfl
      (.inl ⟨rfl, rfl⟩)).1 result answer).1
    rcases kept with replayed | holds
    · rw [fresh] at replayed
      cases replayed
    · exact holds

end ApplyChange

end Yadorilink.Provider
