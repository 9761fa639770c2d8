import Yadorilink.Provider.Edits

/-! What the summaries of the items remember. Every write of the provider leaves the summaries
of all items as they were, except that a handoff moves one item's summary up and an edit authored
in place starts a new epoch for its item. -/

namespace Yadorilink.Provider

open Std Fallible List

/-! ## Summaries -/

namespace Served

/-- What the summary becomes when an epoch starts with a content. -/
def authored (served : Served) (sig : List Char) : Served :=
  match served with
  | .mixed => .mixed
  | _ => .single sig

/-- What the summary becomes when a content may be served. -/
def serve (served : Served) (sig : List Char) : Served :=
  match served with
  | .never => .single sig
  | .single known => if known = sig then .single known else .mixed
  | .mixed => .mixed

end Served

namespace ProviderItem

theorem served_serve (item : ProviderItem) (sig : List Char) :
    (item.serve sig).served = item.served.serve sig := by
  rw [serve, served, served]
  cases mixed : item.servedMixed with
  | true => rfl
  | false =>
    cases item.servedContentSig with
    | none => rfl
    | some known =>
      by_cases same : known = sig
      · simp [same, Served.serve]
      · simp [same, Served.serve]

theorem served_authored (item : ProviderItem) (sig : List Char) :
    (item.authored sig).served = item.served.authored sig := by
  rw [authored, served, served]
  cases mixed : item.servedMixed with
  | true => simp [mixed, Served.authored]
  | false =>
    cases item.servedContentSig with
    | none => simp [Served.authored]
    | some known => simp [Served.authored]

end ProviderItem

/-- A directory has no content of its own, and a symlink has the size of its target: what an
edit of the metadata alone builds again. -/
def Regular (version : FileVersion) : Prop :=
  match version.fileMeta.recordKind with
  | .file => True
  | .directory => version.blocks = [] ∧ version.size = 0 ∧ version.fileMeta.symlinkTarget = none
  | .symlink =>
    version.blocks = [] ∧ version.size = (version.fileMeta.symlinkTarget.map List.length).getD 0

instance : DecidablePred Regular := fun version => by
  unfold Regular
  split <;> infer_instance

namespace ProviderDb

variable {N : Type} {env : WritePath N} {draw : List ProviderItem → ItemId}
  {after db : ProviderDb N} {change : ProviderItem → ProviderItem} {id : ItemId}
  {item : ProviderItem} {path source : SyncPath} {result : Stored × ProviderDb N}
  {version current : FileVersion} {input : ApplyInput}

/-- The summary of an item, while there is an item of that id. -/
def summary (db : ProviderDb N) (id : ItemId) : Option Served :=
  (db.item? id).map ProviderItem.served

/-- All items are still there, with the summaries they had, except perhaps one. -/
def KeptBut (except : ItemId → Prop) (before after : ProviderDb N) : Prop :=
  ∀ id served, before.summary id = some served → ¬except id → after.summary id = some served

/-- All items are still there, with the summaries they had. -/
abbrev Kept (before after : ProviderDb N) : Prop :=
  KeptBut (fun _ => False) before after

theorem KeptBut.refl (except : ItemId → Prop) (db : ProviderDb N) : KeptBut except db db :=
  fun _ _ known _ => known

theorem KeptBut.trans {except : ItemId → Prop} {first second third : ProviderDb N}
    (one : KeptBut except first second) (two : KeptBut except second third) :
    KeptBut except first third :=
  fun id served known other => two id served (one id served known other) other

theorem KeptBut.weaken {except others : ItemId → Prop} {before : ProviderDb N}
    (kept : KeptBut except before after) (fewer : ∀ id, except id → others id) :
    KeptBut others before after :=
  fun id served known other => kept id served known fun excepted => other (fewer id excepted)

theorem summary_map {before : ProviderDb N} (change : ProviderItem → ProviderItem)
    (items : after.items = before.items.map change) (ids : ∀ item, (change item).id = item.id)
    (id : ItemId) : after.summary id = (before.item? id).map fun item => (change item).served := by
  rw [summary, item?, item?, items, find?_map, Option.map_map]
  have same : ((fun item : ProviderItem => decide (item.id = id)) ∘ change) =
      fun item => decide (item.id = id) := by
    funext item
    rw [Function.comp_apply, ids]
  rw [same]
  rfl

theorem kept_of_map {before : ProviderDb N} (change : ProviderItem → ProviderItem)
    (items : after.items = before.items.map change) (ids : ∀ item, (change item).id = item.id)
    (summaries : ∀ item, (change item).served = item.served) : Kept before after := by
  intro id served known _
  rw [summary_map change items ids]
  simp only [summaries]
  exact known

theorem kept_of_items {before : ProviderDb N} (items : after.items = before.items) :
    Kept before after := by
  intro id served known _
  rw [summary, item?, items]
  exact known

theorem kept_reconcile (db : ProviderDb N) : Kept db db.reconcile := by
  refine kept_of_map _ rfl ?_ ?_ <;>
    · intro item
      split <;> rfl

theorem summary_reconcile (db : ProviderDb N) (id : ItemId) :
    db.reconcile.summary id = db.summary id := by
  rw [summary_map _ rfl fun item => (by split <;> rfl)]
  have same : (fun item : ProviderItem => ProviderItem.served
      (if item.live && !db.pathLive item.path then
        { item with live := false, publishedVersion := none } else item)) =
      ProviderItem.served := by
    funext item
    split <;> rfl
  rw [same]
  rfl

theorem summary_updateItem (db : ProviderDb N) (id other : ItemId)
    (ids : ∀ item, (change item).id = item.id) :
    (db.updateItem id change).summary other = (db.item? other).map fun item =>
      (if item.id = id then change item else item).served := by
  apply summary_map (fun item => if item.id = id then change item else item) rfl
  intro item
  split
  · exact ids item
  · rfl

theorem id_of_item? (found : db.item? id = some item) : item.id = id := by
  rw [item?] at found
  have matching := find?_some found
  exact of_decide_eq_true matching

theorem keptBut_updateItem (db : ProviderDb N) (id : ItemId)
    (ids : ∀ item, (change item).id = item.id) : KeptBut (· = id) db (db.updateItem id change) := by
  intro other served known distinct
  rcases Option.map_eq_some_iff.mp known with ⟨item, found, summarized⟩
  rw [summary_updateItem db id other ids, found, Option.map_some, id_of_item? found,
    if_neg distinct, summarized]

theorem summary_updateItem_self {served : Served} (next : Served → Served)
    (ids : ∀ item, (change item).id = item.id)
    (changes : ∀ item, (change item).served = next item.served)
    (known : db.summary id = some served) :
    (db.updateItem id change).summary id = some (next served) := by
  rcases Option.map_eq_some_iff.mp known with ⟨item, found, summarized⟩
  rw [summary_updateItem db id id ids, found, Option.map_some, if_pos (id_of_item? found), changes,
    summarized]

theorem kept_updateItem (db : ProviderDb N) (id : ItemId) (ids : ∀ item, (change item).id = item.id)
    (summaries : ∀ item, (change item).served = item.served) :
    Kept db (db.updateItem id change) := by
  intro other served known _
  by_cases same : other = id
  · rw [same] at known ⊢
    exact summary_updateItem_self (fun served => served) ids summaries known
  · exact keptBut_updateItem db id ids other served known same

/-! ## The parts of a write -/

theorem kept_noteChildSetChange (db : ProviderDb N) (folder : SyncPath) :
    Kept db (db.noteChildSetChange folder) := by
  rw [noteChildSetChange]
  split
  · exact .refl _ db
  · refine kept_of_map _ rfl ?_ ?_ <;>
      · intro item
        split <;> rfl

theorem mintItem_eq_ok (minted : db.mintItem draw path = .ok (id, after)) :
    (∃ item, db.liveItemAt path = some item ∧ item.id = id ∧ after = db) ∨
      (db.liveItemAt path = none ∧ db.summary id = none ∧
        after = { db with items := db.items ++ [{ id, path }] }) := by
  rw [mintItem] at minted
  cases found : db.liveItemAt path with
  | some item =>
    rw [found] at minted
    cases minted
    exact .inl ⟨item, rfl, rfl, rfl⟩
  | none =>
    rw [found] at minted
    dsimp only at minted
    split at minted
    · cases minted
    · rename_i unused
      cases minted
      refine .inr ⟨rfl, ?_, rfl⟩
      rw [summary, item?, Option.map_eq_none_iff, find?_eq_none]
      intro item member same
      exact unused (any_eq_true.mpr ⟨item, member, same⟩)

theorem kept_append (db : ProviderDb N) (item : ProviderItem) :
    Kept db { db with items := db.items ++ [item] } := by
  intro id served known _
  rcases Option.map_eq_some_iff.mp known with ⟨found, isFound, summarized⟩
  rw [item?] at isFound
  rw [summary, item?, find?_append, isFound, Option.some_or, Option.map_some, summarized]

theorem kept_mintItem (minted : db.mintItem draw path = .ok (id, after)) : Kept db after := by
  rcases mintItem_eq_ok minted with ⟨_, _, _, rfl⟩ | ⟨_, _, rfl⟩
  · exact .refl _ after
  · exact kept_append db _

theorem kept_mintParent {result : Option ItemId × ProviderDb N}
    (minted : db.mintParent draw path = .ok result) : Kept db result.2 := by
  rw [mintParent] at minted
  split at minted
  · cases minted
    exact .refl _ db
  · rcases bind_eq_ok_iff.mp minted with ⟨one, made, rest⟩
    cases rest
    exact kept_mintItem made

theorem kept_appliedItem {expect : Option VersionHash} {result : AppliedItem × ProviderDb N}
    (applied : db.appliedItem env draw id expect = .ok result) : Kept db result.2 := by
  rw [appliedItem] at applied
  split at applied
  · cases applied
  · split at applied
    · cases applied
    · rcases bind_eq_ok_iff.mp applied with ⟨parent, made, rest⟩
      cases rest
      exact kept_mintParent made

theorem items_commitOneGroup {mutations : List LocalMutation}
    (committed : db.commitOneGroup env mutations = .ok after) : after.items = db.items := by
  rw [commitOneGroup] at committed
  split at committed
  · cases committed
  · cases committed
    rfl

theorem kept_renameTree {target : SyncPath} (renamed : db.renameTree source target = .ok after) :
    Kept db after := by
  rw [renameTree] at renamed
  dsimp only at renamed
  have moved : Kept db { db with
      items := db.items.map fun item =>
        if item.live && atOrBelow source item.path then
          { item with
            path := moved source target item.path
            generation := item.generation + if item.path = source then 1 else 0 }
        else
          item } := by
    refine kept_of_map _ rfl ?_ ?_ <;>
      · intro item
        split <;> rfl
  split at renamed
  · cases renamed
    exact .refl _ _
  · split at renamed
    · cases renamed
    · split at renamed
      · cases renamed
        exact (moved.trans (kept_noteChildSetChange _ _)).trans (kept_noteChildSetChange _ _)
      · cases renamed
        exact moved

theorem kept_commitRecursiveOperation {kind : RecursiveOperationKind}
    {mutations : List LocalMutation}
    (committed : db.commitRecursiveOperation env kind mutations = .ok after) : Kept db after := by
  rcases bind_eq_ok_iff.mp committed with ⟨renamed, rename, rest⟩
  have first : Kept db renamed := by
    cases kind with
    | renameTree source target => exact kept_renameTree rename
    | rmTree root =>
      cases rename
      exact .refl _ db
  split at rest
  · cases rest
  · cases rest
    exact first.trans (kept_of_items rfl)

/-! ## New files -/

/-- Live items have live paths, as after every reconciliation. -/
def Reconciled (db : ProviderDb N) : Prop :=
  ∀ item ∈ db.items, item.live = true → db.pathLive item.path = true

theorem reconciled_reconcile (db : ProviderDb N) : Reconciled db.reconcile := by
  intro item member live
  rcases mem_map.mp member with ⟨before, _, same⟩
  have rows : db.reconcile.pathLive = db.pathLive := rfl
  rw [rows]
  split at same
  · rw [← same] at live
    cases live
  · rename_i stays
    rw [same] at stays
    cases alive : db.pathLive item.path with
    | true => rfl
    | false => exact absurd (by rw [live, alive]; rfl) stays

theorem liveRowsUnder_of_checkDestination (free : db.checkDestination env path none = .ok ()) :
    db.liveRowsUnder path = [] := by
  rw [checkDestination] at free
  split at free
  · cases free
  · split at free
    · cases free
    · rename_i none
      rw [Bool.not_eq_true, any_eq_false] at none
      apply eq_nil_iff_forall_not_mem.mpr
      intro row member
      exact none row member rfl

theorem liveItemAt_of_checkDestination (reconciled : db.Reconciled)
    (free : db.checkDestination env path none = .ok ()) : db.liveItemAt path = none := by
  rw [liveItemAt, find?_eq_none]
  intro item member found
  rw [Bool.and_eq_true, decide_eq_true_iff] at found
  have alive := reconciled item member found.1
  rw [found.2, pathLive, any_eq_true] at alive
  rcases alive with ⟨row, shown, under⟩
  have listed : row ∈ db.liveRowsUnder path := mem_filter.mpr ⟨shown, under⟩
  rw [liveRowsUnder_of_checkDestination free] at listed
  exact absurd listed not_mem_nil

theorem kept_authorNew {result : ItemId × ProviderDb N} (none : db.liveItemAt path = none)
    (authored : db.authorNew env draw path version = .ok result) : Kept db result.2 := by
  rcases bind_eq_ok_iff.mp authored with ⟨written, commits, rest⟩
  rcases bind_eq_ok_iff.mp rest with ⟨minted, mints, rest⟩
  cases rest
  have items := items_commitOneGroup commits
  -- The row is there by now, but the items are those of before.
  rcases mintItem_eq_ok mints with ⟨item, found, _⟩ | ⟨_, unused, _⟩
  · rw [liveItemAt, items] at found
    rw [liveItemAt, found] at none
    cases none
  · have first : Kept db minted.2 := (kept_of_items items).trans (kept_mintItem mints)
    have published : Kept db (minted.2.setPublished env minted.1 version false) := by
      intro id served known _
      apply keptBut_updateItem _ _ _ id served (first id served known not_false)
      · rintro rfl
        rw [summary, item?, items] at unused
        rw [summary, item?, unused] at known
        cases known
      · intro item
        rw [ProviderItem.authored]
        split <;> rfl
    exact published.trans (kept_noteChildSetChange _ _)

/-! ## Whole operations -/

theorem kept_create (reconciled : db.Reconciled) (created : db.create env draw input = .ok result) :
    Kept db result.2 := by
  rcases bind_eq_ok_iff.mp created with ⟨path, _, rest⟩
  split at rest
  · rcases bind_eq_ok_iff.mp rest with ⟨minted, mints, rest⟩
    rcases bind_eq_ok_iff.mp rest with ⟨applied, applies, rest⟩
    cases rest
    exact (kept_mintItem mints).trans (kept_appliedItem applies)
  · rcases bind_eq_ok_iff.mp rest with ⟨_, free, rest⟩
    rcases bind_eq_ok_iff.mp rest with ⟨version, _, rest⟩
    rcases bind_eq_ok_iff.mp rest with ⟨authored, authors, rest⟩
    rcases bind_eq_ok_iff.mp rest with ⟨applied, applies, rest⟩
    cases rest
    exact (kept_authorNew (liveItemAt_of_checkDestination reconciled free) authors).trans
      (kept_appliedItem applies)

theorem free_of_findPlace {sig : List Char} {candidates : List SyncPath}
    (found : db.findPlace env sig candidates = some (.free path)) :
    db.checkDestination env path none = .ok () := by
  induction candidates with
  | nil => cases found
  | cons candidate rest induction =>
    rw [findPlace] at found
    split at found
    · split at found
      · cases found
      · exact induction found
    · split at found
      · rename_i passed
        cases found
        cases checked : db.checkDestination env path none with
        | error error =>
          rw [checked] at passed
          cases passed
        | ok _ => rfl
      · exact induction found

theorem authorCopy_eq_ok {result : ItemId × ProviderDb N}
    (copied : db.authorCopy env draw source version = .ok result) :
    ∃ names, (∃ path, db.findPlace env version.keptEditSemanticKey names = some (.kept path) ∧
        db.mintItem draw path = .ok result) ∨
      ∃ path authored parent,
        db.findPlace env version.keptEditSemanticKey names = some (.free path) ∧
        db.authorNew env draw path version = .ok authored ∧
        authored.2.mintParent draw path = .ok parent ∧ result = (authored.1, parent.2) := by
  rw [authorCopy] at copied
  generalize copyNames source _ = copies at copied
  generalize quarantineNames _ = quarantine at copied
  have found : ∀ place, (db.findPlace env version.keptEditSemanticKey copies).or
      (db.findPlace env version.keptEditSemanticKey quarantine) = some place →
      ∃ names, db.findPlace env version.keptEditSemanticKey names = some place := by
    intro place either
    rcases Option.or_eq_some_iff.mp either with first | ⟨_, second⟩
    · exact ⟨copies, first⟩
    · exact ⟨quarantine, second⟩
  split at copied
  · cases copied
  · rename_i path place
    rcases found _ place with ⟨names, here⟩
    exact ⟨names, .inl ⟨path, here, copied⟩⟩
  · rename_i path place
    rcases found _ place with ⟨names, here⟩
    rcases bind_eq_ok_iff.mp copied with ⟨authored, authors, rest⟩
    rcases bind_eq_ok_iff.mp rest with ⟨parent, mints, rest⟩
    cases rest
    exact ⟨names, .inr ⟨path, authored, parent, here, authors, mints, rfl⟩⟩

theorem kept_authorCopy {result : ItemId × ProviderDb N} (reconciled : db.Reconciled)
    (copied : db.authorCopy env draw source version = .ok result) : Kept db result.2 := by
  rcases authorCopy_eq_ok copied with
    ⟨names, ⟨path, _, mints⟩ | ⟨path, authored, parent, found, authors, mints, rfl⟩⟩
  · exact kept_mintItem mints
  · have none := liveItemAt_of_checkDestination reconciled (free_of_findPlace found)
    exact (kept_authorNew none authors).trans (kept_mintParent mints)

theorem kept_keepBeside (reconciled : db.Reconciled)
    (keeps : db.keepBeside env draw input id source current = .ok result) : Kept db result.2 := by
  rw [keepBeside] at keeps
  split at keeps
  · cases keeps
  · rcases bind_eq_ok_iff.mp keeps with ⟨copied, copies, rest⟩
    rcases bind_eq_ok_iff.mp rest with ⟨applied, applies, rest⟩
    cases rest
    refine KeptBut.trans ?_ (kept_appliedItem applies)
    rw [copyUnlessSame] at copies
    split at copies
    · cases copies
      exact .refl _ db
    · rcases bind_eq_ok_iff.mp copies with ⟨made, authors, rest⟩
      cases rest
      exact kept_authorCopy reconciled authors

theorem kept_keepRefusedBytes (reconciled : db.Reconciled)
    (keeps : db.keepRefusedBytes env draw input = .ok result) : Kept db result.2 := by
  rw [keepRefusedBytes] at keeps
  split at keeps
  · cases keeps
  · split at keeps
    · exact kept_keepBeside reconciled keeps
    · rcases bind_eq_ok_iff.mp keeps with ⟨copied, copies, rest⟩
      rcases bind_eq_ok_iff.mp rest with ⟨applied, applies, rest⟩
      cases rest
      exact (kept_authorCopy reconciled copies).trans (kept_appliedItem applies)

theorem kept_delete (deleted : db.delete env input = .ok result) : Kept db result.2 := by
  rw [delete] at deleted
  split at deleted
  · cases deleted
  · split at deleted
    · cases deleted
      exact .refl _ db
    · split at deleted
      · rw [deleteDirectory] at deleted
        split at deleted
        · cases deleted
        · split at deleted
          · cases deleted
          · split at deleted
            · cases deleted
            · split at deleted
              · cases deleted
                exact .refl _ db
              · rcases bind_eq_ok_iff.mp deleted with ⟨removed, removes, rest⟩
                cases rest
                exact kept_commitRecursiveOperation removes
      · split at deleted
        · cases deleted
          exact .refl _ db
        · rw [deleteFile] at deleted
          split at deleted
          · rcases bind_eq_ok_iff.mp deleted with ⟨removed, removes, rest⟩
            cases rest
            exact kept_of_items (items_commitOneGroup removes)
          · cases deleted
            exact kept_updateItem db _ (fun _ => rfl) fun _ => rfl

theorem kept_modifyStructural (modified : db.modifyStructural env draw input item = .ok result) :
    Kept db result.2 := by
  have structural {start : ProviderDb N} {path : SyncPath} {applied : AppliedItem × ProviderDb N}
      (applies : start.appliedStructural env draw item path = .ok applied) :
      Kept start applied.2 := by
    rcases bind_eq_ok_iff.mp applies with ⟨parent, mints, rest⟩
    cases rest
    exact kept_mintParent mints
  rw [modifyStructural] at modified
  split at modified
  · cases modified
  · split at modified
    · cases modified
    · split at modified
      · cases modified
      · rcases bind_eq_ok_iff.mp modified with ⟨target, _, rest⟩
        split at rest
        · rcases bind_eq_ok_iff.mp rest with ⟨applied, applies, rest⟩
          cases rest
          exact structural applies
        · rcases bind_eq_ok_iff.mp rest with ⟨_, _, rest⟩
          rcases bind_eq_ok_iff.mp rest with ⟨renamed, renames, rest⟩
          rcases bind_eq_ok_iff.mp rest with ⟨applied, applies, rest⟩
          cases rest
          exact (kept_commitRecursiveOperation renames).trans (structural applies)

/-! ## Edits in place -/

/-- The edit of a modify that the trust predicate lets replace the current version: its item and
the version it replaces. -/
def trustedEdit (env : WritePath N) (db : ProviderDb N) (input : ApplyInput) :
    Option (ItemId × FileVersion) := do
  let item ← db.modifiedItem input
  let current ← (db.rows[item.path]?).filter fun current =>
    (db.effectiveInput env input current).puts && !input.advisoryMtime &&
      editBaseTrusted (db.provenance env input item current)
  return (item.id, current)

/-- The mtime of a modify that is set on the current content without the trust predicate: its
item and the current version. -/
def advisoryEdit (env : WritePath N) (db : ProviderDb N) (input : ApplyInput) :
    Option (ProviderItem × FileVersion) := do
  let item ← db.modifiedItem input
  let current ← (db.rows[item.path]?).filter (db.sameContent env input)
  return (item, current)

theorem modifiedItem_eq_some (modified : db.modifiedItem input = some item) :
    input.kind = .modify ∧ input.itemId = some item.id ∧ db.item? item.id = some item ∧
      item.live = true := by
  rw [modifiedItem] at modified
  split at modified
  · rename_i kind
    rcases Option.filter_eq_some_iff.mp modified with ⟨found, live⟩
    rcases Option.bind_eq_some_iff.mp found with ⟨id, named, found⟩
    cases id_of_item? found
    exact ⟨kind, named, found, live⟩
  · cases modified

theorem editBaseTrusted_eq_true {input : ProvenanceInput} (trusted : editBaseTrusted input = true) :
    input.base = some input.current ∧
      ∃ sig, input.served = .single sig ∧ input.baseContentSig = some sig := by
  rw [editBaseTrusted] at trusted
  split at trusted
  · cases trusted
  · rename_i view
    rw [not_or, not_or, not_not, not_not] at view
    refine ⟨view.2.1, ?_⟩
    split at trusted
    · rename_i served base isSingle isBase
      rw [beq_iff_eq] at trusted
      exact ⟨served, isSingle, by rw [isBase, trusted]⟩
    · cases trusted

theorem single_of_trustedEdit (trusts : trustedEdit env db input = some (id, current)) :
    db.summary id = some (.single current.contentSig) := by
  rcases Option.bind_eq_some_iff.mp trusts with ⟨item, modified, rest⟩
  rcases Option.bind_eq_some_iff.mp rest with ⟨shown, shows, rest⟩
  cases rest
  rcases modifiedItem_eq_some modified with ⟨_, _, found, _⟩
  have passes := (Option.filter_eq_some_iff.mp shows).2
  rw [Bool.and_eq_true] at passes
  rcases editBaseTrusted_eq_true passes.2 with ⟨base, sig, single, contents⟩
  rw [provenance] at base contents
  dsimp only at base contents
  rw [base, Option.bind_some, if_pos rfl] at contents
  cases contents
  rw [summary, found, Option.map_some]
  exact congrArg some single

/-- What a committed change does to the summaries. -/
inductive Changes (env : WritePath N) (db : ProviderDb N) (input : ApplyInput)
    (keepRefused : Bool) (after : ProviderDb N) : Prop where
  | kept (kept : Kept db after)
  | trusted (id : ItemId) (served : Served) (current version : FileVersion)
      (first : keepRefused = false)
      (trusts : trustedEdit env db input = some (id, current))
      (before : db.summary id = some served)
      (kept : KeptBut (· = id) db after)
      (authored : after.summary id = some (served.authored version.contentSig))
  | advisory (item : ProviderItem) (current version : FileVersion)
      (first : keepRefused = false)
      (advises : advisoryEdit env db input = some (item, current))
      (before : db.summary item.id = some item.served)
      (kept : KeptBut (· = item.id) db after)
      (authored : after.summary item.id = some (item.served.authored version.contentSig))
      (contents : Regular current → version.contentSig = current.contentSig)

theorem summary_setPublished {served : Served} (version : FileVersion) (advance : Bool)
    (known : db.summary id = some served) :
    (db.setPublished env id version advance).summary id =
      some (served.authored version.contentSig) := by
  apply summary_updateItem_self (fun served => served.authored version.contentSig) _ _ known
  · intro item
    rw [ProviderItem.authored]
    split <;> rfl
  · intro item
    rw [ProviderItem.served_authored]
    rfl

theorem keptBut_setPublished (db : ProviderDb N) (id : ItemId) (version : FileVersion)
    (advance : Bool) : KeptBut (· = id) db (db.setPublished env id version advance) := by
  apply keptBut_updateItem
  intro item
  rw [ProviderItem.authored]
  split <;> rfl

theorem summaries_authorEdit {target : SyncPath} {base : VersionHash} {edited : Option FileVersion}
    (authors : db.authorEdit env input id source target base edited = .ok after) :
    (edited = none → Kept db after) ∧ ∀ version, edited = some version →
      KeptBut (· = id) db after ∧ ∀ served, db.summary id = some served →
        after.summary id = some (served.authored version.contentSig) := by
  have published {written : ProviderDb N} (kept : Kept db written) (version : FileVersion) :
      KeptBut (· = id) db (written.setPublished env id version true) ∧
        ∀ served, db.summary id = some served →
          (written.setPublished env id version true).summary id =
            some (served.authored version.contentSig) :=
    ⟨(kept.weaken fun _ => False.elim).trans (keptBut_setPublished written id version true),
      fun served known => summary_setPublished version true (kept id served known not_false)⟩
  rw [authorEdit.eq_def] at authors
  split at authors
  · cases edited with
    | none =>
      cases authors
      exact ⟨fun _ => .refl _ _, fun _ absent => by cases absent⟩
    | some version =>
      rcases bind_eq_ok_iff.mp authors with ⟨written, commits, rest⟩
      split at rest
      · cases rest
      · cases rest
        refine ⟨fun absent => (by cases absent), fun other same => ?_⟩
        cases same
        exact published (kept_of_items (items_commitOneGroup commits)) version
  · rcases bind_eq_ok_iff.mp authors with ⟨written, commits, rest⟩
    have kept := kept_commitRecursiveOperation commits
    cases edited with
    | none =>
      cases rest
      exact ⟨fun _ => kept, fun _ absent => by cases absent⟩
    | some version =>
      dsimp only at rest
      split at rest
      · cases rest
      · cases rest
        refine ⟨fun absent => (by cases absent), fun other same => ?_⟩
        cases same
        exact published kept version

theorem without_of_advisoryMtime (advisory : input.advisoryMtime = true) :
    input.content = none ∧ input.symlinkTarget = none ∧ input.metadata.unixMode = none ∧
      input.metadata.xattrs = none := by
  rw [ApplyInput.advisoryMtime, Bool.and_eq_true, Bool.not_eq_true',
    ApplyInput.carriesSemanticEdit] at advisory
  simpa [and_assoc] using advisory.2

theorem puts_withoutMtime (advisory : input.advisoryMtime = true) :
    input.withoutMtime.puts = false := by
  rcases without_of_advisoryMtime advisory with ⟨noContent, noTarget, noMode, noXattrs⟩
  simp [ApplyInput.withoutMtime, ApplyInput.puts, ApplyInput.hasContent, ApplyInput.hasMetadata,
    noContent, noTarget, noMode, noXattrs]

theorem contentSig_editedVersion (noContent : input.content = none)
    (noTarget : input.symlinkTarget = none) (regular : Regular current)
    (edited : db.editedVersion env input (current.computeHash env.crypto) current =
      .ok version) : version.contentSig = current.contentSig := by
  rw [editedVersion] at edited
  simp only [noContent, noTarget, if_pos, Option.orElse_none, Option.map_some, Option.none_or,
    Option.getD_some] at edited
  rw [Regular] at regular
  cases kind : current.fileMeta.recordKind with
  | file =>
    rw [kind] at edited
    cases edited
    simp only [FileVersion.contentSig, kind]
  | directory =>
    rw [kind] at edited regular
    cases edited
    simp only [FileVersion.contentSig, directoryVersion, kind, regular.1, regular.2.1, regular.2.2]
  | symlink =>
    rw [kind] at edited regular
    cases edited
    simp only [FileVersion.contentSig, kind, regular.1, regular.2]

theorem changes_modifyRow (reconciled : db.Reconciled) (kind : input.kind = .modify)
    (named : input.itemId = some item.id) (found : db.item? item.id = some item)
    (live : item.live = true) (shows : db.rows[item.path]? = some current)
    (modified : db.modifyRow env draw input item current = .ok result) :
    Changes env db input false result.2 := by
  have before : db.summary item.id = some item.served := by rw [summary, found, Option.map_some]
  rcases bind_eq_ok_iff.mp modified with ⟨target, _, rest⟩
  rcases bind_eq_ok_iff.mp rest with ⟨_, _, rest⟩
  dsimp only at rest
  split at rest
  · cases rest
  · split at rest
    · exact .kept (kept_keepBeside reconciled rest)
    · rename_i passes
      rcases bind_eq_ok_iff.mp rest with ⟨edited, edits, rest⟩
      rcases bind_eq_ok_iff.mp rest with ⟨authored, authors, rest⟩
      rcases bind_eq_ok_iff.mp rest with ⟨applied, applies, rest⟩
      cases rest
      have later := kept_appliedItem applies
      rcases summaries_authorEdit authors with ⟨unedited, edits_⟩
      rw [editOf] at edits
      split at edits
      · rename_i puts
        rcases bind_eq_ok_iff.mp edits with ⟨version, builds, rest⟩
        cases rest
        rcases edits_ version rfl with ⟨kept, starts⟩
        have keptAll : KeptBut (· = item.id) db applied.2 :=
          kept.trans (later.weaken fun _ => False.elim)
        have started := later item.id _ (starts item.served before) not_false
        cases advisory : input.advisoryMtime with
        | false =>
          refine .trusted item.id item.served current version rfl ?_ before keptAll started
          rw [puts, advisory] at passes
          simp only [Bool.not_false, Bool.true_and, Bool.not_eq_true, Bool.not_eq_false']
            at passes
          simp [trustedEdit, modifiedItem, kind, named, found, Option.filter_some, live, shows,
            puts, advisory, passes]
        | true =>
          have same : db.sameContent env input current = true := by
            cases same : db.sameContent env input current with
            | true => rfl
            | false =>
              rw [effectiveInput, advisory, same, Bool.not_false, Bool.and_self, if_pos rfl,
                puts_withoutMtime advisory] at puts
              cases puts
          rcases without_of_advisoryMtime advisory with ⟨noContent, noTarget, _⟩
          refine .advisory item current version rfl ?_ before keptAll started ?_
          · simp [advisoryEdit, modifiedItem, kind, named, found, Option.filter_some, live, shows,
              same]
          · intro regular
            rw [editBase, same, if_pos rfl, Option.getD_some, effectiveInput, same,
              Bool.not_true, Bool.and_false, if_neg Bool.false_ne_true] at builds
            exact contentSig_editedVersion noContent noTarget regular builds
      · cases edits
        exact .kept ((unedited rfl).trans later)

theorem changes_modify (reconciled : db.Reconciled) (kind : input.kind = .modify)
    (modified : db.modify env draw input = .ok result) : Changes env db input false result.2 := by
  rw [modify] at modified
  split at modified
  · cases modified
  · rename_i id named
    split at modified
    · cases modified
    · rename_i item found
      cases id_of_item? found
      split at modified
      · rename_i live
        split at modified
        · exact .kept (kept_modifyStructural modified)
        · rename_i current shows
          exact changes_modifyRow reconciled kind named found live shows modified
      · cases modified

theorem Changes.later {last : ProviderDb N} {keepRefused : Bool}
    (changes : Changes env db input keepRefused after) (more : Kept after last) :
    Changes env db input keepRefused last := by
  have touched {id : ItemId} (kept : KeptBut (· = id) db after) : KeptBut (· = id) db last :=
    kept.trans (more.weaken fun _ => False.elim)
  cases changes with
  | kept kept => exact .kept (kept.trans more)
  | trusted id served current version first trusts before kept authored =>
    exact .trusted id served current version first trusts before (touched kept)
      (more id _ authored not_false)
  | advisory item current version first advises before kept authored contents =>
    exact .advisory item current version first advises before (touched kept)
      (more item.id _ authored not_false) contents

theorem changes_changeInTx {keepRefused : Bool} (reconciled : db.Reconciled)
    (changed : db.changeInTx env draw input keepRefused = .ok result) :
    Changes env db input keepRefused result.2 := by
  rcases bind_eq_ok_iff.mp changed with ⟨decided, decides, rest⟩
  cases rest
  have first : Changes env db input keepRefused decided.2 := by
    rw [decideChange] at decides
    cases keepRefused with
    | true => exact .kept (kept_keepRefusedBytes reconciled decides)
    | false =>
      rcases bind_eq_ok_iff.mp decides with ⟨_, _, rest⟩
      cases kind : input.kind with
      | create =>
        rw [kind] at rest
        exact .kept (kept_create reconciled rest)
      | modify =>
        rw [kind] at rest
        exact changes_modify reconciled kind rest
      | delete =>
        rw [kind] at rest
        exact .kept (kept_delete rest)
  exact first.later (kept_reconcile decided.2)

/-! ## Handoffs -/

theorem item_of_contentToServe {crypto : Crypto} {version : VersionHash} {sig : List Char}
    (serves : db.contentToServe crypto id version = some sig) :
    ∃ served, db.summary id = some served := by
  rcases Option.bind_eq_some_iff.mp serves with ⟨item, found, _⟩
  exact ⟨item.served, by rw [summary, (Option.filter_eq_some_iff.mp found).1, Option.map_some]⟩

theorem summaries_recordMayServe (crypto : Crypto) (db : ProviderDb N) (id : ItemId)
    (version : VersionHash) :
    (db.reconcile.contentToServe crypto id version = none →
      Kept db (db.recordMayServe crypto id version)) ∧
    ∀ sig, db.reconcile.contentToServe crypto id version = some sig →
      KeptBut (· = id) db (db.recordMayServe crypto id version) ∧
      ∃ served, db.reconcile.summary id = some served ∧
        (db.recordMayServe crypto id version).summary id = some (served.serve sig) := by
  constructor
  · intro nothing
    rw [recordMayServe, nothing]
    exact kept_reconcile db
  · intro sig serves
    rw [recordMayServe, serves]
    rcases item_of_contentToServe serves with ⟨served, known⟩
    constructor
    · refine KeptBut.trans ((kept_reconcile db).weaken fun _ => False.elim)
        (keptBut_updateItem _ _ ?_)
      intro item
      dsimp only
      split <;> rfl
    · refine ⟨served, known, summary_updateItem_self (fun served => served.serve sig) ?_ ?_ known⟩
      · intro item
        dsimp only
        split <;> rfl
      · intro item
        rw [← ProviderItem.served_serve]
        dsimp only
        split <;> rfl

/-! ## Announcements -/

theorem kept_announceVersion (crypto : Crypto) (db : ProviderDb N) (id : ItemId)
    (version : VersionHash) (seq : Nat) (nowMs : Int) :
    Kept db (db.announceVersion crypto id version seq nowMs) := by
  have start := kept_reconcile db
  rw [announceVersion]
  split
  · exact start
  · split
    · exact start
    · split
      · exact start
      · split
        · exact start
        · exact start.trans (kept_updateItem _ _ (fun _ => rfl) fun _ => rfl)

theorem kept_releaseExpired (db : ProviderDb N) (id : ItemId) (nowMs releaseAfterMs : Int) :
    Kept db (db.releaseExpired id nowMs releaseAfterMs) := by
  apply kept_updateItem <;>
    · intro item
      split <;> rfl

theorem kept_publishFirst (crypto : Crypto) (db : ProviderDb N) (id : ItemId)
    (version : VersionHash) : Kept db (db.publishFirst crypto id version) := by
  have start := kept_reconcile db
  rw [publishFirst]
  split
  · exact start
  · split
    · exact start.trans (kept_updateItem _ _ (fun _ => rfl) fun _ => rfl)
    · exact start

theorem kept_retireItem (db : ProviderDb N) (id : ItemId) : Kept db (db.retireItem id) := by
  apply kept_updateItem <;>
    · intro item
      split <;> rfl

end ProviderDb

end Yadorilink.Provider
