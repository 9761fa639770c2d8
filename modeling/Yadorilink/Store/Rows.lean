import Yadorilink.Domain.NativeStateInvariants
import Yadorilink.Store.Install

/-! What the rows of the heads read back as, and what the loops that rewrite
them leave. A head is read under its path and dot whether it sits in a row or
in a loaded state, so every statement is about one such pair. -/

namespace Yadorilink

open Std OrderedMap KeyedFold ExtTreeMap List NativeState

/-! ## States determined by their heads -/

/-- The heads of a map, one path and dot at a time. -/
def HeadMap.at_ (heads : HeadMap) (key : HeadKey) : Option HeadPayload :=
  ((heads[key.path]?).getD ∅)[key.dot]?

/-! ## Loading -/

namespace Store

theorem at_addHead (heads : HeadMap) (key other : HeadKey) (payload : HeadPayload) :
    HeadMap.at_ (addHead heads key payload) other =
      if key = other then some payload else HeadMap.at_ heads other := by
  simp only [HeadMap.at_, addHead, getElem?_insert_eq]
  by_cases samePath : key.path = other.path
  · rw [if_pos samePath, Option.getD_some, getElem?_insert_eq, samePath]
    by_cases sameDot : key.dot = other.dot
    · have same : key = other := by
        cases key
        cases other
        simp_all
      rw [if_pos sameDot, if_pos same]
    · have different : key ≠ other := fun same => sameDot (congrArg HeadKey.dot same)
      rw [if_neg sameDot, if_neg different]
  · have different : key ≠ other := fun same => samePath (congrArg HeadKey.path same)
    rw [if_neg samePath, if_neg different]

theorem noEmptyPath_headMapOf (rows : List (HeadKey × HeadPayload)) :
    NoEmptyPath (headMapOf rows) := by
  unfold headMapOf
  suffices keeps : ∀ heads, NoEmptyPath heads →
      NoEmptyPath (rows.foldl (fun heads row => addHead heads row.1 row.2) heads) by
    apply keeps
    intro path stored isStored
    simp at isStored
  induction rows with
  | nil => exact fun _ stored => stored
  | cons row rest induction =>
    intro heads stored
    apply induction
    intro path pathHeads isStored
    simp only [addHead, getElem?_insert_eq] at isStored
    split at isStored
    · cases isStored
      simp
    · exact stored path pathHeads isStored

theorem at_headMapOf_of_mem {rows : List (HeadKey × HeadPayload)}
    (distinct : (rows.map Prod.fst).Nodup) {row : HeadKey × HeadPayload} (member : row ∈ rows) :
    HeadMap.at_ (headMapOf rows) row.1 = some row.2 :=
  view_foldl_of_mem HeadMap.at_ Prod.fst (fun row _ => some row.2)
    (fun heads row key => at_addHead heads row.1 key row.2) ∅ distinct member

theorem at_headMapOf_of_not_mem {rows : List (HeadKey × HeadPayload)} {key : HeadKey}
    (absent : key ∉ rows.map Prod.fst) : HeadMap.at_ (headMapOf rows) key = none := by
  have unchanged := view_foldl_of_not_mem HeadMap.at_ Prod.fst
    (fun (row : HeadKey × HeadPayload) _ => some row.2)
    (fun heads row key => at_addHead heads row.1 key row.2) rows ∅ absent
  rw [headMapOf, unchanged]
  simp [HeadMap.at_]

theorem at_headMapOf_filter (table : ExtTreeMap HeadKey HeadPayload)
    (selected : HeadKey → Bool) (key : HeadKey) :
    HeadMap.at_ (headMapOf (table.toList.filter fun row => selected row.1)) key =
      if selected key then table[key]? else none := by
  have distinct : ((table.toList.filter fun row => selected row.1).map Prod.fst).Nodup := by
    apply List.Nodup.sublist (List.Sublist.map Prod.fst (filter_sublist))
    rw [map_fst_toList_eq_keys]
    exact nodup_keys
  cases lookup : table[key]? with
  | none =>
    rw [at_headMapOf_of_not_mem, ite_self]
    intro member
    rcases mem_map.mp member with ⟨row, kept, rfl⟩
    have inTable := mem_toList_iff_getElem?_eq_some.mp (mem_filter.mp kept).1
    rw [lookup] at inTable
    cases inTable
  | some payload =>
    have inTable := mem_toList_iff_getElem?_eq_some.mpr lookup
    by_cases isSelected : selected key = true
    · rw [if_pos isSelected]
      have kept : (key, payload) ∈ table.toList.filter fun row => selected row.1 :=
        mem_filter.mpr ⟨inTable, isSelected⟩
      exact at_headMapOf_of_mem distinct kept
    · rw [if_neg isSelected, at_headMapOf_of_not_mem]
      intro member
      rcases mem_map.mp member with ⟨row, kept, rfl⟩
      exact isSelected (mem_filter.mp kept).2

theorem headAt_loadState (store : Store) (path : SyncPath) (dot : Dot) :
    store.loadState.headAt path dot = store.heads[(⟨path, dot⟩ : HeadKey)]? := by
  have lookup := at_headMapOf_filter store.heads (fun _ => true) ⟨path, dot⟩
  rw [filter_eq_self.mpr (fun _ _ => rfl), if_pos rfl] at lookup
  exact lookup

theorem headAt_loadHeadsAtPaths (store : Store) (context : Context) (paths : List SyncPath)
    (path : SyncPath) (dot : Dot) :
    NativeState.headAt ⟨context, store.loadHeadsAtPaths paths⟩ path dot =
      if path ∈ paths then store.heads[(⟨path, dot⟩ : HeadKey)]? else none := by
  have lookup := at_headMapOf_filter store.heads (fun key => key.path ∈ paths) ⟨path, dot⟩
  simp only [decide_eq_true_eq] at lookup
  exact lookup

theorem headAt_loadPartialState (store : Store) (paths : List SyncPath)
    (path : SyncPath) (dot : Dot) :
    (store.loadPartialState paths).headAt path dot =
      if path ∈ paths then store.heads[(⟨path, dot⟩ : HeadKey)]? else none :=
  store.headAt_loadHeadsAtPaths _ paths path dot

theorem noEmptyPath_loadState (store : Store) : NoEmptyPath store.loadState.heads :=
  noEmptyPath_headMapOf _

theorem noEmptyPath_loadPartialState (store : Store) (paths : List SyncPath) :
    NoEmptyPath (store.loadPartialState paths).heads :=
  noEmptyPath_headMapOf _

theorem context_loadPartialState {store : Store} {paths : List SyncPath} {path : SyncPath}
    {dot : Dot} {payload : HeadPayload}
    (live : (store.loadPartialState paths).headAt path dot = some payload) :
    (store.loadPartialState paths).context[dot.author]? = store.context[dot.author]? := by
  have holds : dot.author ∈ (ExtTreeSet.ofList ((store.loadHeadsAtPaths paths).toList.flatMap
      fun entry => entry.2.keys.map Dot.author) compare).toList := by
    rw [ExtTreeSet.mem_toList, ExtTreeSet.mem_ofList, List.contains_iff_mem, mem_flatMap]
    cases stored : (store.loadHeadsAtPaths paths)[path]? with
    | none => simp [headAt, pathHeads, loadPartialState, stored] at live
    | some heads =>
      simp only [headAt, pathHeads, loadPartialState, stored,
        Option.getD_some] at live
      exact ⟨(path, heads), mem_toList_iff_getElem?_eq_some.mpr stored,
        mem_map.mpr ⟨dot, (mem_keys_iff heads dot).mpr ⟨payload, live⟩, rfl⟩⟩
  have distinct : ((ExtTreeSet.ofList ((store.loadHeadsAtPaths paths).toList.flatMap
      fun entry => entry.2.keys.map Dot.author) compare).toList.map id).Nodup := by
    rw [List.map_id]
    exact ExtTreeSet.distinct_toList.imp ReflCmp.ne_of_cmp_ne_eq
  have stepView : ∀ (context : Context) (author other : AuthorId),
      (loadContextOf store context author)[other]? =
        if id author = other then (store.context[author]?).or context[other]?
        else context[other]? := by
    intro context author other
    unfold loadContextOf
    cases store.context[author]? with
    | none => simp
    | some seq => simp
  have loaded := view_foldl_of_mem
    (fun (context : Context) (author : AuthorId) => context[author]?) id
    (fun author current => (store.context[author]?).or current) stepView ∅ distinct holds
  rw [getElem?_empty, Option.or_none] at loaded
  exact loaded

end Store

/-! ## Rewriting -/

theorem forM_deleteHead {ι : Type} (keyOf : ι → HeadKey) (items : List ι) (store : Store) :
    items.forM (fun item => deleteHead (keyOf item)) store = .ok () { store with
        heads := items.foldl (fun heads item => heads.erase (keyOf item)) store.heads } := by
  induction items generalizing store with
  | nil => rfl
  | cons item rest induction => exact induction _

theorem forM_insertHead {ι : Type} (keyOf : ι → HeadKey) (payloadOf : ι → HeadPayload)
    (items : List ι) (store : Store) (distinct : (items.map keyOf).Nodup)
    (absent : ∀ item, item ∈ items → store.heads[keyOf item]? = none) :
    items.forM (fun item => insertHead (keyOf item) (payloadOf item)) store = .ok () { store with
        heads := items.foldl (fun heads item => heads.insert (keyOf item) (payloadOf item))
          store.heads } := by
  induction items generalizing store with
  | nil => rfl
  | cons item rest induction =>
    rw [map_cons, nodup_cons] at distinct
    have fresh : store.heads.contains (keyOf item) = false := by
      rw [contains_eq_isSome_getElem?, absent item (.head _)]
      rfl
    have first : insertHead (keyOf item) (payloadOf item) store =
        .ok () { store with heads := store.heads.insert (keyOf item) (payloadOf item) } := by
      simp [insertHead, fresh]
    have unfolded : (item :: rest).forM
        (fun item => insertHead (keyOf item) (payloadOf item)) store =
        rest.forM (fun item => insertHead (keyOf item) (payloadOf item))
          { store with heads := store.heads.insert (keyOf item) (payloadOf item) } := by
      change (insertHead (keyOf item) (payloadOf item) >>= _) store = _
      rw [Transaction.bind_apply, first]
    rw [unfolded, induction _ distinct.2]
    · rfl
    · intro other member
      have different : keyOf item ≠ keyOf other := fun same =>
        distinct.1 (same ▸ mem_map_of_mem member)
      simp [different, absent other (.tail item member)]

section PathHeads

variable {path : SyncPath} {old : PathHeads} (new : PathHeads) {store : Store}
  (isOld : ∀ dot : Dot, old[dot]? = store.heads[(⟨path, dot⟩ : HeadKey)]?)

theorem headKeys_nodup (path : SyncPath) {heads : PathHeads} {entries : List (Dot × HeadPayload)}
    (among : entries.Sublist heads.toList) :
    (entries.map fun entry => (⟨path, entry.1⟩ : HeadKey)).Nodup := by
  have dots : (entries.map Prod.fst).Nodup := by
    apply List.Nodup.sublist (List.Sublist.map Prod.fst among)
    rw [map_fst_toList_eq_keys]
    exact nodup_keys
  have injective : Function.Injective fun dot => (⟨path, dot⟩ : HeadKey) :=
    fun first second same => congrArg HeadKey.dot same
  have keys := List.Nodup.map injective dots
  rw [List.map_map] at keys
  exact keys

include isOld

/-- After one path's rows are rewritten, that path reads as `new` and no other
row has changed. -/
theorem installPathHeads_ok :
    ∃ heads, installPathHeads path old new store = .ok () { store with heads := heads } ∧
      ∀ key : HeadKey, heads[key]? =
        if key.path = path then new[key.dot]? else store.heads[key]? := by
  let gone := old.toList.filter fun entry => new[entry.1]? ≠ some entry.2
  let fresh := new.toList.filter fun entry => old[entry.1]? ≠ some entry.2
  let keyOf : Dot × HeadPayload → HeadKey := fun entry => ⟨path, entry.1⟩
  let remaining := gone.foldl (fun heads entry => heads.erase (keyOf entry)) store.heads
  have freshDistinct : (fresh.map keyOf).Nodup := headKeys_nodup path filter_sublist
  have insertView : ∀ (heads : ExtTreeMap HeadKey HeadPayload) (entry : Dot × HeadPayload)
      (key : HeadKey), (heads.insert (keyOf entry) entry.2)[key]? =
        if keyOf entry = key then some entry.2 else heads[key]? :=
    fun heads entry key => getElem?_insert_eq heads (keyOf entry) key entry.2
  -- What the deletes leave: the old heads that stay as they are.
  have afterDeletes : ∀ key : HeadKey, remaining[key]? =
      if key.path = path ∧ new[key.dot]? ≠ old[key.dot]? then none else store.heads[key]? := by
    intro key
    by_cases deleted : key ∈ gone.map keyOf
    · rcases mem_map.mp deleted with ⟨entry, member, rfl⟩
      have facts := mem_filter.mp member
      have stored := mem_toList_iff_getElem?_eq_some.mp facts.1
      have changed : new[entry.1]? ≠ old[entry.1]? := by
        rw [stored]
        simpa using facts.2
      rw [if_pos ⟨rfl, changed⟩, getElem?_foldl_erase keyOf, if_pos deleted]
    · rw [getElem?_foldl_erase keyOf, if_neg deleted]
      split
      · rename_i facts
        rcases key with ⟨keyPath, dot⟩
        obtain ⟨rfl, changed⟩ := facts
        rw [← isOld]
        cases stored : old[dot]? with
        | none => rfl
        | some payload =>
          rw [stored] at changed
          exact absurd (mem_map.mpr ⟨(dot, payload), mem_filter.mpr
            ⟨mem_toList_iff_getElem?_eq_some.mpr stored, by simpa using changed⟩,
            rfl⟩) deleted
      · rfl
  have freshAbsent : ∀ entry, entry ∈ fresh → remaining[keyOf entry]? = none := by
    intro entry member
    have facts := mem_filter.mp member
    have stored := mem_toList_iff_getElem?_eq_some.mp facts.1
    have changed : new[entry.1]? ≠ old[entry.1]? := by
      rw [stored]
      exact fun same => by simp [← same] at facts
    rw [afterDeletes, if_pos ⟨rfl, changed⟩]
  refine ⟨fresh.foldl (fun heads entry => heads.insert (keyOf entry) entry.2) remaining, ?_, ?_⟩
  · change (gone.forM (fun entry => deleteHead (keyOf entry)) >>= fun _ =>
      fresh.forM (fun entry => insertHead (keyOf entry) entry.2)) store = _
    rw [Transaction.bind_apply, forM_deleteHead]
    exact forM_insertHead keyOf Prod.snd fresh { store with heads := remaining } freshDistinct
      freshAbsent
  · intro key
    by_cases inserted : key ∈ fresh.map keyOf
    · rcases mem_map.mp inserted with ⟨entry, member, rfl⟩
      have stored := mem_toList_iff_getElem?_eq_some.mp (mem_filter.mp member).1
      rw [if_pos rfl]
      refine Eq.trans ?_ stored.symm
      exact view_foldl_of_mem
        (fun (heads : ExtTreeMap HeadKey HeadPayload) (key : HeadKey) => heads[key]?) keyOf
        (fun entry _ => some entry.2) insertView remaining freshDistinct member
    · refine Eq.trans (view_foldl_of_not_mem
        (fun (heads : ExtTreeMap HeadKey HeadPayload) (key : HeadKey) => heads[key]?) keyOf
        (fun entry _ => some entry.2) insertView fresh remaining inserted) ?_
      rw [afterDeletes]
      by_cases samePath : key.path = path
      · rcases key with ⟨keyPath, dot⟩
        subst samePath
        simp only [true_and, if_true]
        by_cases changed : new[dot]? = old[dot]?
        · rw [if_neg (not_not.mpr changed), ← isOld, changed]
        · rw [if_pos changed]
          -- A changed dot that was not inserted is not in `new` at all.
          cases stored : new[dot]? with
          | none => rfl
          | some payload =>
            rw [stored] at changed
            exact absurd (mem_map.mpr ⟨(dot, payload), mem_filter.mpr
              ⟨mem_toList_iff_getElem?_eq_some.mpr stored,
                by simpa using Ne.symm changed⟩, rfl⟩) inserted
      · rw [if_neg samePath, if_neg (fun facts => samePath facts.1)]

end PathHeads

/-- Rewriting the touched paths leaves them as `after` has them and changes no
other row. -/
theorem installTouchedHeads_ok {touched : List SyncPath} (distinct : touched.Nodup)
    (before after : HeadMap) (store : Store)
    (isBefore : ∀ path, path ∈ touched → ∀ dot : Dot,
      HeadMap.at_ before ⟨path, dot⟩ = store.heads[(⟨path, dot⟩ : HeadKey)]?) :
    ∃ heads, installTouchedHeads touched before after store = .ok () { store with heads := heads } ∧
      ∀ key : HeadKey, heads[key]? =
        if key.path ∈ touched then HeadMap.at_ after key else store.heads[key]? := by
  induction touched generalizing store with
  | nil => exact ⟨store.heads, rfl, fun key => by simp⟩
  | cons path rest induction =>
    rw [nodup_cons] at distinct
    have isOld : ∀ dot : Dot, ((before[path]?).getD ∅)[dot]? =
        store.heads[(⟨path, dot⟩ : HeadKey)]? := isBefore path (.head _)
    rcases installPathHeads_ok ((after[path]?).getD ∅) isOld with
      ⟨first, wroteFirst, atFirst⟩
    have isBeforeRest : ∀ other, other ∈ rest → ∀ dot : Dot,
        HeadMap.at_ before ⟨other, dot⟩ = first[(⟨other, dot⟩ : HeadKey)]? := by
      intro other member dot
      have different : other ≠ path := fun same => distinct.1 (same ▸ member)
      rw [atFirst, if_neg different, isBefore other (.tail path member) dot]
    rcases induction distinct.2 { store with heads := first } isBeforeRest with
      ⟨heads, wroteRest, atRest⟩
    refine ⟨heads, ?_, ?_⟩
    · change (installPathHeads path ((before[path]?).getD ∅) ((after[path]?).getD ∅) >>=
        fun _ => installTouchedHeads rest before after) store = _
      rw [Transaction.bind_apply, wroteFirst]
      exact wroteRest
    · intro key
      rw [atRest, atFirst]
      simp only [mem_cons]
      by_cases later : key.path ∈ rest
      · rw [if_pos later, if_pos (Or.inr later)]
      · by_cases here : key.path = path
        · rw [if_neg later, if_pos here, if_pos (Or.inl here), ← here]
          rfl
        · rw [if_neg later, if_neg here, if_neg (not_or.mpr ⟨here, later⟩)]

end Yadorilink
