import Yadorilink.Store.Installed

/-! The incremental install against the one that loads, applies and replaces
the whole group's state. The two read different states; outside the touched
paths these states agree with what was there before, which already passed its
checks, so the verdicts and the rows left are the same. -/

namespace Yadorilink

open Std Transaction OrderedMap ExtTreeMap NativeState HeadMap

/-! ## Replacing the whole state -/

private theorem forM_insertContext (entries : List (AuthorId × Nat)) (store : Store)
    (distinct : (entries.map Prod.fst).Nodup)
    (absent : ∀ entry, entry ∈ entries → store.context[entry.1]? = none) :
    entries.forM (fun entry => insertContext entry.1 entry.2) store = .ok () { store with
        context := entries.foldl (fun context entry => context.insert entry.1 entry.2)
          store.context } := by
  induction entries generalizing store with
  | nil => rfl
  | cons entry rest induction =>
    rw [List.map_cons, List.nodup_cons] at distinct
    have fresh : store.context.contains entry.1 = false := by
      rw [contains_eq_isSome_getElem?, absent entry (.head _)]
      rfl
    have first : insertContext entry.1 entry.2 store =
        .ok () { store with context := store.context.insert entry.1 entry.2 } := by
      simp [insertContext, fresh]
    have unfolded : (entry :: rest).forM (fun entry => insertContext entry.1 entry.2) store =
        rest.forM (fun entry => insertContext entry.1 entry.2)
          { store with context := store.context.insert entry.1 entry.2 } := by
      change (insertContext entry.1 entry.2 >>= _) store = _
      rw [bind_apply, first]
    rw [unfolded, induction _ distinct.2]
    · rfl
    · intro other member
      have different : entry.1 ≠ other.1 := fun same =>
        distinct.1 (same ▸ List.mem_map_of_mem member)
      simp [different, absent other (.tail entry member)]

private theorem forM_insertPaths (entries : List (SyncPath × PathHeads)) (store : Store)
    (distinct : (entries.map Prod.fst).Nodup)
    (absent : ∀ entry, entry ∈ entries → ∀ dot : Dot,
      store.heads[(⟨entry.1, dot⟩ : HeadKey)]? = none) :
    ∃ heads, entries.forM (fun entry => entry.2.toList.forM fun head =>
        insertHead ⟨entry.1, head.1⟩ head.2) store = .ok () { store with heads := heads } ∧
      (∀ entry, entry ∈ entries → ∀ dot : Dot, heads[(⟨entry.1, dot⟩ : HeadKey)]? = entry.2[dot]?) ∧
      ∀ key : HeadKey, key.path ∉ entries.map Prod.fst → heads[key]? = store.heads[key]? := by
  induction entries generalizing store with
  | nil => exact ⟨store.heads, rfl, fun entry member => absurd member List.not_mem_nil, fun _ _ => rfl⟩
  | cons entry rest induction =>
    rw [List.map_cons, List.nodup_cons] at distinct
    have keys := headKeys_nodup entry.1 (List.Sublist.refl entry.2.toList)
    let keyOf : Dot × HeadPayload → HeadKey := fun head => ⟨entry.1, head.1⟩
    let inserted := entry.2.toList.foldl (fun heads head => heads.insert (keyOf head) head.2)
      store.heads
    have wroteFirst : entry.2.toList.forM (fun head => insertHead ⟨entry.1, head.1⟩ head.2) store =
        .ok () { store with heads := inserted } :=
      forM_insertHead keyOf Prod.snd entry.2.toList store keys
        fun head _ => absent entry (.head _) head.1
    have insertView : ∀ (heads : ExtTreeMap HeadKey HeadPayload) (head : Dot × HeadPayload)
        (key : HeadKey), (heads.insert (keyOf head) head.2)[key]? =
          if keyOf head = key then some head.2 else heads[key]? :=
      fun heads head key => getElem?_insert_eq heads (keyOf head) key head.2
    have elsewhere : ∀ key : HeadKey, key.path ≠ entry.1 → inserted[key]? = store.heads[key]? := by
      intro key otherPath
      refine KeyedFold.view_foldl_of_not_mem
        (fun (heads : ExtTreeMap HeadKey HeadPayload) (key : HeadKey) => heads[key]?) keyOf
        (fun head _ => some head.2) insertView entry.2.toList store.heads fun member => ?_
      rcases List.mem_map.mp member with ⟨head, _, rfl⟩
      exact otherPath rfl
    have atEntry : ∀ dot : Dot, inserted[(⟨entry.1, dot⟩ : HeadKey)]? = entry.2[dot]? := by
      intro dot
      refine (view_foldl_toList
        (fun (heads : ExtTreeMap HeadKey HeadPayload) dot => heads[(⟨entry.1, dot⟩ : HeadKey)]?)
        (fun payload _ => some payload) ?_ entry.2 store.heads dot).trans ?_
      · intro heads head dot
        simp [keyOf]
      cases entry.2[dot]? with
      | none => exact absent entry (.head _) dot
      | some payload => rfl
    have absentRest : ∀ other, other ∈ rest → ∀ dot : Dot,
        inserted[(⟨other.1, dot⟩ : HeadKey)]? = none := by
      intro other member dot
      have different : other.1 ≠ entry.1 := fun same =>
        distinct.1 (same ▸ List.mem_map_of_mem member)
      rw [elsewhere ⟨other.1, dot⟩ different]
      exact absent other (.tail entry member) dot
    rcases induction { store with heads := inserted } distinct.2 absentRest with
      ⟨heads, wroteRest, atRest, outside⟩
    refine ⟨heads, ?_, ?_, ?_⟩
    · change (entry.2.toList.forM (fun head => insertHead ⟨entry.1, head.1⟩ head.2) >>= fun _ =>
        rest.forM _) store = _
      rw [bind_apply, wroteFirst]
      exact wroteRest
    · intro other member dot
      rcases List.mem_cons.mp member with same | inRest
      · rw [same, outside ⟨entry.1, dot⟩ distinct.1]
        exact atEntry dot
      · exact atRest other inRest dot
    · intro key notListed
      rw [List.map_cons, List.mem_cons, not_or] at notListed
      rw [outside key notListed.2]
      exact elsewhere key notListed.1

theorem installState_ok (state : NativeState) (store : Store) : ∃ heads, installState state store =
        .ok () { store with context := state.context, heads := heads } ∧
      ∀ key : HeadKey, heads[key]? = HeadMap.at_ state.heads key := by
  have authors : (state.context.toList.map Prod.fst).Nodup := by
    rw [map_fst_toList_eq_keys]
    exact nodup_keys
  have paths : (state.heads.toList.map Prod.fst).Nodup := by
    rw [map_fst_toList_eq_keys]
    exact nodup_keys
  have contexts : state.context.toList.forM (fun entry => insertContext entry.1 entry.2)
      { store with context := ∅, heads := ∅ } =
        .ok () { store with context := state.context, heads := ∅ } := by
    rw [forM_insertContext _ _ authors fun entry _ => getElem?_empty,
      foldl_insert_toList]
  rcases forM_insertPaths state.heads.toList { store with context := state.context, heads := ∅ }
    paths (fun _ _ _ => getElem?_empty) with ⟨heads, wrote, atPaths, outside⟩
  refine ⟨heads, ?_, ?_⟩
  · simp only [installState, bind_apply, modify_apply, contexts]
    exact wrote
  · intro key
    cases stored : state.heads[key.path]? with
    | none =>
      have unlisted : key.path ∉ state.heads.toList.map Prod.fst := by
        intro member
        rcases List.mem_map.mp member with ⟨entry, inHeads, same⟩
        have lookup := mem_toList_iff_getElem?_eq_some.mp inHeads
        rw [same, stored] at lookup
        cases lookup
      rw [outside key unlisted, at_, stored, getElem?_empty]
      simp
    | some pathHeads =>
      have lookup := atPaths (key.path, pathHeads)
        (mem_toList_iff_getElem?_eq_some.mpr stored) key.dot
      rw [at_, stored]
      exact lookup

/-! ## Applying a delta to the whole state and to its touched part -/

section Touched

variable {crypto : Crypto} {delta : NativeDelta} {store : Store} {path : SyncPath}

variable (crypto delta store) in
def appliedFull : NativeState :=
  ⟨store.context.insert delta.author delta.seq,
    (delta.remoteOps crypto).foldl (NativeState.applyOp delta.dot) store.loadState.heads⟩

private theorem pathHeads_touched {path : SyncPath} {paths : List SyncPath}
    (touched : path ∈ paths) :
    ((store.loadPartialState paths).heads[path]?).getD ∅ =
      (store.loadState.heads[path]?).getD ∅ := by
  apply ext_getElem?
  intro dot
  have part := store.headAt_loadPartialState paths path dot
  have whole := store.headAt_loadState path dot
  rw [if_pos touched] at part
  exact part.trans whole.symm

private theorem heads_untouched {paths : List SyncPath} (untouched : path ∉ paths) :
    (store.loadPartialState paths).heads[path]? = none := by
  cases stored : (store.loadPartialState paths).heads[path]? with
  | none => rfl
  | some heads =>
    have nonempty := store.noEmptyPath_loadPartialState paths path heads stored
    have allNone : ∀ dot : Dot, heads[dot]? = none := by
      intro dot
      have part := store.headAt_loadPartialState paths path dot
      rw [if_neg untouched, headAt, pathHeads, stored] at part
      exact part
    rw [(isEmpty_iff_getElem? heads).mpr allNone] at nonempty
    cases nonempty

private theorem heads_applied_touched (touched : path ∈ touchedPaths crypto delta) :
    (appliedState crypto delta store).heads[path]? =
      (appliedFull crypto delta store).heads[path]? := by
  have distinct := delta.remoteOps_paths_nodup crypto
  have samePath := @pathHeads_touched store _ _ touched
  rcases List.mem_map.mp touched with ⟨op, member, rfl⟩
  have part := getElem?_changeEach_of_mem RemoteOp.path (fun op => op.result delta.dot)
    (delta.remoteOps crypto) (store.loadPartialState (touchedPaths crypto delta)).heads distinct
    member
  have whole := getElem?_changeEach_of_mem RemoteOp.path (fun op => op.result delta.dot)
    (delta.remoteOps crypto) store.loadState.heads distinct member
  rw [samePath] at part
  exact part.trans whole.symm

private theorem heads_part_untouched (untouched : path ∉ touchedPaths crypto delta) :
    (appliedState crypto delta store).heads[path]? = none := by
  have part := getElem?_changeEach_of_not_mem RemoteOp.path (fun op => op.result delta.dot)
    (delta.remoteOps crypto) (store.loadPartialState (touchedPaths crypto delta)).heads untouched
  exact part.trans (heads_untouched untouched)

theorem heads_full_untouched (untouched : path ∉ touchedPaths crypto delta) :
    (appliedFull crypto delta store).heads[path]? = store.loadState.heads[path]? :=
  getElem?_changeEach_of_not_mem RemoteOp.path (fun op => op.result delta.dot)
    (delta.remoteOps crypto) store.loadState.heads untouched

private theorem heads_part_eq :
    (appliedState crypto delta store).heads = (appliedFull crypto delta store).heads.filter
        fun path _ => path ∈ touchedPaths crypto delta := by
  apply ext_getElem?
  intro path
  rw [getElem?_filter']
  by_cases touched : path ∈ touchedPaths crypto delta
  · rw [heads_applied_touched touched]
    simp only [touched, decide_true]
    cases (appliedFull crypto delta store).heads[path]? with
    | none => rfl
    | some heads => rfl
  · rw [heads_part_untouched touched]
    simp [touched]

private theorem context_part_eq {heads : PathHeads}
    (stored : (appliedState crypto delta store).heads[path]? = some heads) {dot : Dot}
    (member : dot ∈ heads.keys) :
    (appliedState crypto delta store).context[dot.author]? =
      (appliedFull crypto delta store).context[dot.author]? := by
  simp only [appliedState, appliedFull, getElem?_insert_eq]
  split
  · rfl
  · rename_i otherAuthor
    have otherDot : delta.dot ≠ dot := fun same => otherAuthor (congrArg Dot.author same)
    by_cases touched : path ∈ touchedPaths crypto delta
    · rcases List.mem_map.mp touched with ⟨op, inOps, rfl⟩
      rcases (mem_keys_iff heads dot).mp member with ⟨payload, live⟩
      have liveAfter : (appliedState crypto delta store).headAt op.path dot = some payload := by
        rw [headAt, pathHeads, stored]
        exact live
      have before := (headAt_ops_of_mem
        (store.loadPartialState (touchedPaths crypto delta)) _ delta.dot _
        (delta.remoteOps_paths_nodup crypto) inOps).mp liveAfter
      rcases before with ⟨same, _⟩ | ⟨_, liveBefore, _⟩
      · exact absurd same otherDot
      · exact Store.context_loadPartialState liveBefore
    · rw [heads_part_untouched touched] at stored
      cases stored

theorem observedBy_appliedFull (contextIsFrontier : ∀ author : AuthorId, store.context[author]? =
      (store.frontier[author]?).map NativeAuthorFrontierEntry.seq)
    (chain : checkChainAdvance store.frontier[delta.author]? delta.prev delta.seq = .ok ())
    {dot : Dot} (observed : observedBy store.context dot = true) :
    observedBy (appliedFull crypto delta store).context dot = true := by
  rcases (observedBy_iff _ _).mp observed with ⟨seq, known, within⟩
  rw [observedBy_iff, appliedFull, getElem?_insert_eq]
  by_cases same : delta.author = dot.author
  · have next := (checkChainAdvance_eq_ok_iff.mp chain).1
    rw [contextIsFrontier, ← same] at known
    rw [positionSeq, known, Option.getD_some] at next
    exact ⟨delta.seq, if_pos same, by omega⟩
  · exact ⟨seq, by rw [if_neg same]; exact known, within⟩

theorem checkInvariants_part (valid : store.loadState.checkInvariants = .ok ())
    (contextIsFrontier : ∀ author : AuthorId, store.context[author]? =
      (store.frontier[author]?).map NativeAuthorFrontierEntry.seq)
    (chain : checkChainAdvance store.frontier[delta.author]? delta.prev delta.seq = .ok ()) :
    (appliedState crypto delta store).checkInvariants =
      (appliedFull crypto delta store).checkInvariants := by
  unfold checkInvariants
  rw [heads_part_eq, toList_filter]
  apply Fallible.forM_filter
  · intro entry member isTouched
    have touched : entry.1 ∈ touchedPaths crypto delta := by simpa using isTouched
    have stored := mem_toList_iff_getElem?_eq_some.mp member
    rw [← heads_applied_touched touched] at stored
    exact checkPath_congr fun dot inHeads => context_part_eq stored inHeads
  · intro entry member isUntouched
    have untouched : entry.1 ∉ touchedPaths crypto delta := by simpa using isUntouched
    have stored := mem_toList_iff_getElem?_eq_some.mp member
    rw [heads_full_untouched untouched] at stored
    have passed := Fallible.forM_eq_ok_iff.mp valid entry
      (mem_toList_iff_getElem?_eq_some.mpr stored)
    rw [checkPath_eq_ok_iff] at passed ⊢
    exact ⟨passed.1, passed.2.1, fun dot inHeads =>
      ⟨(passed.2.2 dot inHeads).1,
        observedBy_appliedFull contextIsFrontier chain (passed.2.2 dot inHeads).2⟩⟩

private theorem installState_appliedFull {heads : ExtTreeMap HeadKey HeadPayload}
    (written : ∀ key : HeadKey, heads[key]? = if key.path ∈ touchedPaths crypto delta then
        HeadMap.at_ (appliedState crypto delta store).heads key
      else store.heads[key]?) :
    installState (appliedFull crypto delta store) store = .ok () { store with
        context := store.context.insert delta.author delta.seq, heads := heads } := by
  rcases installState_ok (appliedFull crypto delta store) store with ⟨replaced, ran, lookup⟩
  have same : replaced = heads := by
    apply ext_getElem?
    intro key
    rw [lookup, written]
    by_cases touched : key.path ∈ touchedPaths crypto delta
    · rw [if_pos touched, at_, at_, heads_applied_touched touched]
    · rw [if_neg touched, at_, heads_full_untouched touched]
      exact store.headAt_loadState key.path key.dot
  rw [ran, same]
  rfl

private theorem installFullState_eq {groupId : FolderGroupId} {key : VerifyingKey}
    (signed : delta.verifySignature crypto key = true) (sameGroup : delta.groupId = groupId)
    (chain : checkChainAdvance store.frontier[delta.author]? delta.prev delta.seq = .ok ()) :
    installVerifiedDeltaFullState crypto groupId delta key store =
      match NativeState.checkOps [] (delta.remoteOps crypto) with
      | .error failure => .error (.invalidInput (.malformed failure)) store
      | .ok () =>
        match (appliedFull crypto delta store).checkInvariants with
        | .error violation => .ok (.wouldViolateInvariant violation) store
        | .ok () => (do
            installState (appliedFull crypto delta store)
            recordInstalledDelta crypto delta
            return .installed delta.dot : Db InstallOutcome) store := by
  simp only [installVerifiedDeltaFullState, bind_apply, get_apply, signed,
    Bool.not_true, Bool.false_eq_true, if_false, sameGroup, ne_eq, not_true_eq_false, chain]
  cases checked : checkOps [] (delta.remoteOps crypto) with
  | error failure =>
    rw [receiveVerified_refused checked]
    rfl
  | ok value =>
    have received : store.loadState.receiveVerified delta.author delta.seq
        (delta.remoteOps crypto) = .ok (delta.dot, appliedFull crypto delta store) := by
      rw [receiveVerified, checked]
      rfl
    rw [received]
    have sameSeq : delta.dot.seq = delta.seq := rfl
    simp only [sameSeq, not_true_eq_false, if_false]
    cases (appliedFull crypto delta store).checkInvariants with
    | error violation => rfl
    | ok passed => rfl

end Touched

/-- The incremental install and the install over the whole group's state
return the same and leave the same rows, for every delta and every key. -/
theorem incremental_install_eq_full_state (crypto : Crypto) (groupId : FolderGroupId)
    (delta : NativeDelta) (key : VerifyingKey) (store : Store) (quiet : store.Quiet)
    (valid : store.loadState.checkInvariants = .ok ())
    (contextIsFrontier : ∀ author : AuthorId, store.context[author]? =
      (store.frontier[author]?).map NativeAuthorFrontierEntry.seq) :
    installVerifiedDeltaInner crypto groupId delta key store =
      installVerifiedDeltaFullState crypto groupId delta key store := by
  by_cases signed : delta.verifySignature crypto key = true
  swap
  · simp [installVerifiedDeltaInner, installVerifiedDeltaReporting,
      installVerifiedDeltaFullState, bind_apply, signed]
  by_cases sameGroup : delta.groupId = groupId
  swap
  · simp [installVerifiedDeltaInner, installVerifiedDeltaReporting,
      installVerifiedDeltaFullState, bind_apply, signed, sameGroup]
  cases chain : checkChainAdvance store.frontier[delta.author]? delta.prev delta.seq with
  | error failure =>
    simp [installVerifiedDeltaInner, installVerifiedDeltaReporting,
      installVerifiedDeltaFullState, bind_apply, signed, sameGroup, chain,
      quiet.checkFreeze, quiet.closedVerdict]
  | ok continues =>
    rw [installVerifiedDeltaInner_eq signed sameGroup (quiet.checkFreeze ..)
      (quiet.closedVerdict ..) chain, installEnd, installFullState_eq signed sameGroup chain,
      checkInvariants_part valid contextIsFrontier chain]
    cases NativeState.checkOps [] (delta.remoteOps crypto) with
    | error failure => rfl
    | ok checked =>
      cases (appliedFull crypto delta store).checkInvariants with
      | error violation => rfl
      | ok passed =>
        rcases writeInstalled_eq crypto delta store with ⟨heads, written, wrote⟩
        simp only [bind_apply, installState_appliedFull written, wrote,
          quiet.effectiveClosedCutoff]
        cases recordInstalledDelta crypto delta _ with
        | ok recorded after => rfl
        | error failure after => rfl

def sampleInstalled : Store :=
  let hash := sampleFirst.deltaHash Crypto.sample
  { Store.empty with
    context := ExtTreeMap.insert ∅ sampleFirst.author 1
    heads := ExtTreeMap.insert ∅ ⟨"notes", sampleFirst.dot⟩ ⟨⟨7⟩, hash⟩
    frontier := ExtTreeMap.insert ∅ sampleFirst.author ⟨1, hash⟩
    log := ExtTreeMap.insert ∅ sampleFirst.dot hash
    bodies := ExtTreeMap.insert ∅ sampleFirst.dot ⟨hash, sampleFirst⟩ }

theorem incremental_install_eq_full_state_second :
    installVerifiedDeltaInner Crypto.sample "group" sampleSecond 5 sampleInstalled =
      installVerifiedDeltaFullState Crypto.sample "group" sampleSecond 5 sampleInstalled := by
  apply incremental_install_eq_full_state Crypto.sample "group" sampleSecond 5 sampleInstalled
    ⟨rfl, rfl, rfl⟩ (by decide)
  intro author
  simp only [sampleInstalled, getElem?_insert_eq]
  split
  · rfl
  · simp

end Yadorilink
