import Yadorilink.Store.Installed

/-! What any install leaves behind, whether or not its delta was decoded and its
store is sound: the tables it writes and the rows it can have changed in them. -/

namespace Yadorilink

open Std Transaction NativeState

/-- How an install moves its author's position, and where it changes heads. -/
structure Records (crypto : Crypto) (delta : NativeDelta) (store after : Store) : Prop where
  checked : NativeState.checkOps [] (delta.remoteOps crypto) = .ok ()
  context : after.context = store.context.insert delta.author delta.seq
  applied : ∀ (path : SyncPath) (dot : Dot), after.heads[(⟨path, dot⟩ : HeadKey)]? =
    NativeState.headAt ⟨store.context, (delta.remoteOps crypto).foldl
      (NativeState.applyOp delta.dot) store.loadState.heads⟩ path dot
  heads : ∀ key : HeadKey, (∀ op ∈ delta.ops, op.path ≠ key.path) →
    after.heads[key]? = store.heads[key]?
  unlogged : store.log[delta.dot]? = none
  holds : after.holds = store.holds
  frontier : after.frontier = store.frontier.insert delta.author ⟨delta.seq, delta.deltaHash crypto⟩
  log : after.log = store.log.insert delta.dot (delta.deltaHash crypto)

section Records

variable {crypto : Crypto} {delta : NativeDelta} {store after : Store} {capture : Option String}
  {result : InstallOutcome × InstalledHeads}

private theorem recordRecursivePart_parts (ran : recordRecursivePart delta store = .ok () after) :
    ∃ parts, after = { store with parts := parts } := by
  unfold recordRecursivePart at ran
  split at ran
  · cases ran
    exact ⟨store.parts, rfl⟩
  · split at ran
    · cases ran
    · cases ran
      exact ⟨_, rfl⟩

private theorem recordInstalledDelta_written
    (ran : recordInstalledDelta crypto delta store = .ok () after) :
    store.log[delta.dot]? = none ∧ ∃ bodies parts, after = { store with
      frontier := store.frontier.insert delta.author ⟨delta.seq, delta.deltaHash crypto⟩
      log := store.log.insert delta.dot (delta.deltaHash crypto)
      bodies := bodies
      parts := parts } := by
  unfold recordInstalledDelta at ran
  simp only [bind_apply, frontierEntryUpsert, recordDeltaLog, recordDeltaBody] at ran
  split at ran
  · rename_i logs
    split at logs
    · cases logs
    · rename_i unlogged
      cases logs
      split at ran
      · rename_i records
        rcases recordRecursivePart_parts ran with ⟨parts, rfl⟩
        refine ⟨by simpa using unlogged, ?_⟩
        split at records
        · cases records
          exact ⟨_, _, rfl⟩
        · cases records
          exact ⟨_, _, rfl⟩
      · cases ran
  · cases ran

private theorem recordCapture_journal {recoveryId : String} {seq : Nat}
    (ran : recordCapture recoveryId seq store = .ok () after) :
    ∃ journal, after = { store with journal := journal } := by
  unfold recordCapture at ran
  split at ran
  · split at ran
    · cases ran
      exact ⟨_, rfl⟩
    · cases ran
  · cases ran

private theorem captured_records {middle : Store} (records : Records crypto delta store middle)
    (ran : (match capture with
      | some recoveryId => recordCapture recoveryId delta.seq
      | none => pure () : Db Unit) middle = .ok () after) :
    Records crypto delta store after ∧ after.versions = middle.versions := by
  cases capture with
  | none =>
    cases ran
    exact ⟨records, rfl⟩
  | some recoveryId =>
    rcases recordCapture_journal ran with ⟨journal, rfl⟩
    exact ⟨⟨records.checked, records.context, records.applied, records.heads, records.unlogged,
      records.holds, records.frontier, records.log⟩, rfl⟩

private theorem applied_of_touched {heads : ExtTreeMap HeadKey HeadPayload}
    (written : ∀ key : HeadKey, heads[key]? = if key.path ∈ touchedPaths crypto delta then
        HeadMap.at_ (appliedState crypto delta store).heads key
      else store.heads[key]?) (path : SyncPath) (dot : Dot) :
    heads[(⟨path, dot⟩ : HeadKey)]? =
      NativeState.headAt ⟨store.context, (delta.remoteOps crypto).foldl
        (NativeState.applyOp delta.dot) store.loadState.heads⟩ path dot := by
  rw [written]
  by_cases touched : path ∈ touchedPaths crypto delta
  · rw [if_pos touched]
    have part := store.headAt_loadPartialState (touchedPaths crypto delta) path dot
    rw [if_pos touched, ← store.headAt_loadState] at part
    rcases List.mem_map.mp touched with ⟨op, member, rfl⟩
    apply Option.ext
    intro payload
    have distinct := delta.remoteOps_paths_nodup crypto
    have ofPart : (appliedState crypto delta store).headAt op.path dot = some payload ↔ _ :=
      headAt_ops_of_mem _ _ delta.dot _ distinct member
    have ofWhole : NativeState.headAt ⟨store.context, (delta.remoteOps crypto).foldl
        (NativeState.applyOp delta.dot) store.loadState.heads⟩ op.path dot = some payload ↔ _ :=
      headAt_ops_of_mem store.loadState _ delta.dot _ distinct member
    rw [part] at ofPart
    exact ofPart.trans ofWhole.symm
  · rw [if_neg touched]
    have whole := headAt_ops_of_not_mem store.loadState store.context delta.dot _
      touched dot
    rw [whole, store.headAt_loadState]

private theorem writeInstalled_records
    (checked : NativeState.checkOps [] (delta.remoteOps crypto) = .ok ())
    (ran : writeInstalled crypto delta capture (touchedPaths crypto delta)
      (store.loadPartialState (touchedPaths crypto delta)).heads
      (appliedState crypto delta store) store = .ok () after) :
    Records crypto delta store after ∧ after.versions = store.versions := by
  rcases installTouchedHeads_touched crypto delta store with ⟨heads, touched, wrote⟩
  have untouched : ∀ key : HeadKey, (∀ op ∈ delta.ops, op.path ≠ key.path) →
      heads[key]? = store.heads[key]? := by
    intro key elsewhere
    rw [touched, if_neg]
    intro isTouched
    rcases mem_ops_of_mem_touchedPaths isTouched with ⟨op, member, samePath⟩
    exact elsewhere op member samePath
  unfold writeInstalled at ran
  simp only [bind_apply, get_apply, wrote, authorContextUpsert] at ran
  cases recorded : recordInstalledDelta crypto delta { store with
      context := store.context.insert delta.author delta.seq, heads := heads } with
  | error failure middle =>
    rw [recorded] at ran
    cases ran
  | ok value middle =>
    simp only [recorded] at ran
    rcases recordInstalledDelta_written recorded with ⟨unlogged, bodies, parts, written⟩
    have records : Records crypto delta store middle := by
      rw [written]
      exact ⟨checked, rfl, applied_of_touched touched, untouched, unlogged, rfl, rfl, rfl⟩
    have versions : middle.versions = store.versions := by rw [written]
    cases closing : (store.effectiveClosedCutoff delta.author).isSome with
    | false =>
      simp only [closing, Bool.false_eq_true, if_false] at ran
      rcases captured_records records ran with ⟨recorded, same⟩
      exact ⟨recorded, same.trans versions⟩
    | true =>
      rcases closeStateIfReached_ok delta.author middle with ⟨closed, closes, _⟩
      simp only [closing, if_true, bind_apply, closes] at ran
      have recordsClosed : Records crypto delta store { middle with closed := closed } :=
        ⟨records.checked, records.context, records.applied, records.heads, records.unlogged,
          records.holds, records.frontier, records.log⟩
      rcases captured_records recordsClosed ran with ⟨recorded, same⟩
      exact ⟨recorded, same.trans versions⟩

private theorem applyAndWrite_records
    (ran : applyAndWrite crypto delta capture store = .ok result after) :
    ((∀ dot, result.1 ≠ .installed dot) ∧ after = store) ∨
      (result.1 = .installed delta.dot ∧ Records crypto delta store after ∧
        after.versions = store.versions) := by
  unfold applyAndWrite at ran
  simp only [bind_apply, get_apply] at ran
  cases checked : NativeState.checkOps [] (delta.remoteOps crypto) with
  | error failure =>
    simp only [receiveVerified_refused checked] at ran
    cases ran
  | ok passed =>
    have received := @receiveVerified_touched crypto delta store checked
    rw [touchedPaths] at received
    have sameSeq : delta.dot.seq = delta.seq := rfl
    simp only [received, sameSeq, ne_eq, not_true_eq_false, if_false] at ran
    cases valid : (appliedState crypto delta store).checkInvariants with
    | error violation =>
      simp only [valid] at ran
      cases ran
      exact Or.inl ⟨by simp, rfl⟩
    | ok passed =>
      simp only [valid] at ran
      rcases bind_eq_ok_iff.mp ran with ⟨_, middle, wrote, finished⟩
      cases finished
      exact Or.inr ⟨rfl, writeInstalled_records checked wrote⟩

/-- An install that does not fail refuses its delta and leaves the store as it
was, or records the next delta of its author and leaves the versions alone. -/
theorem installVerifiedDeltaReporting_records {groupId : FolderGroupId} {key : VerifyingKey}
    {admission : Admission}
    (ran : installVerifiedDeltaReporting crypto groupId delta key admission store =
      .ok result after) :
    ((∀ dot, result.1 ≠ .installed dot) ∧ after = store) ∨ (result.1 = .installed delta.dot ∧
        checkChainAdvance store.frontier[delta.author]? delta.prev delta.seq = .ok () ∧
        Records crypto delta store after ∧ after.versions = store.versions) := by
  unfold installVerifiedDeltaReporting at ran
  simp only [bind_apply, get_apply] at ran
  split at ran
  · cases ran
  split at ran
  · cases ran
  cases freeze : checkFreeze store groupId delta.author delta.seq admission with
  | error failure =>
    simp only [freeze] at ran
    cases ran
  | ok verdict =>
    have written : ∀ capture, applyAndWrite crypto delta capture store = .ok result after →
        ((∀ dot, result.1 ≠ .installed dot) ∧ after = store) ∨
          (result.1 = .installed delta.dot ∧ Records crypto delta store after ∧
            after.versions = store.versions) :=
      fun capture wrote => applyAndWrite_records wrote
    cases verdict with
    | frozen =>
      simp only [freeze] at ran
      cases ran
      exact Or.inl ⟨by simp, rfl⟩
    | open_ | capture recoveryId =>
      cases closure : store.closedVerdict crypto delta with
      | beyond cutoff =>
        simp only [freeze, closure] at ran
        cases ran
        exact Or.inl ⟨by simp, rfl⟩
      | fork seq =>
        simp only [freeze, closure] at ran
        cases ran
        exact Or.inl ⟨by simp, rfl⟩
      | open_ =>
        cases chain : checkChainAdvance store.frontier[delta.author]? delta.prev
            delta.seq with
        | error failure =>
          simp only [freeze, closure, chain] at ran
          cases ran
        | ok next =>
          simp only [freeze, closure, chain] at ran
          rcases written _ ran with refused | ⟨installed, records⟩
          · exact Or.inl refused
          · exact Or.inr ⟨installed, rfl, records⟩

end Records

end Yadorilink
