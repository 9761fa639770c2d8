import Yadorilink.Provider.Provenance

/-! What was handed out under an item's id, and the edits that are trusted over it. A run takes
one transaction of the provider at a time; beside the database it keeps the contents recorded as
possibly served under each id since its last trusted edit. -/

namespace Yadorilink.Provider

open Std List

/-- A provider root with what it recorded as possibly served in the current epochs. -/
structure Epochs (N : Type) where
  db : ProviderDb N
  handed : List (ItemId × List Char)

/-- One transaction of a provider root. -/
inductive ProviderEvent (N : Type) where
  | mayServe (id : ItemId) (version : VersionHash)
  /-- The projector writes the rows of a remote change. -/
  | remote (rows : ExtTreeMap SyncPath FileVersion) (versions : ExtTreeMap VersionHash FileVersion)
      (native : N)
  | announce (id : ItemId) (version : VersionHash) (seq : Nat) (nowMs : Int)
  | release (id : ItemId) (nowMs releaseAfterMs : Int)
  | publish (id : ItemId) (version : VersionHash)
  | retire (id : ItemId)
  /-- The generations that a reconciliation or a replaced row advances. -/
  | advance (bumps : ItemId → Nat)
  /-- An item is minted for a live path that is listed. -/
  | list (draw : List ProviderItem → ItemId) (path : SyncPath)
  | change (input : ApplyInput) (draw : List ProviderItem → ItemId) (keepRefused : Bool)

namespace Epochs

variable {N : Type} (env : WritePath N)

/-- The edit that a transaction authors in place as trusted, when it commits one. -/
def trusts (state : Epochs N) : ProviderEvent N → Option (ItemId × FileVersion)
  | .change input draw false =>
    if (state.db.reconcile.changeInTx env draw input false).isOk then
      ProviderDb.trustedEdit env state.db.reconcile input
    else
      none
  | _ => none

/-- The database after a transaction; a failed one is rolled back. -/
def database (db : ProviderDb N) : ProviderEvent N → ProviderDb N
  | .mayServe id version => db.recordMayServe env.crypto id version
  | .remote rows versions native => ProviderDb.reconcile { db with rows, versions, native }
  | .announce id version seq nowMs => db.announceVersion env.crypto id version seq nowMs
  | .release id nowMs releaseAfterMs => db.releaseExpired id nowMs releaseAfterMs
  | .publish id version => db.publishFirst env.crypto id version
  | .retire id => db.retireItem id
  | .advance bumps =>
    { db with items := db.items.map fun item =>
        { item with generation := item.generation + bumps item.id } }
  | .list draw path =>
    if db.pathLive path then
      match db.mintItem draw path with
      | .ok minted => minted.2
      | .error _ => db
    else
      db
  | .change input draw keepRefused =>
    match db.reconcile.changeInTx env draw input keepRefused with
    | .ok result => result.2
    | .error _ => db

/-- The content that a transaction records as possibly served. -/
def hands (state : Epochs N) : ProviderEvent N → List (ItemId × List Char)
  | .mayServe id version =>
    (state.db.reconcile.contentToServe env.crypto id version).toList.map fun sig => (id, sig)
  | _ => []

def step (state : Epochs N) (event : ProviderEvent N) : Option (Epochs N) :=
  let kept := (state.trusts env event).elim state.handed fun edit =>
    state.handed.filter fun entry => entry.1 != edit.1
  some ⟨database env state.db event, kept ++ state.hands env event⟩

def summary (state : Epochs N) (id : ItemId) : Option Served :=
  state.db.summary id

/-- Whether an mtime on the item leaves its summary alone: a summary of one content is of the
content that the item now shows. -/
def leavesSummary (item : ProviderItem) (current : FileVersion) : Bool :=
  match item.served with
  | .single sig => decide (sig = current.contentSig ∧ Regular current)
  | _ => true

/-- No mtime is set, past the trust predicate, on an item whose summary is of another content
than the one the item now shows. -/
def Warranted (state : Epochs N) : ProviderEvent N → Prop
  | .change input _ false =>
    (ProviderDb.advisoryEdit env state.db.reconcile input).all
      (fun edit => leavesSummary edit.1 edit.2) = true
  | _ => True

instance (state : Epochs N) : DecidablePred (state.Warranted env) := fun event => by
  unfold Warranted
  split <;> infer_instance

/-- The summaries remember what they must over one transaction. One content gives way to another
only through a trusted edit, a mixed summary stays mixed, and a trusted edit replaces the only
content that was handed out under its item. -/
def Remembers (state : Epochs N) (event : ProviderEvent N) (next : Epochs N) : Prop :=
  (∀ id first second, state.summary id = some (.single first) →
      next.summary id = some (.single second) → second ≠ first →
      ∃ current, state.trusts env event = some (id, current)) ∧
    (∀ id, state.summary id = some .mixed → next.summary id = some .mixed) ∧
    ∀ id current, state.trusts env event = some (id, current) →
      ∀ sig, (id, sig) ∈ state.handed → sig = current.contentSig

/-! ## Steps -/

variable {env} {state : Epochs N} {event : ProviderEvent N}

/-- Whatever was handed out under an id is what its summary says, or the summary is mixed. -/
def Sound (state : Epochs N) : Prop :=
  ∀ id sig, (id, sig) ∈ state.handed →
    state.summary id = some (.single sig) ∨ state.summary id = some .mixed

/-- What a transaction can do to the summaries. -/
inductive Moves (env : WritePath N) (state : Epochs N) (event : ProviderEvent N) : Prop where
  | kept (nothing : state.hands env event = [])
      (kept : state.db.Kept (database env state.db event))
  | served (id : ItemId) (sig : List Char) (served : Served)
      (hands : state.hands env event = [(id, sig)])
      (before : state.summary id = some served)
      (kept : state.db.KeptBut (· = id) (database env state.db event))
      (after : (database env state.db event).summary id = some (served.serve sig))
  | trusted (id : ItemId) (sig : List Char) (served : Served) (current : FileVersion)
      (trusts : state.trusts env event = some (id, current))
      (nothing : state.hands env event = [])
      (before : state.summary id = some served)
      (kept : state.db.KeptBut (· = id) (database env state.db event))
      (after : (database env state.db event).summary id = some (served.authored sig))
  | advised (id : ItemId) (sig : List Char) (served : Served)
      (nothing : state.hands env event = [])
      (same : ∀ known, served = .single known → known = sig)
      (before : state.summary id = some served)
      (kept : state.db.KeptBut (· = id) (database env state.db event))
      (after : (database env state.db event).summary id = some (served.authored sig))

theorem moves_mayServe (state : Epochs N) (id : ItemId) (version : VersionHash) :
    Moves env state (.mayServe id version) := by
  rcases state.db.summaries_recordMayServe env.crypto id version with ⟨unserved, serves⟩
  cases content : state.db.reconcile.contentToServe env.crypto id version with
  | none =>
    refine .kept ?_ (unserved content)
    rw [hands, content]
    rfl
  | some sig =>
    rcases serves sig content with ⟨kept, served, before, after⟩
    refine .served id sig served ?_ ?_ kept after
    · rw [hands, content]
      rfl
    · rw [summary, ← ProviderDb.summary_reconcile, before]

theorem moves_change {input : ApplyInput} {draw : List ProviderItem → ItemId} {keepRefused : Bool}
    (warranted : state.Warranted env (.change input draw keepRefused)) :
    Moves env state (.change input draw keepRefused) := by
  cases changed : state.db.reconcile.changeInTx env draw input keepRefused with
  | error error =>
    refine .kept rfl ?_
    rw [database, changed]
    exact .refl _ state.db
  | ok result =>
    have after : database env state.db (.change input draw keepRefused) = result.2 := by
      rw [database, changed]
    have reconciled := state.db.kept_reconcile
    have touched {id : ItemId} (kept : state.db.reconcile.KeptBut (· = id) result.2) :
        state.db.KeptBut (· = id) (database env state.db (.change input draw keepRefused)) := by
      rw [after]
      exact (reconciled.weaken fun _ => False.elim).trans kept
    cases ProviderDb.changes_changeInTx state.db.reconciled_reconcile changed with
    | kept kept =>
      refine .kept rfl ?_
      rw [after]
      exact reconciled.trans kept
    | trusted id served current version first trusts before kept authored =>
      cases first
      refine .trusted id version.contentSig served current ?_ rfl ?_ (touched kept) ?_
      · rw [Epochs.trusts, changed]
        exact trusts
      · rw [summary, ← ProviderDb.summary_reconcile, before]
      · rw [after, authored]
    | advisory item current version first advises before kept authored contents =>
      cases first
      refine .advised item.id version.contentSig item.served rfl ?_ ?_ (touched kept) ?_
      · intro known single
        rw [Warranted, advises, Option.all_some, leavesSummary, single,
          decide_eq_true_iff] at warranted
        rw [warranted.1, contents warranted.2]
      · rw [summary, ← ProviderDb.summary_reconcile, before]
      · rw [after, authored]

theorem moves (warranted : state.Warranted env event) : Moves env state event := by
  cases event with
  | mayServe id version => exact moves_mayServe state id version
  | remote rows versions native =>
    refine .kept rfl (.trans ?_ (ProviderDb.kept_reconcile _))
    exact ProviderDb.kept_of_items rfl
  | announce id version seq nowMs =>
    exact .kept rfl (state.db.kept_announceVersion env.crypto id version seq nowMs)
  | release id nowMs releaseAfterMs =>
    exact .kept rfl (state.db.kept_releaseExpired id nowMs releaseAfterMs)
  | publish id version => exact .kept rfl (state.db.kept_publishFirst env.crypto id version)
  | retire id => exact .kept rfl (state.db.kept_retireItem id)
  | advance bumps =>
    exact .kept rfl (ProviderDb.kept_of_map _ rfl (fun _ => rfl) fun _ => rfl)
  | list draw path =>
    refine .kept rfl ?_
    rw [database]
    split
    · split
      · rename_i minted mints
        exact ProviderDb.kept_mintItem mints
      · exact .refl _ state.db
    · exact .refl _ state.db
  | change input draw keepRefused => exact moves_change warranted

theorem mem_handed_step {next : Epochs N} (stepped : state.step env event = some next)
    {entry : ItemId × List Char} (member : entry ∈ next.handed) :
    entry ∈ state.handed ∨ entry ∈ state.hands env event := by
  cases stepped
  rcases mem_append.mp member with earlier | now
  · refine .inl ?_
    cases trusts : state.trusts env event with
    | none =>
      rw [trusts] at earlier
      exact earlier
    | some edit =>
      rw [trusts] at earlier
      exact (mem_filter.mp earlier).1
  · exact .inr now

theorem Sound.step {next : Epochs N} (sound : state.Sound) (warranted : state.Warranted env event)
    (stepped : state.step env event = some next) : next.Sound := by
  have database_eq : next.db = database env state.db event := by
    cases stepped
    rfl
  intro id sig member
  rw [summary, database_eq]
  have earlier := mem_handed_step stepped member
  -- An item that is not touched has the summary it had.
  have untouched {touched : ItemId} (other : id ≠ touched)
      (kept : state.db.KeptBut (· = touched) (database env state.db event))
      (before : (id, sig) ∈ state.handed) :
      (database env state.db event).summary id = some (.single sig) ∨
        (database env state.db event).summary id = some .mixed := by
    rcases sound id sig before with single | mixed
    · exact .inl (kept id _ single other)
    · exact .inr (kept id _ mixed other)
  cases moves warranted with
  | kept nothing kept =>
    rw [nothing] at earlier
    rcases sound id sig (earlier.resolve_right not_mem_nil) with single | mixed
    · exact .inl (kept id _ single not_false)
    · exact .inr (kept id _ mixed not_false)
  | served touched content served hands before kept after =>
    by_cases same : id = touched
    · rw [same, after]
      rcases earlier with handed | now
      · rcases sound id sig handed with single | mixed
        · rw [same, before] at single
          cases single
          rw [Served.serve]
          split
          · exact .inl rfl
          · exact .inr rfl
        · rw [same, before] at mixed
          cases mixed
          exact .inr rfl
      · rw [hands] at now
        cases mem_singleton.mp now
        cases served with
        | never => exact .inl rfl
        | mixed => exact .inr rfl
        | single known =>
          rw [Served.serve]
          split
          · rename_i equal
            exact .inl (by rw [equal])
          · exact .inr rfl
    · rcases earlier with handed | now
      · exact untouched same kept handed
      · rw [hands] at now
        cases mem_singleton.mp now
        exact absurd rfl same
  | trusted touched content served current trusts nothing before kept after =>
    rw [nothing] at earlier
    have handed := earlier.resolve_right not_mem_nil
    by_cases same : id = touched
    · -- What was handed out before the trusted edit is no longer counted.
      cases stepped
      rw [trusts, nothing, append_nil] at member
      have distinct := (mem_filter.mp member).2
      exact absurd same (bne_iff_ne.mp distinct)
    · exact untouched same kept handed
  | advised touched content served nothing same before kept after =>
    rw [nothing] at earlier
    have handed := earlier.resolve_right not_mem_nil
    by_cases here : id = touched
    · rw [here, after]
      rcases sound id sig handed with single | mixed
      · rw [here, before] at single
        cases single
        rw [same sig rfl]
        exact .inl rfl
      · rw [here, before] at mixed
        cases mixed
        exact .inr rfl
    · exact untouched here kept handed

/-! ## Runs -/

/-- What the trust predicate says of the item: its summary is of the current content alone. -/
theorem single_of_trusts {id : ItemId} {current : FileVersion}
    (trusts : state.trusts env event = some (id, current)) :
    state.summary id = some (.single current.contentSig) := by
  rw [Epochs.trusts.eq_def] at trusts
  split at trusts
  · split at trusts
    · rw [summary, ← ProviderDb.summary_reconcile]
      exact ProviderDb.single_of_trustedEdit trusts
    · cases trusts
  · cases trusts

theorem remembers_step {next : Epochs N} (sound : state.Sound)
    (warranted : state.Warranted env event) (stepped : state.step env event = some next) :
    Remembers env state event next := by
  have database_eq : next.db = database env state.db event := by
    cases stepped
    rfl
  refine ⟨?_, ?_, ?_⟩
  · intro id first second before after distinct
    rw [summary, database_eq] at after
    have touched {other : ItemId}
        (kept : state.db.KeptBut (· = other) (database env state.db event)) : id = other := by
      by_contra elsewhere
      rw [kept id _ before elsewhere] at after
      cases after
      exact distinct rfl
    cases moves warranted with
    | kept nothing kept =>
      rw [kept id _ before not_false] at after
      cases after
      exact absurd rfl distinct
    | served other sig served hands was kept serves =>
      cases touched kept
      rw [was] at before
      cases before
      rw [serves, Served.serve] at after
      split at after
      · cases after
        exact absurd rfl distinct
      · cases after
    | trusted other sig served current trusts nothing was kept authored =>
      cases touched kept
      exact ⟨current, trusts⟩
    | advised other sig served nothing same was kept authored =>
      cases touched kept
      rw [was] at before
      cases before
      rw [authored] at after
      cases after
      exact absurd (same first rfl).symm distinct
  · intro id mixed
    rw [summary, database_eq]
    have untouched {other : ItemId} (different : id ≠ other)
        (kept : state.db.KeptBut (· = other) (database env state.db event)) :
        (database env state.db event).summary id = some .mixed :=
      kept id _ mixed different
    cases moves warranted with
    | kept nothing kept => exact kept id _ mixed not_false
    | served other sig served hands was kept serves =>
      by_cases same : id = other
      · cases same
        rw [mixed] at was
        cases was
        exact serves
      · exact untouched same kept
    | trusted other sig served current trusts nothing was kept authored =>
      by_cases same : id = other
      · cases same
        rw [mixed] at was
        cases was
        exact authored
      · exact untouched same kept
    | advised other sig served nothing equal was kept authored =>
      by_cases same : id = other
      · cases same
        rw [mixed] at was
        cases was
        exact authored
      · exact untouched same kept
  · intro id current trusts sig handed
    rcases sound id sig handed with single | mixed
    · rw [single_of_trusts trusts] at single
      cases single
      rfl
    · rw [single_of_trusts trusts] at mixed
      cases mixed

/-- While no mtime is set past the trust predicate on an item whose summary is of another content
than the item's: at every transaction of a run the summaries remember what they must. -/
theorem provenance_is_remembered (env : WritePath N) (start : ProviderDb N)
    (events : List (ProviderEvent N)) (state next : Epochs N) (event : ProviderEvent N)
    (along : Machine.Along (step env) (Warranted env) ⟨start, []⟩ events)
    (ran : Machine.run (step env) ⟨start, []⟩ events = some state)
    (warranted : state.Warranted env event) (stepped : state.step env event = some next) :
    Remembers env state event next := by
  have started : Sound (⟨start, []⟩ : Epochs N) := by
    rintro _ _ ⟨⟩
  have sound : state.Sound :=
    Machine.invariant_run (fun _ _ _ sound warranted taken => Sound.step sound warranted taken)
      started along ran
  exact remembers_step sound warranted stepped

/-! ## One item, its content changed by a peer -/

/-- A native layer in which whatever was put last wins its path. -/
def lastPutWins : WritePath (List (SyncPath × VersionHash)) :=
  let puts := fun (native : List (SyncPath × VersionHash)) (mutations : List LocalMutation) =>
    mutations.foldl (fun native mutation =>
      match mutation with
      | .upsert path version _ => (path, version.computeHash .sample) :: native
      | .delete path _ _ => native.filter fun entry => entry.1 != path) native
  { crypto := .sample
    refusesPath := fun _ => false
    caseFold := fun path => path
    canonicalFold := fun path => path
    replicatedXattr := fun _ => true
    commitGroup := fun native mutations => .ok (puts native mutations)
    commitRecursive := fun native _ mutations => .ok (puts native mutations)
    winner := fun native path => (native.find? fun entry => entry.1 == path).map Prod.snd }

def oneBlockFile (byte : UInt8) : FileVersion :=
  ⟨[⟨[byte], 1⟩], 1, ⟨0, none, none, .file, []⟩⟩

def showing (version : FileVersion) : ExtTreeMap SyncPath FileVersion :=
  ExtTreeMap.empty.insert "a" version

def drawn : List ProviderItem → ItemId := fun items => items.length

/-- A file that was listed and may have been handed to the OS. -/
def servedOnce : List (ProviderEvent (List (SyncPath × VersionHash))) :=
  [.list drawn "a", .mayServe 0 ((oneBlockFile 1).computeHash .sample)]

def modifyFirst : ApplyInput where
  id := ⟨"root", [7], 1⟩
  fingerprint := 0
  kind := .modify
  itemId := some 0

/-- Bytes edited from a version, at the generation it was shown with. -/
def bytesOver (version : FileVersion) (generation : Nat) : ApplyInput :=
  { modifyFirst with
    base := .opaqueVersion (version.computeHash .sample)
    baseGeneration := some generation
    content := some ⟨[⟨[9], 1⟩], 1⟩ }

set_option maxRecDepth 8192 in
theorem edit_over_served_content : ∃ state next, Machine.run (step lastPutWins)
        ⟨⟨showing (oneBlockFile 1), ∅, [], []⟩, []⟩ servedOnce = some state ∧
      state.step lastPutWins (.change (bytesOver (oneBlockFile 1) 1) drawn false) = some next ∧
      state.trusts lastPutWins (.change (bytesOver (oneBlockFile 1) 1) drawn false) =
        some (0, oneBlockFile 1) ∧
      state.handed = [(0, (oneBlockFile 1).contentSig)] ∧
      Remembers lastPutWins state (.change (bytesOver (oneBlockFile 1) 1) drawn false) next := by
  have ends : (Machine.run (step lastPutWins)
      ⟨⟨showing (oneBlockFile 1), ∅, [], []⟩, []⟩ servedOnce).isSome = true := by
    decide
  rcases Option.isSome_iff_exists.mp ends with ⟨state, ran⟩
  have trusts : (Machine.run (step lastPutWins)
      ⟨⟨showing (oneBlockFile 1), ∅, [], []⟩, []⟩ servedOnce).map (fun state =>
        (state.trusts lastPutWins (.change (bytesOver (oneBlockFile 1) 1) drawn false),
          state.handed, decide (state.Warranted lastPutWins
            (.change (bytesOver (oneBlockFile 1) 1) drawn false)))) =
      some (some (0, oneBlockFile 1), [(0, (oneBlockFile 1).contentSig)], true) := by
    decide
  rw [ran, Option.map_some, Option.some_inj, Prod.mk.injEq, Prod.mk.injEq] at trusts
  refine ⟨state, _, ran, rfl, trusts.1, trusts.2.1, ?_⟩
  apply provenance_is_remembered lastPutWins _ servedOnce state _ _ _ ran
    (of_decide_eq_true trusts.2.2) rfl
  decide

/-- A peer's change reaches the file after it was handed out. -/
def changedByPeer : List (ProviderEvent (List (SyncPath × VersionHash))) :=
  servedOnce ++ [ProviderEvent.remote (showing (oneBlockFile 2)) ∅ [], .advance fun _ => 1]

/-- An mtime set on the content that the peer's change brought. -/
def touchesChanged : ProviderEvent (List (SyncPath × VersionHash)) :=
  .change { modifyFirst with
    base := .opaqueVersion ((oneBlockFile 2).computeHash .sample)
    metadata := { mtimeUnixNanos := some 5 } } drawn false

/-- Bytes edited from the content that was handed out, sent with the token of the touched one. -/
def editsTouched : ProviderEvent (List (SyncPath × VersionHash)) :=
  .change (bytesOver ⟨[⟨[2], 1⟩], 1, ⟨5, none, none, .file, []⟩⟩ 3) drawn false

set_option maxRecDepth 8192 in
/-- The mtime makes the summary forget what was handed out, without a trusted edit; the next
edit is then trusted over a content that was never handed out. -/
theorem mtime_forgets_served_content : ∃ state next last, Machine.run (step lastPutWins)
        ⟨⟨showing (oneBlockFile 1), ∅, [], []⟩, []⟩ changedByPeer = some state ∧
      state.step lastPutWins touchesChanged = some next ∧
      ¬Remembers lastPutWins state touchesChanged next ∧
      next.step lastPutWins editsTouched = some last ∧
      ¬Remembers lastPutWins next editsTouched last := by
  have ends : (Machine.run (step lastPutWins)
      ⟨⟨showing (oneBlockFile 1), ∅, [], []⟩, []⟩ changedByPeer).isSome = true := by
    decide
  rcases Option.isSome_iff_exists.mp ends with ⟨state, ran⟩
  have told : (Machine.run (step lastPutWins)
      ⟨⟨showing (oneBlockFile 1), ∅, [], []⟩, []⟩ changedByPeer).bind (fun state =>
        (state.step lastPutWins touchesChanged).map fun next =>
          (state.summary 0, next.summary 0, state.trusts lastPutWins touchesChanged)) =
      some (some (.single (oneBlockFile 1).contentSig), some (.single (oneBlockFile 2).contentSig),
        none) := by
    decide
  have later : (Machine.run (step lastPutWins)
      ⟨⟨showing (oneBlockFile 1), ∅, [], []⟩, []⟩ changedByPeer).bind (fun state =>
        (state.step lastPutWins touchesChanged).map fun next =>
          (next.trusts lastPutWins editsTouched, next.handed)) =
      some (some (0, ⟨[⟨[2], 1⟩], 1, ⟨5, none, none, .file, []⟩⟩),
        [(0, (oneBlockFile 1).contentSig)]) := by
    decide
  rw [ran, Option.bind_some] at told later
  rcases Option.map_eq_some_iff.mp told with ⟨next, stepped, facts⟩
  rw [stepped, Option.map_some, Option.some_inj, Prod.mk.injEq] at later
  rw [Prod.mk.injEq, Prod.mk.injEq] at facts
  rcases facts with ⟨before, after, distrusts⟩
  rcases later with ⟨trusts, handed⟩
  refine ⟨state, next, _, ran, stepped, ?_, rfl, ?_⟩
  · rintro ⟨moves, _, _⟩
    rcases moves 0 _ _ before after (by decide) with ⟨current, trusted⟩
    rw [distrusts] at trusted
    cases trusted
  · rintro ⟨_, _, replaces⟩
    have same := replaces 0 _ trusts (oneBlockFile 1).contentSig (by rw [handed]; exact .head _)
    revert same
    decide

end Epochs

end Yadorilink.Provider
