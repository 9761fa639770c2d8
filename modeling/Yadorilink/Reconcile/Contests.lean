import Yadorilink.Reconcile.LevelPlans
import Yadorilink.Store.Installed

/-! The table of contested paths. Heads change only at the paths a delta names, so that only these
paths and their ancestors are judged anew; the table is exact all the same. -/

namespace Yadorilink.Reconcile

open Std ExtTreeMap NativeState

/-! ## The table -/

def ancestorsAndSelf (path : SyncPath) : List SyncPath := path :: properAncestors path

/-- Whether the heads at the path are distinct files, or a file where a directory is required. -/
def isContest : Projection → Bool
  | .pending .distinctVersions => true
  | .pending .directoryRequired => true
  | _ => false

def isContested (heads : HeadMap) (records : VersionHash → Option RecordKind)
    (path : SyncPath) : Bool :=
  let pathHeads := (heads[path]?).getD ∅
  if (liveHeads pathHeads).isEmpty then false
  else
    isContest (projectPath (liveHeads pathHeads)
      (fun version => (lookupKinds records [pathHeads] version).join)
      (nativeHasDescendantHead heads path))

/-- `native_contest_candidate`: each path with whether a fork pass has looked at it. -/
abbrev ContestTable := ExtTreeMap SyncPath Bool

/-- Judges one path, unless it is empty or was judged already. -/
def judge (heads : HeadMap) (records : VersionHash → Option RecordKind)
    (judged : ExtTreeSet SyncPath × ContestTable) (candidate : SyncPath) :
    ExtTreeSet SyncPath × ContestTable :=
  if candidate = "" ∨ candidate ∈ judged.1 then judged
  else
    (judged.1.insert candidate,
      if isContested heads records candidate then judged.2.insert candidate false
      else judged.2.erase candidate)

def note (heads : HeadMap) (records : VersionHash → Option RecordKind) (table : ContestTable)
    (paths : List SyncPath) : ContestTable :=
  ((paths.flatMap ancestorsAndSelf).foldl (judge heads records) (∅, table)).2

/-- Ends a fork pass: what is no longer contested goes, and the rest counts as looked at. -/
def finishAttempt (heads : HeadMap) (records : VersionHash → Option RecordKind)
    (table : ContestTable) : ContestTable :=
  (table.keys.foldl (fun table path =>
    if isContested heads records path then table else table.erase path) table).map fun _ _ => true

def resetAttempts (table : ContestTable) : ContestTable := table.map fun _ _ => false

/-! ## Runs -/

/-- A group's live heads, the kinds of its version records and its contested paths. -/
structure ContestGroup where
  state : NativeState
  records : VersionHash → Option RecordKind
  candidates : ContestTable

inductive ContestEvent where
  /-- A delta is installed, and what it touches armed. -/
  | install (delta : NativeDelta)
  /-- A version's record is stored, and the paths that name it armed. -/
  | arrive (version : VersionHash) (kind : RecordKind)
  /-- A state is installed wholesale, and what differs armed. -/
  | replace (after : NativeState)
  | finishAttempt
  | resetAttempts

namespace ContestGroup

def empty : ContestGroup := ⟨.new, fun _ => none, ∅⟩

def note (group : ContestGroup) (paths : List SyncPath) : ContestGroup :=
  { group with candidates :=
      Reconcile.note group.state.heads group.records group.candidates paths }

def touchedPaths (delta : NativeDelta) : List SyncPath :=
  ((∅ : ExtTreeSet SyncPath).insertMany (delta.ops.map DeltaOp.path)).toList

/-- The paths whose heads differ between two states. -/
def changedPaths (before after : NativeState) : List SyncPath :=
  (((∅ : ExtTreeSet SyncPath).insertMany (before.heads.keys ++ after.heads.keys)).toList).filter
    fun path => before.heads[path]? ≠ after.heads[path]?

def step (crypto : Crypto) (group : ContestGroup) : ContestEvent → ContestGroup
  | .install delta =>
    match group.state.receiveVerified delta.author delta.seq (delta.remoteOps crypto) with
    | .error _ => group
    | .ok (_, state) => { group with state }.note (touchedPaths delta)
  | .arrive version kind =>
    let records := if (group.records version).isSome then group.records
      else Function.update group.records version (some kind)
    { group with records }.note (ProviderNamespace.pathsNaming group.state version)
  | .replace after =>
    { group with state := after, candidates := Reconcile.resetAttempts group.candidates }.note
      (changedPaths group.state after)
  | .finishAttempt =>
    { group with candidates :=
        Reconcile.finishAttempt group.state.heads group.records group.candidates }
  | .resetAttempts => { group with candidates := Reconcile.resetAttempts group.candidates }

def runAll (crypto : Crypto) (events : List ContestEvent) : ContestGroup :=
  events.foldl (step crypto) empty

end ContestGroup

/-- What is installed names valid paths, and a state has heads at each path it stores. -/
def ContestEvent.ValidPaths : ContestEvent → Prop
  | .install delta => ∀ op ∈ delta.ops, validatePath op.path = .ok ()
  | .replace after => NoEmptyPath after.heads ∧
      ∀ path stored, after.heads[path]? = some stored → validatePath path = .ok ()
  | .arrive _ _ => True
  | .finishAttempt => True
  | .resetAttempts => True

/-! ## Ancestors -/

theorem mem_properAncestorsFrom {turns : Nat} {text front rest : List Char}
    (enough : text.length ≤ turns) (whole : text = front ++ '/' :: rest) :
    String.ofList front ∈ properAncestorsFrom turns text := by
  induction turns generalizing text rest with
  | zero =>
    rw [whole, List.length_append, List.length_cons] at enough
    omega
  | succ turns induction =>
    rw [properAncestorsFrom]
    by_cases deeper : '/' ∈ rest
    · rcases exists_of_mem_slash deeper with ⟨before, last, split, fresh⟩
      have parent : text = (front ++ '/' :: before) ++ '/' :: last := by
        rw [whole, split]
        simp
      have shorter : (front ++ '/' :: before).length ≤ turns := by
        rw [parent, List.length_append, List.length_cons] at enough
        omega
      rw [parent, rsplitOnce_append fresh]
      exact .tail _ (induction shorter rfl)
    · rw [whole, rsplitOnce_append deeper]
      exact .head _

theorem mem_ancestorsAndSelf {path key : SyncPath} {rest : List Char}
    (below : key.toList = path.toList ++ '/' :: rest) : path ∈ ancestorsAndSelf key := by
  have member := mem_properAncestorsFrom (Nat.le_refl _) below
  rw [String.ofList_toList] at member
  exact .tail key member

/-! ## Judging -/

section Judging

variable {heads : HeadMap} {records : VersionHash → Option RecordKind}

theorem mem_judge_iff {judged : ExtTreeSet SyncPath × ContestTable} {candidate path : SyncPath}
    (fresh : ¬(candidate = "" ∨ candidate ∈ judged.1)) :
    (path ∈ (judge heads records judged candidate).1 ↔ candidate = path ∨ path ∈ judged.1) ∧
      (path ∈ (judge heads records judged candidate).2 ↔
        if candidate = path then isContested heads records path = true else path ∈ judged.2) := by
  rw [judge, if_neg fresh]
  refine ⟨?_, ?_⟩
  · rw [ExtTreeSet.mem_insert, LawfulEqCmp.compare_eq_iff_eq]
  · by_cases same : candidate = path
    · subst same
      rw [if_pos rfl]
      by_cases contested : isContested heads records candidate = true
      · rw [if_pos contested]
        simp [contested]
      · rw [if_neg contested]
        simp [contested]
    · rw [if_neg same]
      dsimp only
      split
      · rw [mem_insert, LawfulEqCmp.compare_eq_iff_eq]
        simp [same]
      · rw [mem_erase, Ne, LawfulEqCmp.compare_eq_iff_eq]
        simp [same]

theorem foldl_judge (candidates : List SyncPath) (judged : ExtTreeSet SyncPath × ContestTable)
    (path : SyncPath) :
    path ∈ (candidates.foldl (judge heads records) judged).2 ↔
      if path ∈ candidates ∧ path ≠ "" ∧ path ∉ judged.1 then isContested heads records path = true
      else path ∈ judged.2 := by
  induction candidates generalizing judged with
  | nil => simp
  | cons candidate rest induction =>
    rw [List.foldl_cons, induction]
    by_cases skipped : candidate = "" ∨ candidate ∈ judged.1
    · have same : path ∈ candidate :: rest ∧ path ≠ "" ∧ path ∉ judged.1 ↔
          path ∈ rest ∧ path ≠ "" ∧ path ∉ judged.1 := by
        rw [List.mem_cons]
        constructor
        · intro all
          refine ⟨all.1.resolve_left ?_, all.2⟩
          rintro rfl
          rcases skipped with blank | known
          · exact all.2.1 blank
          · exact all.2.2 known
        · intro all
          exact ⟨.inr all.1, all.2⟩
      rw [judge, if_pos skipped]
      simp only [same]
    · rcases @mem_judge_iff heads records judged candidate path skipped with ⟨known, listed⟩
      rw [not_or] at skipped
      rw [listed]
      simp only [known, List.mem_cons]
      by_cases here : candidate = path
      · subst here
        simp [skipped.1, skipped.2]
      · have other : ¬path = candidate := fun same => here same.symm
        simp [here, other]

theorem mem_note_iff {table : ContestTable} {paths : List SyncPath} {path : SyncPath} :
    path ∈ note heads records table paths ↔
      if path ∈ paths.flatMap ancestorsAndSelf ∧ path ≠ "" then
        isContested heads records path = true
      else path ∈ table := by
  rw [note, foldl_judge]
  simp

theorem mem_resetAttempts_iff {table : ContestTable} {path : SyncPath} :
    path ∈ resetAttempts table ↔ path ∈ table := by
  rw [resetAttempts, mem_map]

theorem mem_finishAttempt_iff {table : ContestTable} {path : SyncPath} :
    path ∈ finishAttempt heads records table ↔
      path ∈ table ∧ isContested heads records path = true := by
  have walk : ∀ (paths : List SyncPath) (table : ContestTable),
      path ∈ paths.foldl (fun table path =>
        if isContested heads records path then table else table.erase path) table ↔
      path ∈ table ∧ (path ∈ paths → isContested heads records path = true) := by
    intro paths
    induction paths with
    | nil => simp
    | cons first rest induction =>
      intro table
      rw [List.foldl_cons, induction]
      by_cases contested : isContested heads records first = true
      · rw [if_pos contested]
        by_cases here : path = first
        · subst here
          simp [contested]
        · simp [here]
      · rw [if_neg contested, mem_erase, Ne, LawfulEqCmp.compare_eq_iff_eq]
        by_cases here : first = path
        · subst here
          simp [contested]
        · have other : ¬path = first := fun same => here same.symm
          simp [here, other]
  rw [finishAttempt, mem_map, walk]
  constructor
  · intro both
    exact ⟨both.1, both.2 (mem_keys.mpr both.1)⟩
  · intro both
    exact ⟨both.1, fun _ => both.2⟩

end Judging

/-! ## What is contested -/

variable {paths : List SyncPath}

section Contests

variable {state : NativeState} {records : VersionHash → Option RecordKind} {path : SyncPath}

/-- The projection of the path in the tree is a contest. -/
def Contested (state : NativeState) (records : VersionHash → Option RecordKind)
    (path : SyncPath) : Prop :=
  projectionOf state records path = .pending .distinctVersions ∨
    projectionOf state records path = .pending .directoryRequired

theorem isContest_iff {projection : Projection} : isContest projection = true ↔
      projection = .pending .distinctVersions ∨ projection = .pending .directoryRequired := by
  cases projection with
  | settled shown => simp [isContest]
  | absent => simp [isContest]
  | pending reason => cases reason <;> simp [isContest]

theorem not_contested_of_unheld (unheld : state.headsAt path = []) :
    ¬Contested state records path := by
  rw [Contested, projectionOf, unheld]
  cases hasDescendant state path with
  | false => exact fun either => by rcases either with same | same <;> cases same
  | true => exact fun either => by rcases either with same | same <;> cases same

theorem isContested_iff (plain : PlainTable state.heads) :
    isContested state.heads records path = true ↔ Contested state records path := by
  have kinds : projectPath (state.headsAt path)
      (fun version => (lookupKinds records [(state.heads[path]?).getD ∅] version).join)
      (hasDescendant state path) = projectionOf state records path :=
    projectPath_congr (fun _ member =>
      lookupKinds_of_mem (.head _) member) _
  have live : liveHeads ((state.heads[path]?).getD ∅) = state.headsAt path := rfl
  rw [isContested, nativeHasDescendantHead_eq plain, live, kinds]
  by_cases unheld : (state.headsAt path).isEmpty = true
  · rw [if_pos unheld]
    have none := @not_contested_of_unheld state records path (List.isEmpty_iff.mp unheld)
    simp [none]
  · rw [if_neg unheld, isContest_iff]
    rfl

theorem projectionOf_congr {after : NativeState}
    (same : ∀ key, key ∉ paths → state.heads[key]? = after.heads[key]?)
    (outside : path ∉ paths.flatMap ancestorsAndSelf) :
    projectionOf state records path = projectionOf after records path := by
  have untouched : ∀ key, path ∈ ancestorsAndSelf key → state.heads[key]? = after.heads[key]? := by
    intro key member
    apply same
    intro touched
    exact outside (List.mem_flatMap.mpr ⟨key, touched, member⟩)
  have here : state.headsAt path = after.headsAt path := by
    rw [headsAt, headsAt, pathHeads, pathHeads,
      untouched path List.mem_cons_self]
  have below : hasDescendant state path = hasDescendant after path := by
    rw [Bool.eq_iff_iff, hasDescendant_iff, hasDescendant_iff]
    constructor
    · intro found
      rcases found with ⟨key, stored, held, rest, whole⟩
      rw [untouched key (mem_ancestorsAndSelf whole)] at held
      exact ⟨key, stored, held, rest, whole⟩
    · intro found
      rcases found with ⟨key, stored, held, rest, whole⟩
      rw [← untouched key (mem_ancestorsAndSelf whole)] at held
      exact ⟨key, stored, held, rest, whole⟩
  rw [projectionOf, projectionOf, here, below]

end Contests

/-! ## Exactness -/

namespace ContestGroup

/-- The table holds the contested paths, and only them. -/
structure Exact (group : ContestGroup) : Prop where
  plain : PlainTable group.state.heads
  exact : ∀ path, path ∈ group.candidates ↔ Contested group.state group.records path

variable {group : ContestGroup}

theorem PlainTable.headsAt_blank {state : NativeState} (plain : PlainTable state.heads) :
    state.headsAt "" = [] := by
  have unheld : state.heads[""]? = none := by
    cases stored : state.heads[""]? with
    | none => rfl
    | some heads => exact absurd rfl (plain.ends "" heads stored).nonempty
  rw [headsAt, pathHeads, unheld]
  rfl

theorem exact_note (plain : PlainTable group.state.heads) (blank : "" ∉ group.candidates)
    (others : ∀ path, path ∉ paths.flatMap ancestorsAndSelf →
      (path ∈ group.candidates ↔ Contested group.state group.records path)) :
    (group.note paths).Exact where
  plain := plain
  exact := by
    intro path
    have judged := @mem_note_iff group.state.heads group.records group.candidates paths path
    by_cases touched : path ∈ paths.flatMap ancestorsAndSelf
    · by_cases empty : path = ""
      · have none : ¬Contested group.state group.records path := by
          rw [empty]
          exact not_contested_of_unheld (PlainTable.headsAt_blank plain)
        rw [if_neg (fun both => both.2 empty)] at judged
        rw [empty] at judged none ⊢
        exact ⟨fun member => absurd (judged.mp member) blank, fun held => absurd held none⟩
      · rw [if_pos ⟨touched, empty⟩, isContested_iff plain] at judged
        exact judged
    · rw [if_neg (fun both => touched both.1)] at judged
      exact judged.trans (others path touched)

theorem exact_empty : empty.Exact where
  plain := by
    constructor
    · intro path stored found
      cases found
    · intro path stored found
      cases found
  exact := by
    intro path
    constructor
    · intro member
      exact absurd member not_mem_empty
    · intro contested
      exact absurd contested (not_contested_of_unheld rfl)

theorem Exact.blank (held : group.Exact) : "" ∉ group.candidates := by
  rw [held.exact]
  exact not_contested_of_unheld (PlainTable.headsAt_blank held.plain)

theorem Exact.restate (held : group.Exact) {after : NativeState} {candidates : ContestTable}
    (plain : PlainTable after.heads)
    (listed : ∀ path, path ∈ candidates ↔ path ∈ group.candidates)
    (same : ∀ key, key ∉ paths → group.state.heads[key]? = after.heads[key]?) :
    (({ group with state := after, candidates } : ContestGroup).note paths).Exact := by
  apply exact_note plain
  · rw [listed]
    exact held.blank
  · intro path outside
    rw [listed, held.exact, Contested, Contested, projectionOf_congr same outside]

theorem plain_changed {before after : HeadMap} (plain : PlainTable before)
    (stored : NoEmptyPath after) (same : ∀ key, key ∉ paths → before[key]? = after[key]?)
    (valid : ∀ path ∈ paths, validatePath path = .ok ()) : PlainTable after where
  ends := by
    intro path heads found
    by_cases touched : path ∈ paths
    · exact plainEnds_of_validatePath (valid path touched)
    · rw [← same path touched] at found
      exact plain.ends path heads found
  heads := stored

theorem mem_touchedPaths {delta : NativeDelta} {path : SyncPath} :
    path ∈ touchedPaths delta ↔ path ∈ delta.ops.map DeltaOp.path := by
  rw [touchedPaths, ExtTreeSet.mem_toList, ExtTreeSet.mem_insertMany_list, List.contains_iff_mem]
  exact ⟨fun either => either.resolve_left ExtTreeSet.not_mem_empty, .inr⟩

theorem Exact.install (held : group.Exact) (crypto : Crypto) {delta : NativeDelta}
    (valid : ∀ op ∈ delta.ops, validatePath op.path = .ok ()) :
    (group.step crypto (.install delta)).Exact := by
  rw [step]
  split
  · exact held
  · rename_i dot state received
    rcases receiveVerified_ok received with ⟨_, _, rfl⟩
    have same : ∀ key, key ∉ touchedPaths delta → group.state.heads[key]? =
        ((delta.remoteOps crypto).foldl (applyOp ⟨delta.author, delta.seq⟩)
          group.state.heads)[key]? := by
      intro key untouched
      have unlisted : key ∉ (delta.remoteOps crypto).map RemoteOp.path := by
        intro member
        exact untouched (mem_touchedPaths.mpr (ProviderNamespace.mem_ops_of_mem_remoteOps member))
      exact (getElem?_changeEach_of_not_mem RemoteOp.path
        (fun op => op.result ⟨delta.author, delta.seq⟩) (delta.remoteOps crypto)
        group.state.heads unlisted).symm
    refine held.restate ?_ (fun _ => Iff.rfl) same
    refine plain_changed held.plain ?_ same ?_
    · exact noEmptyPath_ops group.state _ _ (delta.remoteOps_paths_nodup crypto)
        held.plain.heads
    · intro path touched
      rcases List.mem_map.mp (mem_touchedPaths.mp touched) with ⟨op, member, rfl⟩
      exact valid op member

theorem Exact.arrive (held : group.Exact) (crypto : Crypto) (version : VersionHash)
    (kind : RecordKind) : (group.step crypto (.arrive version kind)).Exact := by
  rw [step]
  refine exact_note held.plain held.blank ?_
  intro path outside
  have unlisted : path ∉ ProviderNamespace.pathsNaming group.state version := by
    intro listed
    exact outside (List.mem_flatMap.mpr ⟨path, listed, .head _⟩)
  have projected : projectionOf group.state group.records path = projectionOf group.state
      (if (group.records version).isSome then group.records
        else Function.update group.records version (some kind)) path := by
    apply projectPath_congr
    intro head member
    have other := ProviderNamespace.not_named_of_not_mem unlisted head member
    split
    · rfl
    · exact (Function.update_of_ne other _ _).symm
  rw [held.exact, Contested, Contested, projected]

theorem same_of_not_changed {before after : NativeState} {key : SyncPath}
    (unchanged : key ∉ changedPaths before after) : before.heads[key]? = after.heads[key]? := by
  by_contra differ
  apply unchanged
  rw [changedPaths, List.mem_filter, ExtTreeSet.mem_toList, ExtTreeSet.mem_insertMany_list,
    List.contains_iff_mem, List.mem_append, OrderedMap.mem_keys_iff, OrderedMap.mem_keys_iff]
  refine ⟨.inr ?_, decide_eq_true differ⟩
  cases first : before.heads[key]? with
  | some stored => exact .inl ⟨stored, rfl⟩
  | none =>
    cases second : after.heads[key]? with
    | some stored => exact .inr ⟨stored, rfl⟩
    | none => exact absurd (first.trans second.symm) differ

theorem Exact.step (held : group.Exact) (crypto : Crypto) {event : ContestEvent}
    (valid : event.ValidPaths) : (group.step crypto event).Exact := by
  cases event with
  | install delta => exact held.install crypto valid
  | arrive version kind => exact held.arrive crypto version kind
  | replace after =>
    refine held.restate ?_ (fun _ => mem_resetAttempts_iff) (fun _ => same_of_not_changed)
    exact ⟨fun path stored found => plainEnds_of_validatePath (valid.2 path stored found), valid.1⟩
  | finishAttempt =>
    refine ⟨held.plain, ?_⟩
    intro path
    rw [ContestGroup.step, mem_finishAttempt_iff, held.exact, isContested_iff held.plain, and_self]
  | resetAttempts =>
    refine ⟨held.plain, ?_⟩
    intro path
    rw [ContestGroup.step, mem_resetAttempts_iff]
    exact held.exact path

theorem exact_runAll (crypto : Crypto) {events : List ContestEvent}
    (valid : ∀ event ∈ events, event.ValidPaths) : (runAll crypto events).Exact := by
  induction events using List.reverseRecOn with
  | nil => exact exact_empty
  | append_singleton events event induction =>
    have before := induction fun other member => valid other (List.mem_append_left _ member)
    rw [runAll, List.foldl_append]
    exact before.step crypto (valid event (by simp))

end ContestGroup

/-- The table of contested paths is exact. After any sequence of installs, arrivals, wholesale
states and fork passes that starts from an empty group, it holds the paths whose projection is
pending because of distinct versions or of a required directory, and no others. -/
theorem contest_table_exact (crypto : Crypto) (events : List ContestEvent)
    (valid : ∀ event ∈ events, event.ValidPaths) (path : SyncPath) :
    path ∈ (ContestGroup.runAll crypto events).candidates ↔
      projectionOf (ContestGroup.runAll crypto events).state
          (ContestGroup.runAll crypto events).records path = .pending .distinctVersions ∨
        projectionOf (ContestGroup.runAll crypto events).state
          (ContestGroup.runAll crypto events).records path = .pending .directoryRequired :=
  (ContestGroup.exact_runAll crypto valid).exact path

/-- Two devices put different files at one path, and the records of both arrive. -/
theorem contest_table_exact_two_files : "x" ∈ (ContestGroup.runAll Crypto.sample
      [.install (ProviderNamespace.putX "laptop" ⟨1⟩), .arrive ⟨1⟩ .file,
        .install (ProviderNamespace.putX "phone" ⟨2⟩), .arrive ⟨2⟩ .file]).candidates := by
  rw [contest_table_exact]
  · left
    decide
  · intro event member
    simp only [List.mem_cons, List.not_mem_nil, or_false] at member
    rcases member with rfl | rfl | rfl | rfl
    · intro op listed
      rw [List.mem_singleton.mp listed]
      decide
    · trivial
    · intro op listed
      rw [List.mem_singleton.mp listed]
      decide
    · trivial

end Yadorilink.Reconcile
