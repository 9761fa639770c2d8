import Yadorilink.Admission.Runs
import Yadorilink.Store.Capture

/-! What a captured edit supersedes. The whole chain of a mutation takes exactly the
observed heads from the author's own store; what an op observes is decided by its
capture, unless the capture found no live head of the version it was shown. -/

namespace Yadorilink

open Std List

/-! ## The chain at its author -/

/-- The live heads of every author are of deltas it has signed up to its position. -/
def Store.HeadsInstalled (store : Store) : Prop :=
  ∀ (path : SyncPath) (dot : Dot) payload, store.heads[(⟨path, dot⟩ : HeadKey)]? = some payload →
    dot.seq ≤ positionSeq store.frontier[dot.author]?

variable {dot : Dot} {payload : HeadPayload}

section Chain

variable {crypto : Crypto} {groupId : FolderGroupId} {signer : Signer} {author : AuthorId}
  {state : NativeState} {edits : List PathEdit} {part : Option RecursivePart}
  {deltas : List NativeDelta} {store after : Store} {left round seq : Nat}
  {prev : Option DeltaHash}

theorem authorRounds_beyond
    (ran : authorRounds crypto groupId signer author state edits part left round seq prev store =
      .ok deltas after) :
    ∀ delta, delta ∈ deltas → delta.author = author ∧
      positionSeq store.frontier[author]? < delta.seq := by
  induction left generalizing round seq prev deltas store with
  | zero =>
    cases ran
    exact fun _ absent => absurd absent not_mem_nil
  | succ left induction =>
    rcases authorRounds_succ_ok ran with
      ⟨delta, isRound, _, middle, installed, rest, rfl, goesOn⟩
    rcases installAuthoredDelta_records installed with ⟨chain, records⟩
    have own : delta.author = author := by
      rw [isRound]
      rfl
    have next := (checkChainAdvance_eq_ok_iff.mp chain).1
    rw [own] at next
    have moved : positionSeq middle.frontier[author]? = delta.seq := by
      rw [records.frontier, own, OrderedMap.getElem?_insert_eq, if_pos rfl]
      rfl
    intro other member
    rcases mem_cons.mp member with same | later
    · rw [same]
      exact ⟨own, by omega⟩
    · rcases goesOn with ⟨_, rfl, _⟩ | ⟨_, _, more⟩
      · cases later
      · have beyond := induction more other later
        exact ⟨beyond.1, by omega⟩

theorem authorRounds_elsewhere {path : SyncPath} (unedited : path ∉ edits.map PathEdit.path)
    (ran : authorRounds crypto groupId signer author state edits part left round seq prev store =
      .ok deltas after) (dot : Dot) :
    after.heads[(⟨path, dot⟩ : HeadKey)]? = store.heads[(⟨path, dot⟩ : HeadKey)]? := by
  induction left generalizing round seq prev deltas store with
  | zero =>
    cases ran
    rfl
  | succ left induction =>
    rcases authorRounds_succ_ok ran with
      ⟨delta, isRound, _, middle, installed, rest, rfl, goesOn⟩
    rcases installAuthoredDelta_records installed with ⟨_, records⟩
    have untouched : ∀ op ∈ delta.ops, op.path ≠ path := by
      intro op member samePath
      have ops : delta.ops = edits.filterMap (roundOp state round (left = 0)) := by
        rw [isRound]
        rfl
      rw [ops] at member
      rcases mem_filterMap.mp member with ⟨edit, inEdits, does⟩
      apply unedited
      rw [← samePath, (roundOp_some does).1]
      exact mem_map_of_mem inEdits
    have kept := records.heads ⟨path, dot⟩ untouched
    rcases goesOn with ⟨_, _, rfl⟩ | ⟨_, _, more⟩
    · exact kept
    · exact (induction more).trans kept

theorem authorRounds_heads (distinct : (edits.map PathEdit.path).Nodup)
    (stripped : StrippedBy state edits round store.loadState)
    (ran : authorRounds crypto groupId signer author state edits part left round seq prev store =
      .ok deltas after) {edit : PathEdit} (member : edit ∈ edits)
    (notLanded : ∀ delta, delta ∈ deltas → dot ≠ delta.dot) :
    after.heads[(⟨edit.path, dot⟩ : HeadKey)]? = some payload ↔
      state.headAt edit.path dot = some payload ∧
        dot ∉ edit.observed.take ((round + left) * maxRemovesPerOp) := by
  induction left generalizing round seq prev deltas store with
  | zero =>
    cases ran
    rw [Nat.add_zero, ← Store.headAt_loadState]
    exact stripped edit member dot payload
  | succ left induction =>
    rcases authorRounds_succ_ok ran with
      ⟨delta, isRound, _, middle, installed, rest, rfl, goesOn⟩
    rcases installAuthoredDelta_records installed with ⟨_, records⟩
    have once : ∀ edit, edit ∈ edits → ∀ dot payload,
        (left ≠ 0 ∨ dot ≠ delta.dot) →
        (middle.heads[(⟨edit.path, dot⟩ : HeadKey)]? = some payload ↔
          state.headAt edit.path dot = some payload ∧
            dot ∉ edit.observed.take ((round + 1) * maxRemovesPerOp)) := by
      intro edit member dot payload stays
      have notLanded : decide (left = 0) = false ∨ dot ≠ delta.dot := by
        rcases stays with notLast | different
        · exact Or.inl (decide_eq_false notLast)
        · exact Or.inr different
      rw [records.applied, headAt_round distinct isRound store.loadState _ member notLanded,
        stripped edit member, and_assoc]
      exact and_congr_right fun live => mem_take_succ_round live
    rcases goesOn with ⟨last, _, rfl⟩ | ⟨notLast, _, more⟩
    · rw [last, Nat.zero_add]
      exact once edit member dot payload (Or.inr (notLanded delta (.head _)))
    · have strippedOnce : StrippedBy state edits (round + 1) middle.loadState := by
        intro edit member dot payload
        rw [middle.headAt_loadState]
        exact once edit member dot payload (Or.inl notLast)
      rw [← Nat.add_assoc, Nat.add_right_comm]
      exact induction strippedOnce more
        fun other later => notLanded other (.tail delta later)

theorem length_le_chainRounds {edit : PathEdit} (member : edit ∈ edits) :
    edit.observed.length ≤ chainRounds edits * maxRemovesPerOp := by
  have bounds : ∀ (sizes : List Nat) (least : Nat), least ≤ sizes.foldl max least ∧
      ∀ size, size ∈ sizes → size ≤ sizes.foldl max least := by
    intro sizes
    induction sizes with
    | nil => simp
    | cons first rest induction =>
      intro least
      rcases induction (max least first) with ⟨above, inRest⟩
      refine ⟨Nat.le_trans (Nat.le_max_left ..) above, ?_⟩
      intro size inSizes
      rcases mem_cons.mp inSizes with same | later
      · rw [same]
        exact Nat.le_trans (Nat.le_max_right ..) above
      · exact inRest size later
  have needed := (bounds _ 0).2 _ (mem_map_of_mem (f := fun edit : PathEdit =>
    (edit.observed.length + (maxRemovesPerOp - 1)) / maxRemovesPerOp) member)
  have enough : (edit.observed.length + (maxRemovesPerOp - 1)) / maxRemovesPerOp ≤
      chainRounds edits := Nat.le_trans needed (Nat.le_max_right 1 _)
  simp only [maxRemovesPerOp] at enough ⊢
  omega

theorem mergeEdits_of_ran (nonempty : edits ≠ [])
    (ran : authorAndInstall crypto groupId signer author state edits part store =
      .ok deltas after) : ∃ merged, mergeEdits edits = .ok merged := by
  cases merges : mergeEdits edits with
  | ok merged => exact ⟨merged, rfl⟩
  | error failure =>
    unfold authorAndInstall at ran
    rw [if_neg (by simpa using nonempty)] at ran
    simp only [merges] at ran
    cases ran

theorem authorAndInstall_heads (installed : store.HeadsInstalled)
    (reads : ∀ edit, edit ∈ edits → ∀ dot,
      state.headAt edit.path dot = store.heads[(⟨edit.path, dot⟩ : HeadKey)]?)
    (ran : authorAndInstall crypto groupId signer author state edits part store =
      .ok deltas after) {path : SyncPath}
    (live : store.heads[(⟨path, dot⟩ : HeadKey)]? = some payload) :
    after.heads[(⟨path, dot⟩ : HeadKey)]? = some payload ↔
      ¬∃ edit, edit ∈ edits ∧ edit.path = path ∧ dot ∈ edit.observed := by
  by_cases empty : edits = []
  · subst empty
    cases ran
    simp [live]
  rcases mergeEdits_of_ran empty ran with ⟨merged, merges⟩
  rcases authorAndInstall_rounds empty merges ran with ⟨seq, prev, rounds⟩
  have distinct := mergeEdits_paths_nodup merges
  rw [← mergeEdits_observed merges]
  have readsMerged : ∀ edit, edit ∈ merged → ∀ dot,
      state.headAt edit.path dot = store.heads[(⟨edit.path, dot⟩ : HeadKey)]? := by
    intro edit member dot
    rcases mergeEdits_path merges member with ⟨original, inEdits, samePath⟩
    rw [← samePath]
    exact reads original inEdits dot
  have stripped : StrippedBy state merged 0 store.loadState := by
    intro edit member dot payload
    rw [store.headAt_loadState, readsMerged edit member, Nat.zero_mul, take_zero]
    simp
  have notLanded : ∀ delta, delta ∈ deltas → dot ≠ delta.dot := by
    intro delta member same
    rcases authorRounds_beyond rounds delta member with ⟨own, beyond⟩
    have within := installed path dot payload live
    rw [same, NativeDelta.dot, own] at within
    exact absurd within (Nat.not_le.mpr beyond)
  by_cases edited : path ∈ merged.map PathEdit.path
  · rcases mem_map.mp edited with ⟨edit, member, rfl⟩
    rw [authorRounds_heads distinct stripped rounds member notLanded, Nat.zero_add,
      take_of_length_le (length_le_chainRounds member), readsMerged edit member, live]
    constructor
    · rintro ⟨_, stays⟩ ⟨other, inMerged, samePath, inOther⟩
      rw [inj_on_of_nodup_map distinct inMerged member samePath] at inOther
      exact stays inOther
    · intro stays
      exact ⟨rfl, fun inEdit => stays ⟨edit, member, rfl, inEdit⟩⟩
  · rw [authorRounds_elsewhere edited rounds, live]
    simp only [true_iff]
    rintro ⟨edit, member, samePath, _⟩
    exact edited (mem_map.mpr ⟨edit, member, samePath⟩)

end Chain

/-! ## What an op observes -/

theorem mem_observedTarget_iff {state : NativeState} {path : SyncPath} {shown : Shown} :
    dot ∈ observedTarget state path shown ↔ ∃ payload, state.headAt path dot = some payload ∧
        shown.versions[path]? = some (some payload.version) ∧
        ∀ dots, shown.classAt path = some dots → dot ∈ dots := by
  have listed : ∀ head, head ∈ state.headsAt path ↔
      state.headAt path head.dot = some head.payload := by
    intro head
    rw [NativeState.headsAt, mem_map]
    constructor
    · rintro ⟨entry, member, same⟩
      rw [← same]
      exact ExtTreeMap.mem_toList_iff_getElem?_eq_some.mp member
    · intro live
      exact ⟨(head.dot, head.payload), ExtTreeMap.mem_toList_iff_getElem?_eq_some.mpr live, rfl⟩
  unfold observedTarget
  split
  · rename_i version isShown
    rw [headsOfShownClass, mem_mergeSort, mem_map]
    simp only [mem_filter, listed, decide_eq_true_eq, Option.all_eq_true]
    constructor
    · rintro ⟨head, ⟨⟨live, same⟩, inClass⟩, isDot⟩
      subst isDot
      exact ⟨head.payload, live, by rw [isShown, same], inClass⟩
    · rintro ⟨payload, live, same, inClass⟩
      rw [isShown] at same
      cases same
      exact ⟨⟨dot, payload⟩, ⟨⟨live, rfl⟩, inClass⟩, rfl⟩
  · rename_i notShown
    constructor
    · intro absent
      cases absent
    · rintro ⟨payload, _, same, _⟩
      exact absurd same (notShown payload.version)

theorem editsForOp_source {state : NativeState} {op : Op} {shown : Shown} :
    (∃ edit, edit ∈ editsForOp state op shown ∧ edit.path = op.source ∧ dot ∈ edit.observed) ↔
      dot ∈ observedTarget state op.source shown := by
  have deletes : ∀ path, (∃ edit, edit ∈ (deleteEdit state path shown).toList ∧
      edit.path = path ∧ dot ∈ edit.observed) ↔ dot ∈ observedTarget state path shown := by
    intro path
    unfold deleteEdit
    dsimp only
    split
    · rename_i empty
      rw [isEmpty_iff.mp empty]
      simp
    · simp
  cases op with
  | put path version => simp [editsForOp, putEdit, Op.source]
  | delete path => exact deletes path
  | move source target version =>
    simp only [editsForOp, Op.source, mem_append, mem_singleton]
    constructor
    · rintro ⟨edit, member, samePath, inEdit⟩
      rcases member with deleted | put
      · exact (deletes source).mp ⟨edit, deleted, samePath, inEdit⟩
      · subst put
        have sameTarget : target = source := samePath
        rw [← sameTarget]
        exact inEdit
    · intro inTarget
      rcases (deletes source).mpr inTarget with ⟨edit, deleted, facts⟩
      exact ⟨edit, Or.inl deleted, facts⟩

theorem path_of_editsForOp {state : NativeState} {op : Op} {shown : Shown} {edit : PathEdit}
    (member : edit ∈ editsForOp state op shown) : edit.path ∈ op.paths := by
  have deletes : ∀ path, edit ∈ (deleteEdit state path shown).toList → edit.path = path := by
    intro path deleted
    unfold deleteEdit at deleted
    dsimp only at deleted
    split at deleted
    · cases deleted
    · rw [Option.toList_some, mem_singleton] at deleted
      rw [deleted]
  cases op with
  | put path version =>
    rw [mem_singleton.mp member]
    exact .head _
  | delete path => exact mem_singleton.mpr (deletes path member)
  | move source target version =>
    rcases mem_append.mp member with deleted | put
    · rw [deletes source deleted]
      exact .head _
    · rw [mem_singleton.mp put]
      exact .tail _ (.head _)

/-! ## What a captured edit supersedes -/

section Captured

variable {crypto : Crypto} {groupId : FolderGroupId} {signer : Signer} {author : AuthorId}
  {index : FileIndex} {store after : Store} {op : Op} {deltas : List NativeDelta}
  {witness : NativeCaptureWitness} {version : VersionHash}

theorem shownVersion_source (shows : witness.shownVersion = some version) :
    (shownVersion index store author op (some witness)).versions[witness.path]? =
        some (some version) ∧
      (shownVersion index store author op (some witness)).classAt witness.path =
        if witness.shownClass.isEmpty then none else some witness.shownClass := by
  simp only [shownVersion, shows, Option.isSome_some, if_true]
  constructor
  · rw [OrderedMap.getElem?_insert_eq, if_pos rfl]
  · cases witness.shownClass.isEmpty with
    | true => rfl
    | false => simp [Shown.classAt]

/-- A head at the source of a captured op stays live exactly when it has other
content than was shown, or a class was captured that it is not in. -/
theorem authorOpWitnessed_head (acts : witness.path = op.source)
    (shows : witness.shownVersion = some version) (installed : store.HeadsInstalled)
    (ran : authorOpWitnessed crypto groupId signer author index op (some witness) store =
      .ok deltas after) (live : store.heads[(⟨op.source, dot⟩ : HeadKey)]? = some payload) :
    after.heads[(⟨op.source, dot⟩ : HeadKey)]? = some payload ↔
      payload.version ≠ version ∨ (witness.shownClass ≠ [] ∧ dot ∉ witness.shownClass) := by
  let state : NativeState := ⟨∅, store.loadHeadsAtPaths op.paths⟩
  have reads : ∀ path, path ∈ op.paths → ∀ dot,
      state.headAt path dot = store.heads[(⟨path, dot⟩ : HeadKey)]? := by
    intro path member dot
    rw [store.headAt_loadHeadsAtPaths, if_pos member]
  have sourceRead : op.source ∈ op.paths := by
    cases op with
    | put path version => exact mem_singleton.mpr rfl
    | delete path => exact mem_singleton.mpr rfl
    | move source target version => exact .head _
  have shown : (shownVersion index store author op (some witness)).versions[witness.path]? =
      some (some version) ∧ _ := shownVersion_source shows
  rcases shown with ⟨versions, class_⟩
  rw [acts] at versions class_
  have signed : authorAndInstall crypto groupId signer author state
      (editsForOp state op (shownVersion index store author op (some witness))) none store =
        .ok deltas after := ran
  rw [authorAndInstall_heads installed
      (fun edit member dot => reads edit.path (path_of_editsForOp member) dot) signed live,
    editsForOp_source, mem_observedTarget_iff, reads op.source sourceRead, live, versions, class_]
  constructor
  · intro stays
    by_cases same : payload.version = version
    · right
      by_cases empty : witness.shownClass = []
      · exact absurd ⟨payload, rfl, by rw [same], by simp [empty]⟩ stays
      · refine ⟨empty, fun inClass => stays ⟨payload, rfl, by rw [same], ?_⟩⟩
        intro dots isClass
        rw [if_neg (by simpa using empty)] at isClass
        cases isClass
        exact inClass
    · exact Or.inl same
  · rintro kept ⟨other, isPayload, sameVersion, inClass⟩
    cases isPayload
    rcases kept with different | ⟨nonempty, unseen⟩
    · exact different (Option.some.inj (Option.some.inj sameVersion)).symm
    · exact unseen (inClass witness.shownClass (if_neg (by simpa using nonempty)))

end Captured

/-- Every head at the path of a captured edit that its capture did not see outlives
the edit, exactly when the capture saw some head of the version it was shown or the
store holds none of that version at the commit. -/
theorem captured_edit_keeps_unseen_iff (crypto : Crypto) (groupId : FolderGroupId)
    (signer : Signer) (author : AuthorId) (seenIndex index : FileIndex)
    (seen store after : Store) (op : Op) (version : VersionHash) (deltas : List NativeDelta)
    (shows : (captureNativeWitness seenIndex seen op.source).shownVersion = some version)
    (installed : store.HeadsInstalled)
    (ran : authorOpWitnessed crypto groupId signer author index op
      (some (captureNativeWitness seenIndex seen op.source)) store = .ok deltas after) :
    (∀ dot payload, store.heads[(⟨op.source, dot⟩ : HeadKey)]? = some payload →
      dot ∉ (captureNativeWitness seenIndex seen op.source).shownClass →
      after.heads[(⟨op.source, dot⟩ : HeadKey)]? = some payload) ↔
    ((captureNativeWitness seenIndex seen op.source).shownClass ≠ [] ∨
      ∀ dot payload, store.heads[(⟨op.source, dot⟩ : HeadKey)]? = some payload →
        payload.version ≠ version) := by
  constructor
  · intro keeps
    by_cases empty : (captureNativeWitness seenIndex seen op.source).shownClass = []
    · right
      intro dot payload live
      have unseen : dot ∉ (captureNativeWitness seenIndex seen op.source).shownClass := by
        rw [empty]
        exact List.not_mem_nil
      rcases (authorOpWitnessed_head rfl shows installed ran live).mp
        (keeps dot payload live unseen) with different | ⟨nonempty, _⟩
      · exact different
      · exact absurd empty nonempty
    · exact Or.inl empty
  · intro condition dot payload live unseen
    apply (authorOpWitnessed_head rfl shows installed ran live).mpr
    rcases condition with nonempty | noneShown
    · exact Or.inr ⟨nonempty, unseen⟩
    · exact Or.inl (noneShown dot payload live)

namespace SampleEdit

def writer : AuthorId := ⟨"d", 1⟩

def peer : AuthorId := ⟨"d", 2⟩

def other : AuthorId := ⟨"d", 3⟩

def signer : Signer :=
  ⟨fun author => Crypto.sampleSign (author.incarnation.setWidth 256),
    fun author => author.incarnation.setWidth 256⟩

def keyFor : KeyFor := fun author => some (signer.keyOf author)

/-- One delta of `author` that lands `version` at `a`. -/
def lands (author : AuthorId) (version : BitVec 256) (removes : List HeadRef) (seq : Nat)
    (prev : Option DeltaHash) : NativeDelta :=
  NativeDelta.signedBy Crypto.sample (signer.sign author) {
    groupId := "group", author := author, seq := seq, prev := prev
    ops := [⟨"a", removes, some ⟨⟨version⟩⟩⟩], recursivePart := none, signature := 0 }

def first : NativeDelta := lands peer 1 [] 1 none

def second : NativeDelta :=
  lands peer 2 [⟨first.dot, first.deltaHash Crypto.sample⟩] 2
    (some (first.deltaHash Crypto.sample))

def third : NativeDelta := lands other 1 [] 1 none

def admitted (deltas : List NativeDelta) : Store :=
  admitAll Crypto.sample "group" .empty (deltas.map fun delta => ⟨delta, keyFor, 0⟩)

/-- The disk holds the first version, and the row shows it. -/
def index : FileIndex where
  current := (∅ : ExtTreeMap SyncPath CurrentRow).insert "a" ⟨false, ⟨1⟩⟩
  generations := (∅ : ExtTreeMap SyncPath GenerationRow).insert "a" ⟨0, .regularFile, some ⟨1⟩⟩
  fences := (∅ : ExtTreeMap SyncPath Nat).insert "a" 0

def edit : Op := .put "a" ⟨3⟩

theorem headsInstalled_of_check {store : Store} (check : (store.heads.toList.all fun row =>
      row.1.dot.seq ≤ positionSeq store.frontier[row.1.dot.author]?) = true) :
    store.HeadsInstalled := by
  intro path dot payload live
  have member := ExtTreeMap.mem_toList_iff_getElem?_eq_some.mpr live
  simpa using all_eq_true.mp check _ member

/-- The edit goes through when it was captured in `seen`. -/
def commits (seen store : Store) : Bool :=
  match authorOpWitnessed Crypto.sample "group" signer writer index edit
      (some (captureNativeWitness index seen edit.source)) store with
  | .ok _ _ => true
  | .error _ _ => false

theorem ran_of_commits (seen store : Store) (commit : commits seen store = true) :
    ∃ deltas after, authorOpWitnessed Crypto.sample "group" signer writer index edit
      (some (captureNativeWitness index seen edit.source)) store = .ok deltas after := by
  unfold commits at commit
  split at commit
  · rename_i deltas after ran
    exact ⟨deltas, after, ran⟩
  · cases commit

end SampleEdit

/-- An edit captured while the first head was live keeps the head that lands the same
version afterwards. -/
theorem captured_edit_keeps_later_head :
    ∃ deltas after, authorOpWitnessed Crypto.sample "group" SampleEdit.signer SampleEdit.writer
        SampleEdit.index SampleEdit.edit
        (some (captureNativeWitness SampleEdit.index (SampleEdit.admitted [SampleEdit.first])
          SampleEdit.edit.source))
        (SampleEdit.admitted [SampleEdit.first, SampleEdit.third]) = .ok deltas after ∧
      (after.heads[(⟨SampleEdit.edit.source, SampleEdit.third.dot⟩ : HeadKey)]?).isSome = true := by
  rcases SampleEdit.ran_of_commits (SampleEdit.admitted [SampleEdit.first])
    (SampleEdit.admitted [SampleEdit.first, SampleEdit.third]) (by decide +kernel) with
    ⟨deltas, after, ran⟩
  have keeps := (captured_edit_keeps_unseen_iff Crypto.sample "group" SampleEdit.signer
    SampleEdit.writer SampleEdit.index SampleEdit.index (SampleEdit.admitted [SampleEdit.first])
    (SampleEdit.admitted [SampleEdit.first, SampleEdit.third]) after SampleEdit.edit ⟨1⟩ deltas
    (by decide +kernel) (SampleEdit.headsInstalled_of_check (by decide +kernel)) ran).mpr
    (Or.inl (by decide +kernel))
  refine ⟨deltas, after, ran, ?_⟩
  have live : ((SampleEdit.admitted [SampleEdit.first, SampleEdit.third]).heads[(⟨
      SampleEdit.edit.source, SampleEdit.third.dot⟩ : HeadKey)]?).isSome = true := by
    decide +kernel
  rcases Option.isSome_iff_exists.mp live with ⟨payload, isLive⟩
  rw [keeps SampleEdit.third.dot payload isLive (by decide +kernel)]
  rfl

/-- When no head of the version on disk is live at the capture, the edit supersedes a
head of that version which arrives before the commit. -/
theorem captured_edit_drops_later_head :
    ¬∀ (index : FileIndex) (seen after : Store) (calls : List AdmissionCall) (op : Op)
        (version : VersionHash) (deltas : List NativeDelta),
      (captureNativeWitness index seen op.source).shownVersion = some version →
      (admitAll Crypto.sample "group" seen calls).HeadsInstalled →
      requireFreshNativeCapture index (admitAll Crypto.sample "group" seen calls) op.source
        (some (captureNativeWitness index seen op.source)) = .ok () →
      authorOpWitnessed Crypto.sample "group" SampleEdit.signer SampleEdit.writer index op
        (some (captureNativeWitness index seen op.source))
        (admitAll Crypto.sample "group" seen calls) = .ok deltas after →
      ∀ dot payload,
        (admitAll Crypto.sample "group" seen calls).heads[(⟨op.source, dot⟩ : HeadKey)]? =
          some payload →
        dot ∉ (captureNativeWitness index seen op.source).shownClass →
        after.heads[(⟨op.source, dot⟩ : HeadKey)]? = some payload := by
  intro always
  let seen := SampleEdit.admitted [SampleEdit.first, SampleEdit.second]
  let calls : List AdmissionCall := [⟨SampleEdit.third, SampleEdit.keyFor, 0⟩]
  have installed : (admitAll Crypto.sample "group" seen calls).HeadsInstalled :=
    SampleEdit.headsInstalled_of_check (by decide +kernel)
  rcases SampleEdit.ran_of_commits seen (admitAll Crypto.sample "group" seen calls)
    (by decide +kernel) with ⟨deltas, after, ran⟩
  have shows : (captureNativeWitness SampleEdit.index seen SampleEdit.edit.source).shownVersion =
      some ⟨1⟩ := by
    decide
  have live : (admitAll Crypto.sample "group" seen calls).heads[(⟨SampleEdit.edit.source,
      SampleEdit.third.dot⟩ : HeadKey)]? =
        some ⟨⟨1⟩, SampleEdit.third.deltaHash Crypto.sample⟩ := by
    decide +kernel
  have nothingSeen : (captureNativeWitness SampleEdit.index seen
      SampleEdit.edit.source).shownClass = [] := by
    decide +kernel
  have unseen : SampleEdit.third.dot ∉ (captureNativeWitness SampleEdit.index seen
      SampleEdit.edit.source).shownClass := by
    rw [nothingSeen]
    exact List.not_mem_nil
  have kept := always SampleEdit.index seen after calls SampleEdit.edit ⟨1⟩ deltas shows installed
    (by decide) ran SampleEdit.third.dot _ live unseen
  rcases (authorOpWitnessed_head rfl shows installed ran live).mp kept with different | ⟨some_, _⟩
  · exact different rfl
  · exact some_ nothingSeen

end Yadorilink
