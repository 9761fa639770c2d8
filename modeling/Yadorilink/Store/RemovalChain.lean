import Yadorilink.Store.Authoring
import Yadorilink.Store.Recording

/-! What a peer shows while it admits the chain of one local mutation. Every edit
gives up its observed heads `maxRemovesPerOp` a round, and all of them land in the
last round, so an edit with few heads is stripped long before it lands when another
edit of the same mutation makes the chain long. -/

namespace Yadorilink

open Std Transaction OrderedMap ExtTreeMap List

/-! ## One edit for each path -/

variable {edit : PathEdit}

private theorem mergeEdit_named {merged next : ExtTreeMap SyncPath PathEdit}
    (named : ∀ (path : SyncPath) (found : PathEdit), merged[path]? = some found →
      found.path = path) (ran : mergeEdit merged edit = .ok next) (path : SyncPath)
    (found : PathEdit) (lookup : next[path]? = some found) : found.path = path := by
  unfold mergeEdit at ran
  cases present : merged[edit.path]? with
  | none =>
    simp only [present] at ran
    cases ran
    rw [getElem?_insert_eq] at lookup
    split at lookup
    · rename_i same
      cases lookup
      exact same
    · exact named path found lookup
  | some existing =>
    simp only [present] at ran
    split at ran
    · cases ran
    · cases ran
      rw [getElem?_insert_eq] at lookup
      split at lookup
      · rename_i same
        cases lookup
        exact (named edit.path existing present).trans same
      · exact named path found lookup

private theorem foldlM_mergeEdit_named {edits : List PathEdit}
    {merged next : ExtTreeMap SyncPath PathEdit}
    (named : ∀ (path : SyncPath) (found : PathEdit), merged[path]? = some found → found.path = path)
    (ran : edits.foldlM mergeEdit merged = .ok next) (path : SyncPath) (found : PathEdit)
    (lookup : next[path]? = some found) : found.path = path := by
  induction edits generalizing merged with
  | nil =>
    cases ran
    exact named path found lookup
  | cons edit rest induction =>
    rw [foldlM_cons] at ran
    rcases Fallible.bind_eq_ok_iff.mp ran with ⟨middle, first, later⟩
    exact induction (fun path found => mergeEdit_named named first path found) later

theorem mergeEdits_paths_nodup {edits merged : List PathEdit}
    (merges : mergeEdits edits = .ok merged) : (merged.map PathEdit.path).Nodup := by
  rcases Fallible.bind_eq_ok_iff.mp merges with ⟨byPath, folds, finished⟩
  cases finished
  have paths : (byPath.toList.map Prod.snd).map PathEdit.path = byPath.keys := by
    rw [List.map_map, ← map_fst_toList_eq_keys]
    apply map_congr_left
    intro entry member
    exact foldlM_mergeEdit_named (fun path found absent => by simp at absent) folds entry.1 entry.2
      (mem_toList_iff_getElem?_eq_some.mp member)
  rw [paths]
  exact nodup_keys

private theorem foldlM_mergeEdit_keys {edits : List PathEdit}
    {merged next : ExtTreeMap SyncPath PathEdit} (ran : edits.foldlM mergeEdit merged = .ok next)
    {path : SyncPath} (present : path ∈ next) :
    path ∈ merged ∨ ∃ edit, edit ∈ edits ∧ edit.path = path := by
  induction edits generalizing merged with
  | nil =>
    cases ran
    exact Or.inl present
  | cons edit rest induction =>
    rw [foldlM_cons] at ran
    rcases Fallible.bind_eq_ok_iff.mp ran with ⟨middle, first, later⟩
    have inserted : ∃ value, middle = merged.insert edit.path value := by
      unfold mergeEdit at first
      split at first
      · cases first
        exact ⟨_, rfl⟩
      · split at first
        · cases first
        · cases first
          exact ⟨_, rfl⟩
    rcases inserted with ⟨value, rfl⟩
    rcases induction later with inMiddle | ⟨other, inRest, same⟩
    · rcases mem_insert.mp inMiddle with same | before
      · exact Or.inr ⟨edit, .head _, LawfulEqCmp.eq_of_compare same⟩
      · exact Or.inl before
    · exact Or.inr ⟨other, .tail _ inRest, same⟩

theorem mergeEdits_path {edits merged : List PathEdit} (merges : mergeEdits edits = .ok merged)
    {found : PathEdit} (member : found ∈ merged) :
    ∃ edit, edit ∈ edits ∧ edit.path = found.path := by
  rcases Fallible.bind_eq_ok_iff.mp merges with ⟨byPath, folds, finished⟩
  cases finished
  rcases mem_map.mp member with ⟨entry, inMap, rfl⟩
  have stored := mem_toList_iff_getElem?_eq_some.mp inMap
  have named := foldlM_mergeEdit_named (fun path found absent => by simp at absent) folds entry.1
    entry.2 stored
  have present : entry.1 ∈ byPath := by
    rw [mem_iff_isSome_getElem?, stored]
    rfl
  rcases foldlM_mergeEdit_keys folds present with absent | found
  · exact absurd absent not_mem_empty
  · rw [named]
    exact found

private def GivesUp (merged : ExtTreeMap SyncPath PathEdit) (path : SyncPath) (dot : Dot) : Prop :=
  ∃ found, merged[path]? = some found ∧ dot ∈ found.observed

variable {dot : Dot}

private theorem mem_foldl_addObserved {more observed : List Dot} :
    dot ∈ more.foldl addObserved observed ↔ dot ∈ observed ∨ dot ∈ more := by
  induction more generalizing observed with
  | nil => simp
  | cons first rest induction =>
    have added : dot ∈ addObserved observed first ↔ dot ∈ observed ∨ dot = first := by
      unfold addObserved
      split
      · rename_i present
        constructor
        · exact Or.inl
        · intro either
          rcases either with known | same
          · exact known
          · exact same ▸ present
      · simp
    rw [foldl_cons, induction, added, mem_cons, or_assoc]

private theorem mergeEdit_givesUp {merged next : ExtTreeMap SyncPath PathEdit}
    (ran : mergeEdit merged edit = .ok next) (path : SyncPath) (dot : Dot) :
    GivesUp next path dot ↔ GivesUp merged path dot ∨ (edit.path = path ∧ dot ∈ edit.observed) := by
  unfold mergeEdit at ran
  cases present : merged[edit.path]? with
  | none =>
    simp only [present] at ran
    cases ran
    simp only [GivesUp, getElem?_insert_eq]
    by_cases same : edit.path = path
    · subst same
      simp [present]
    · simp [same]
  | some existing =>
    simp only [present] at ran
    split at ran
    · cases ran
    · cases ran
      simp only [GivesUp, getElem?_insert_eq]
      by_cases same : edit.path = path
      · subst same
        simp [present, mem_foldl_addObserved]
      · simp [same]

private theorem foldlM_mergeEdit_givesUp {edits : List PathEdit}
    {merged next : ExtTreeMap SyncPath PathEdit}
    (ran : edits.foldlM mergeEdit merged = .ok next) (path : SyncPath) (dot : Dot) :
    GivesUp next path dot ↔ GivesUp merged path dot ∨
      ∃ edit, edit ∈ edits ∧ edit.path = path ∧ dot ∈ edit.observed := by
  induction edits generalizing merged with
  | nil =>
    cases ran
    simp
  | cons edit rest induction =>
    rw [foldlM_cons] at ran
    rcases Fallible.bind_eq_ok_iff.mp ran with ⟨middle, first, later⟩
    rw [induction later, mergeEdit_givesUp first]
    simp only [mem_cons, exists_eq_or_imp, or_assoc]

theorem mergeEdits_observed {edits merged : List PathEdit}
    (merges : mergeEdits edits = .ok merged) (path : SyncPath) (dot : Dot) :
    (∃ edit, edit ∈ merged ∧ edit.path = path ∧ dot ∈ edit.observed) ↔
      ∃ edit, edit ∈ edits ∧ edit.path = path ∧ dot ∈ edit.observed := by
  rcases Fallible.bind_eq_ok_iff.mp merges with ⟨byPath, folds, finished⟩
  cases finished
  have given := foldlM_mergeEdit_givesUp folds path dot
  have named := foldlM_mergeEdit_named (fun path found absent => by simp at absent) folds
  have listed : (∃ edit, edit ∈ byPath.toList.map Prod.snd ∧ edit.path = path ∧
      dot ∈ edit.observed) ↔ GivesUp byPath path dot := by
    constructor
    · rintro ⟨edit, member, samePath, inEdit⟩
      rcases mem_map.mp member with ⟨entry, inMap, rfl⟩
      have stored := mem_toList_iff_getElem?_eq_some.mp inMap
      rw [← samePath, named entry.1 entry.2 stored]
      exact ⟨entry.2, stored, inEdit⟩
    · rintro ⟨edit, stored, inEdit⟩
      exact ⟨edit, mem_map.mpr ⟨(path, edit),
        mem_toList_iff_getElem?_eq_some.mpr stored, rfl⟩, named path edit stored, inEdit⟩
  rw [listed, given]
  simp [GivesUp]

/-! ## One round at a peer -/

def receiveAll (crypto : Crypto) (peer : NativeState) (deltas : List NativeDelta) :
    Except AuthorError NativeState :=
  deltas.foldlM (fun state delta => do
    let (_, next) ← state.receiveVerified delta.author delta.seq (delta.remoteOps crypto)
    return next) peer

/-- At the edited paths the state is `before` without the heads that the first
`rounds` rounds remove. -/
def StrippedBy (before : NativeState) (edits : List PathEdit) (rounds : Nat)
    (state : NativeState) : Prop :=
  ∀ edit, edit ∈ edits → ∀ dot payload, state.headAt edit.path dot = some payload ↔
    before.headAt edit.path dot = some payload ∧ dot ∉ edit.observed.take (rounds * maxRemovesPerOp)

variable {payload : HeadPayload}

theorem provenanceOf_eq {state : NativeState} {path : SyncPath}
    (live : state.headAt path dot = some payload) :
    provenanceOf state path dot = payload.provenance := by
  have stored : (state.pathHeads path)[dot]? = some payload := live
  have found : ((state.pathHeads path).toList.find? fun entry => entry.1 = dot) =
      some (dot, payload) := by
    rw [find?_toList_eq, stored]
    rfl
  have search : ((fun head : LiveHead => decide (head.dot = dot)) ∘
      fun entry : Dot × HeadPayload => (⟨entry.1, entry.2⟩ : LiveHead)) =
        fun entry => decide (entry.1 = dot) := rfl
  rw [provenanceOf, NativeState.headsAt, find?_map, search, found]
  rfl

variable {round : Nat} {prev : Option DeltaHash} {delta : NativeDelta} {peer : NativeState}

section Round

variable {crypto : Crypto} {groupId : FolderGroupId} {signer : Signer} {author : AuthorId}
  {state : NativeState} {edits : List PathEdit} {part : Option RecursivePart}

def roundRemoves (state : NativeState) (round : Nat) (edit : PathEdit) : List HeadRef :=
  ((edit.observed.drop (round * maxRemovesPerOp)).take maxRemovesPerOp).map
    fun dot => ⟨dot, provenanceOf state edit.path dot⟩

theorem roundOp_some {lastRound : Bool} {op : DeltaOp}
    (does : roundOp state round lastRound edit = some op) :
    op.path = edit.path ∧ op.removes = roundRemoves state round edit ∧
      (lastRound = false → op.put = none) := by
  unfold roundOp at does
  dsimp only at does
  split at does
  · cases does
  · cases does
    refine ⟨rfl, rfl, fun early => ?_⟩
    rw [early]
    cases edit.put with
    | none => rfl
    | some payload => rfl

theorem roundOp_none {lastRound : Bool} (idle : roundOp state round lastRound edit = none) :
    roundRemoves state round edit = [] := by
  unfold roundOp at idle
  dsimp only at idle
  split at idle
  · rename_i empty
    rw [Bool.and_eq_true] at empty
    exact isEmpty_iff.mp empty.1
  · cases idle

theorem roundOps_paths_nodup (distinct : (edits.map PathEdit.path).Nodup) (round : Nat)
    (lastRound : Bool) :
    ((edits.filterMap (roundOp state round lastRound)).map DeltaOp.path).Nodup := by
  apply List.Nodup.sublist _ distinct
  induction edits with
  | nil => exact List.Sublist.refl []
  | cons edit rest induction =>
    have later := induction (nodup_cons.mp distinct).2
    cases does : roundOp state round lastRound edit with
    | none =>
      rw [filterMap_cons_none does, map_cons]
      exact later.cons _
    | some op =>
      rw [filterMap_cons_some does, map_cons, map_cons, (roundOp_some does).1]
      exact later.cons_cons _

/-- A round takes its share of the observed heads from every edited path; among
the heads that were there it changes no other. -/
theorem headAt_round (distinct : (edits.map PathEdit.path).Nodup) {seq : Nat} {lastRound : Bool}
    (isRound : delta = roundDelta crypto groupId signer author state edits part round lastRound seq
      prev) (peer : NativeState) (context : Context) (member : edit ∈ edits)
    (notLanded : lastRound = false ∨ dot ≠ delta.dot) :
    NativeState.headAt ⟨context, (delta.remoteOps crypto).foldl (NativeState.applyOp delta.dot)
        peer.heads⟩ edit.path dot = some payload ↔
      peer.headAt edit.path dot = some payload ∧
        ⟨dot, payload.provenance⟩ ∉ roundRemoves state round edit := by
  have ops : delta.ops = edits.filterMap (roundOp state round lastRound) := by
    rw [isRound]
    rfl
  have distinctOps : (delta.ops.map DeltaOp.path).Nodup := by
    rw [ops]
    exact roundOps_paths_nodup distinct round lastRound
  cases does : roundOp state round lastRound edit with
  | none =>
    -- Nothing of this edit is left for the round, so no op names its path.
    have untouched : edit.path ∉ (delta.remoteOps crypto).map RemoteOp.path := by
      intro touched
      rcases mem_map.mp touched with ⟨applied, inApplied, samePath⟩
      rcases (NativeDelta.mem_remoteOps_iff distinctOps).mp inApplied with ⟨op, inOps, rfl⟩
      rw [ops] at inOps
      rcases mem_filterMap.mp inOps with ⟨other, inEdits, otherDoes⟩
      have same : other = edit := inj_on_of_nodup_map distinct inEdits member
        ((roundOp_some otherDoes).1.symm.trans samePath)
      rw [same, does] at otherDoes
      cases otherDoes
    rw [NativeState.headAt_ops_of_not_mem _ _ _ _ untouched, roundOp_none does]
    simp
  | some op =>
    rcases roundOp_some does with ⟨samePath, removes, early⟩
    have inOps : op ∈ delta.ops := by
      rw [ops]
      exact mem_filterMap.mpr ⟨edit, member, does⟩
    have applied : delta.remoteOp crypto op ∈ delta.remoteOps crypto :=
      (NativeDelta.mem_remoteOps_iff distinctOps).mpr ⟨op, inOps, rfl⟩
    have notPut : ¬(delta.dot = dot ∧ (delta.remoteOp crypto op).put.isSome = true) := by
      rintro ⟨isDot, lands⟩
      rcases notLanded with notLast | different
      · rw [NativeDelta.remoteOp, early notLast] at lands
        cases lands
      · exact different isDot.symm
    have after : NativeState.headAt ⟨context, (delta.remoteOps crypto).foldl
        (NativeState.applyOp delta.dot) peer.heads⟩ op.path dot = some payload ↔ _ :=
      NativeState.headAt_ops_of_mem peer _ delta.dot _ (delta.remoteOps_paths_nodup crypto)
        applied
    rw [← samePath, after, ← removes]
    constructor
    · intro kept
      rcases kept with ⟨isDot, put⟩ | ⟨_, live, stays⟩
      · exact absurd ⟨isDot, by rw [put]; rfl⟩ notPut
      · exact ⟨live, stays⟩
    · rintro ⟨live, stays⟩
      exact Or.inr ⟨notPut, live, stays⟩

theorem mem_take_succ_round (live : state.headAt edit.path dot = some payload) :
    (dot ∉ edit.observed.take (round * maxRemovesPerOp) ∧
      (⟨dot, payload.provenance⟩ : HeadRef) ∉ roundRemoves state round edit) ↔
        dot ∉ edit.observed.take ((round + 1) * maxRemovesPerOp) := by
  rw [Nat.add_mul, Nat.one_mul, take_add, mem_append, not_or]
  apply and_congr_right
  intro _
  rw [roundRemoves, mem_map, not_iff_not]
  constructor
  · rintro ⟨other, inChunk, same⟩
    have sameDot : other = dot := congrArg HeadRef.dot same
    exact sameDot ▸ inChunk
  · intro inChunk
    exact ⟨dot, inChunk, by rw [provenanceOf_eq live]⟩

theorem StrippedBy.receive (distinct : (edits.map PathEdit.path).Nodup) {seq : Nat}
    (stripped : StrippedBy state edits round peer)
    (isRound : delta = roundDelta crypto groupId signer author state edits part round false seq
      prev) (checked : NativeState.checkOps [] (delta.remoteOps crypto) = .ok ()) :
    ∃ next, peer.receiveVerified delta.author delta.seq (delta.remoteOps crypto) =
        .ok (delta.dot, next) ∧ StrippedBy state edits (round + 1) next := by
  refine ⟨⟨peer.context.insert delta.author delta.seq,
    (delta.remoteOps crypto).foldl (NativeState.applyOp delta.dot) peer.heads⟩, ?_, ?_⟩
  · rw [NativeState.receiveVerified, checked]
    rfl
  · intro edit member dot payload
    rw [headAt_round distinct isRound peer _ member (Or.inl rfl), stripped edit member, and_assoc]
    exact and_congr_right fun live => mem_take_succ_round live

end Round

/-! ## The chain at a peer -/

section Chain

variable {crypto : Crypto} {groupId : FolderGroupId} {signer : Signer} {author : AuthorId}
  {state : NativeState} {edits : List PathEdit} {part : Option RecursivePart}
  {deltas : List NativeDelta} {store after : Store}

theorem installAuthoredDelta_records {key : VerifyingKey} {admission : Admission}
    {result : Dot × InstalledHeads}
    (ran : installAuthoredDelta crypto groupId delta key admission store = .ok result after) :
    checkChainAdvance store.frontier[delta.author]? delta.prev delta.seq = .ok () ∧
      Records crypto delta store after := by
  rcases bind_eq_ok_iff.mp ran with ⟨⟨outcome, heads⟩, middle, reported, finished⟩
  rcases installVerifiedDeltaReporting_records reported with ⟨refused, _⟩ | ⟨_, chain, records, _⟩
  · cases outcome with
    | installed dot => exact absurd rfl (refused dot)
    | _ => cases finished
  · cases outcome with
    | installed dot =>
      cases finished
      exact ⟨chain, records⟩
    | _ => cases finished

theorem installAuthoredDelta_versions {key : VerifyingKey} {admission : Admission}
    {result : Dot × InstalledHeads}
    (ran : installAuthoredDelta crypto groupId delta key admission store = .ok result after) :
    after.versions = store.versions := by
  rcases bind_eq_ok_iff.mp ran with ⟨⟨outcome, heads⟩, middle, reported, finished⟩
  have same : middle.versions = store.versions := by
    rcases installVerifiedDeltaReporting_records reported with ⟨_, rfl⟩ | ⟨_, _, _, versions⟩
    · rfl
    · exact versions
  cases outcome with
  | installed dot =>
    cases finished
    exact same
  | _ => cases finished

theorem authorRounds_length {left seq : Nat}
    (ran : authorRounds crypto groupId signer author state edits part left round seq prev store =
      .ok deltas after) : deltas.length = left := by
  induction left generalizing round seq prev deltas store with
  | zero =>
    cases ran
    rfl
  | succ left induction =>
    rcases authorRounds_succ_ok ran with ⟨delta, _, _, middle, _, rest, rfl, goesOn⟩
    rcases goesOn with ⟨last, rfl, _⟩ | ⟨_, next, more⟩
    · rw [last]
      rfl
    · rw [length_cons, induction more]

/-- A peer that has admitted the first `count` rounds of what is left, but not the
last one, has lost exactly what those rounds remove. -/
theorem receiveAll_rounds (distinct : (edits.map PathEdit.path).Nodup) {left seq : Nat}
    (ran : authorRounds crypto groupId signer author state edits part left round seq prev store =
      .ok deltas after) (stripped : StrippedBy state edits round peer) {count : Nat}
    (before : count < left) :
    ∃ final, receiveAll crypto peer (deltas.take count) = .ok final ∧
      StrippedBy state edits (round + count) final := by
  induction left generalizing round seq prev deltas store peer count with
  | zero => exact absurd before (Nat.not_lt_zero count)
  | succ left induction =>
    cases count with
    | zero => exact ⟨peer, rfl, stripped⟩
    | succ count =>
      rcases authorRounds_succ_ok ran with
        ⟨delta, isRound, _, middle, installed, rest, rfl, goesOn⟩
      have notLast : left ≠ 0 := by omega
      rcases goesOn with ⟨last, _, _⟩ | ⟨_, next, more⟩
      · exact absurd last notLast
      rw [decide_eq_false notLast] at isRound
      have records := (installAuthoredDelta_records installed).2
      rcases stripped.receive distinct isRound records.checked with
        ⟨received, receives, strippedOnce⟩
      have earlier : count < left := by omega
      rcases induction more strippedOnce earlier with
        ⟨final, admits, strippedAfter⟩
      refine ⟨final, ?_, ?_⟩
      · rw [take_succ_cons, receiveAll, foldlM_cons, receives]
        exact admits
      · rw [Nat.add_assoc, Nat.add_comm 1 count] at strippedAfter
        exact strippedAfter

theorem authorAndInstall_rounds {merged : List PathEdit} (nonempty : edits ≠ [])
    (merges : mergeEdits edits = .ok merged)
    (ran : authorAndInstall crypto groupId signer author state edits part store =
      .ok deltas after) :
    ∃ seq prev, authorRounds crypto groupId signer author state merged part (chainRounds merged)
      0 seq prev store = .ok deltas after := by
  unfold authorAndInstall at ran
  rw [if_neg (by simpa using nonempty)] at ran
  simp only [merges] at ran
  cases next : store.frontier[author]?.elim (some AuthorSeq.first) fun entry =>
      AuthorSeq.checkedNext entry.seq with
  | none =>
    cases checks : state.checkEdits author merged with
    | ok passed =>
      simp only [checks, bind_apply, get_apply, next] at ran
      cases ran
    | error failure =>
      cases failure with
      | selfHeadBound path =>
        simp only [checks] at ran
        cases ran
      | _ =>
        simp only [checks, bind_apply, get_apply, next] at ran
        cases ran
  | some seq =>
    cases checks : state.checkEdits author merged with
    | ok passed =>
      simp only [checks, bind_apply, get_apply, next] at ran
      exact ⟨seq, _, ran⟩
    | error failure =>
      cases failure with
      | selfHeadBound path =>
        simp only [checks] at ran
        cases ran
      | _ =>
        simp only [checks, bind_apply, get_apply, next] at ran
        exact ⟨seq, _, ran⟩

theorem chainRounds_pos (edits : List PathEdit) : 0 < chainRounds edits :=
  Nat.lt_of_lt_of_le Nat.zero_lt_one (Nat.le_max_left 1 _)

end Chain

/-! ## Content on the way -/

namespace NativeState

def ShowsPath (state : NativeState) (path : SyncPath) : Prop :=
  ∃ dot payload, state.headAt path dot = some payload

/-- Some head with content `version` is live at `path`. -/
def ShowsVersion (state : NativeState) (path : SyncPath) (version : VersionHash) : Prop :=
  ∃ dot payload, state.headAt path dot = some payload ∧ payload.version = version

end NativeState

/-- One edit gives up a head with content `version`, the other lands that content
at its own path. -/
structure MovesVersion (before : NativeState) (source target : PathEdit)
    (version : VersionHash) : Prop where
  elsewhere : source.path ≠ target.path
  leaves : ∃ dot payload, dot ∈ source.observed ∧
    before.headAt source.path dot = some payload ∧ payload.version = version
  lands : ∃ payload, target.put = some payload ∧ payload.version = version

/-- Nothing the edits work on is lost in `after`: every edited path that had a head
has one, and every moved version is at one of its two paths. -/
structure ContentKept (before after : NativeState) (edits : List PathEdit) : Prop where
  paths : ∀ edit, edit ∈ edits → before.ShowsPath edit.path → after.ShowsPath edit.path
  moves : ∀ source, source ∈ edits → ∀ target, target ∈ edits → ∀ version,
    MovesVersion before source target version →
      after.ShowsVersion source.path version ∨ after.ShowsVersion target.path version

/-- The heads of an edit's path that every round but the last leaves alone. -/
def OutlivesRounds (before : NativeState) (edits : List PathEdit) (edit : PathEdit) (dot : Dot)
    (payload : HeadPayload) : Prop :=
  before.headAt edit.path dot = some payload ∧
    dot ∉ edit.observed.take ((chainRounds edits - 1) * maxRemovesPerOp)

/-- Every edited path with a head, and every moved version, has a head that only
the last round removes, if any does. -/
structure KeptUntilLast (before : NativeState) (edits : List PathEdit) : Prop where
  paths : ∀ edit, edit ∈ edits → before.ShowsPath edit.path →
    ∃ dot payload, OutlivesRounds before edits edit dot payload
  moves : ∀ source, source ∈ edits → ∀ target, target ∈ edits → ∀ version,
    MovesVersion before source target version →
      (∃ dot payload, OutlivesRounds before edits source dot payload ∧ payload.version = version) ∨
        ∃ dot payload, OutlivesRounds before edits target dot payload ∧ payload.version = version

section Content

variable {before state : NativeState} {edits : List PathEdit} {rounds : Nat}

theorem StrippedBy.contentKept (stripped : StrippedBy before edits rounds state)
    (early : rounds < chainRounds edits) (kept : KeptUntilLast before edits) :
    ContentKept before state edits := by
  have shown : ∀ edit, edit ∈ edits → ∀ dot payload,
      OutlivesRounds before edits edit dot payload → state.headAt edit.path dot = some payload := by
    intro edit member dot payload outlives
    apply (stripped edit member dot payload).mpr
    refine ⟨outlives.1, fun removed => outlives.2 ?_⟩
    have shorter : rounds * maxRemovesPerOp ≤ (chainRounds edits - 1) * maxRemovesPerOp :=
      Nat.mul_le_mul_right _ (by omega)
    exact (take_sublist_take_left shorter).subset removed
  constructor
  · intro edit member showed
    rcases kept.paths edit member showed with ⟨dot, payload, outlives⟩
    exact ⟨dot, payload, shown edit member dot payload outlives⟩
  · intro source inSource target inTarget version moves
    rcases kept.moves source inSource target inTarget version moves with
      ⟨dot, payload, outlives, same⟩ | ⟨dot, payload, outlives, same⟩
    · exact Or.inl ⟨dot, payload, shown source inSource dot payload outlives, same⟩
    · exact Or.inr ⟨dot, payload, shown target inTarget dot payload outlives, same⟩

theorem StrippedBy.keptUntilLast (stripped : StrippedBy before edits (chainRounds edits - 1) state)
    (kept : ContentKept before state edits) : KeptUntilLast before edits := by
  constructor
  · intro edit member showed
    rcases kept.paths edit member showed with ⟨dot, payload, live⟩
    exact ⟨dot, payload, (stripped edit member dot payload).mp live⟩
  · intro source inSource target inTarget version moves
    rcases kept.moves source inSource target inTarget version moves with
      ⟨dot, payload, live, same⟩ | ⟨dot, payload, live, same⟩
    · exact Or.inl ⟨dot, payload, (stripped source inSource dot payload).mp live, same⟩
    · exact Or.inr ⟨dot, payload, (stripped target inTarget dot payload).mp live, same⟩

end Content

section Mutation

variable {crypto : Crypto} {groupId : FolderGroupId} {signer : Signer} {author : AuthorId}
  {state : NativeState} {edits merged : List PathEdit} {part : Option RecursivePart}
  {store after : Store} {deltas : List NativeDelta}

/-- Where a peer with the author's heads at the edited paths stands after a proper
part of the chain. -/
theorem receiveAll_stripped (nonempty : edits ≠ []) (merges : mergeEdits edits = .ok merged)
    (ran : authorAndInstall crypto groupId signer author state edits part store =
      .ok deltas after) (agrees : ∀ edit, edit ∈ merged → ∀ dot,
      peer.headAt edit.path dot = state.headAt edit.path dot) {count : Nat}
    (early : count < chainRounds merged) :
    ∃ final, receiveAll crypto peer (deltas.take count) = .ok final ∧
      StrippedBy state merged count final := by
  rcases authorAndInstall_rounds nonempty merges ran with ⟨seq, prev, rounds⟩
  have unstripped : StrippedBy state merged 0 peer := by
    intro edit member dot payload
    rw [agrees edit member dot, Nat.zero_mul, take_zero]
    simp
  rcases receiveAll_rounds (mergeEdits_paths_nodup merges) rounds unstripped early with
    ⟨final, admits, stripped⟩
  rw [Nat.zero_add] at stripped
  exact ⟨final, admits, stripped⟩

theorem authorAndInstall_length (nonempty : edits ≠ []) (merges : mergeEdits edits = .ok merged)
    (ran : authorAndInstall crypto groupId signer author state edits part store =
      .ok deltas after) : deltas.length = chainRounds merged := by
  rcases authorAndInstall_rounds nonempty merges ran with ⟨seq, prev, rounds⟩
  exact authorRounds_length rounds

/-- A peer that is one delta short of the whole chain tells whether its content
outlives the rounds. -/
theorem keptUntilLast_of_receiveAll (nonempty : edits ≠ []) (merges : mergeEdits edits = .ok merged)
    (ran : authorAndInstall crypto groupId signer author state edits part store =
      .ok deltas after) {final : NativeState}
    (admits : receiveAll crypto state (deltas.take (chainRounds merged - 1)) = .ok final)
    (kept : ContentKept state final merged) : KeptUntilLast state merged := by
  have positive := chainRounds_pos merged
  have early : chainRounds merged - 1 < chainRounds merged := by omega
  rcases receiveAll_stripped nonempty merges ran (fun _ _ _ => rfl) early with
    ⟨reached, reaches, stripped⟩
  rw [admits] at reaches
  cases reaches
  exact stripped.keptUntilLast kept

end Mutation

/-- Every proper part of a mutation's chain leaves its content shown at every peer,
exactly when each edited path and each moved version has a head that the rounds
before the last leave alone. -/
theorem removal_chain_keeps_content_iff (crypto : Crypto) (groupId : FolderGroupId)
    (signer : Signer) (author : AuthorId) (state : NativeState) (edits merged : List PathEdit)
    (part : Option RecursivePart) (store after : Store) (deltas : List NativeDelta)
    (nonempty : edits ≠ []) (merges : mergeEdits edits = .ok merged)
    (ran : authorAndInstall crypto groupId signer author state edits part store =
      .ok deltas after) :
    (∀ peer : NativeState,
      (∀ edit, edit ∈ merged → ∀ dot, peer.headAt edit.path dot = state.headAt edit.path dot) →
      ∀ count, count < deltas.length →
        ∃ final, receiveAll crypto peer (deltas.take count) = .ok final ∧
          ContentKept state final merged) ↔ KeptUntilLast state merged := by
  have length := authorAndInstall_length nonempty merges ran
  constructor
  · intro always
    have positive := chainRounds_pos merged
    rcases always state (fun _ _ _ => rfl) (chainRounds merged - 1) (by omega) with
      ⟨final, admits, kept⟩
    exact keptUntilLast_of_receiveAll nonempty merges ran admits kept
  · intro kept peer agrees count before
    rw [length] at before
    rcases receiveAll_stripped nonempty merges ran agrees before with ⟨final, admits, stripped⟩
    exact ⟨final, admits, stripped.contentKept before kept⟩

namespace SampleRemoval

def deviceOf (index : Nat) : AuthorId := ⟨"", BitVec.ofNat 128 (index + 1)⟩

def writer : AuthorId := ⟨"", 0x80⟩

def signer : Signer :=
  ⟨fun author => Crypto.sampleSign (author.incarnation.setWidth 256),
    fun author => author.incarnation.setWidth 256⟩

/-- The first delta of one more peer, which lands one head at `path`. -/
def withHead (path : SyncPath) (store : Store) (index : Nat) : Store :=
  let dot : Dot := ⟨deviceOf index, 1⟩
  let hash : DeltaHash := ⟨BitVec.ofNat 256 (index + 1)⟩
  { store with
    context := store.context.insert dot.author 1
    heads := store.heads.insert ⟨path, dot⟩ ⟨⟨BitVec.ofNat 256 index⟩, hash⟩
    frontier := store.frontier.insert dot.author ⟨1, hash⟩
    log := store.log.insert dot hash }

/-- Sixty-five peers wrote `b` at once, another one wrote `a`. -/
def store : Store :=
  withHead "a" ((List.range 65).foldl (withHead "b") Store.empty) 65

def removeAll : PathEdit :=
  ⟨"b", (List.range 65).map fun index => ⟨deviceOf index, 1⟩, none⟩

def removeOne : PathEdit := ⟨"a", [⟨deviceOf 65, 1⟩], none⟩

def single : Store := withHead "a" Store.empty 65

def moveOne : PathEdit := ⟨"c", [], some ⟨⟨BitVec.ofNat 256 65⟩, default⟩⟩

def signs (store : Store) (edits : List PathEdit) : Bool :=
  match authorAndInstall Crypto.sample "group" signer writer store.loadState edits none store with
  | .ok _ _ => true
  | .error _ _ => false

theorem ran_of_signs (store : Store) (edits : List PathEdit) (signed : signs store edits = true) :
    ∃ deltas after, authorAndInstall Crypto.sample "group" signer writer store.loadState edits none
      store = .ok deltas after := by
  unfold signs at signed
  split at signed
  · rename_i deltas after ran
    exact ⟨deltas, after, ran⟩
  · cases signed

end SampleRemoval

/-- A move of one head is one delta, which a peer has or has not. -/
theorem removal_chain_keeps_content_move :
    ∃ deltas after, authorAndInstall Crypto.sample "group" SampleRemoval.signer
        SampleRemoval.writer SampleRemoval.single.loadState
        [SampleRemoval.removeOne, SampleRemoval.moveOne] none SampleRemoval.single =
          .ok deltas after ∧
      ∀ count, count < deltas.length →
        ∃ final, receiveAll Crypto.sample SampleRemoval.single.loadState (deltas.take count) =
            .ok final ∧
          ContentKept SampleRemoval.single.loadState final
            [SampleRemoval.removeOne, SampleRemoval.moveOne] := by
  rcases SampleRemoval.ran_of_signs SampleRemoval.single
    [SampleRemoval.removeOne, SampleRemoval.moveOne] (by decide +kernel) with
    ⟨deltas, after, ran⟩
  have outlives : ∀ (edit : PathEdit) (dot : Dot) (payload : HeadPayload),
      SampleRemoval.single.loadState.headAt edit.path dot = some payload →
      OutlivesRounds SampleRemoval.single.loadState
        [SampleRemoval.removeOne, SampleRemoval.moveOne] edit dot payload := by
    intro edit dot payload live
    refine ⟨live, ?_⟩
    have oneRound : chainRounds [SampleRemoval.removeOne, SampleRemoval.moveOne] = 1 := by
      decide
    rw [oneRound, Nat.sub_self, Nat.zero_mul, List.take_zero]
    exact List.not_mem_nil
  have kept := (removal_chain_keeps_content_iff Crypto.sample "group" SampleRemoval.signer
    SampleRemoval.writer SampleRemoval.single.loadState
    [SampleRemoval.removeOne, SampleRemoval.moveOne] [SampleRemoval.removeOne, SampleRemoval.moveOne]
    none SampleRemoval.single after deltas (by simp) (by decide) ran).mpr
    ⟨fun edit _ ⟨dot, payload, live⟩ => ⟨dot, payload, outlives edit dot payload live⟩,
      fun source _ target _ version ⟨_, ⟨dot, payload, _, live, same⟩, _⟩ =>
        Or.inl ⟨dot, payload, outlives source dot payload live, same⟩⟩
  exact ⟨deltas, after, ran, kept SampleRemoval.single.loadState fun _ _ _ => rfl⟩

/-- Removing `a` and the crowded `b` in one mutation takes two deltas, and the first
of them leaves nothing at `a`. -/
theorem removal_chain_shows_lost :
    ¬∀ (signer : Signer) (author : AuthorId) (state : NativeState) (edits merged : List PathEdit)
        (store after : Store) (deltas : List NativeDelta),
      state.checkInvariants = .ok () → edits ≠ [] → mergeEdits edits = .ok merged →
      (∀ edit, edit ∈ merged → ∀ dot, dot ∈ edit.observed → dot ∈ state.dotsAt edit.path) →
      authorAndInstall Crypto.sample "group" signer author state edits none store =
        .ok deltas after →
      ∀ peer : NativeState,
        (∀ edit, edit ∈ merged → ∀ dot, peer.headAt edit.path dot = state.headAt edit.path dot) →
        ∀ count, count < deltas.length →
          ∃ final, receiveAll Crypto.sample peer (deltas.take count) = .ok final ∧
            ContentKept state final merged := by
  intro always
  have merges : mergeEdits [SampleRemoval.removeOne, SampleRemoval.removeAll] =
      .ok [SampleRemoval.removeOne, SampleRemoval.removeAll] := by
    decide
  rcases SampleRemoval.ran_of_signs SampleRemoval.store
    [SampleRemoval.removeOne, SampleRemoval.removeAll] (by decide +kernel) with
    ⟨deltas, after, ran⟩
  have rounds : chainRounds [SampleRemoval.removeOne, SampleRemoval.removeAll] = 2 := by
    decide
  have length := authorAndInstall_length (by simp) merges ran
  rcases always SampleRemoval.signer SampleRemoval.writer SampleRemoval.store.loadState
      [SampleRemoval.removeOne, SampleRemoval.removeAll]
      [SampleRemoval.removeOne, SampleRemoval.removeAll] SampleRemoval.store after deltas
      (by decide +kernel) (by simp) merges (by decide +kernel) ran SampleRemoval.store.loadState
      (fun _ _ _ => rfl) (chainRounds [SampleRemoval.removeOne, SampleRemoval.removeAll] - 1)
      (by omega) with ⟨final, admits, kept⟩
  have untilLast := keptUntilLast_of_receiveAll (by simp) merges ran admits kept
  have onlyHead : SampleRemoval.store.loadState.dotsAt "a" = SampleRemoval.removeOne.observed := by
    decide +kernel
  have headOf : ∀ dot, (∃ payload, SampleRemoval.store.loadState.headAt "a" dot = some payload) ↔
      dot ∈ SampleRemoval.removeOne.observed := by
    intro dot
    rw [← NativeState.mem_dotsAt_iff, onlyHead]
  have shown : SampleRemoval.store.loadState.ShowsPath "a" :=
    ⟨⟨SampleRemoval.deviceOf 65, 1⟩, (headOf _).mpr (.head _)⟩
  rcases untilLast.paths SampleRemoval.removeOne (.head _) shown with
    ⟨dot, payload, live, stays⟩
  rw [rounds] at stays
  exact stays ((headOf dot).mp ⟨payload, live⟩)

end Yadorilink
