import Yadorilink.Domain.NativeState
import Yadorilink.Foundation.Fallible
import Yadorilink.Foundation.KeyedFold

/-! What the operations of `NativeState` do, read head by head. Each operation
has one lemma that says which heads the result holds, and the checks have one
lemma each that says what passing them means; later modules use these and
never unfold the operations. -/

namespace Yadorilink

open Std List

/-! ## Single heads -/

/-- The payload of the live head `dot` at `path`, if it is live there. -/
def NativeState.headAt (state : NativeState) (path : SyncPath) (dot : Dot) :
    Option HeadPayload := (state.pathHeads path)[dot]?

namespace NativeState

theorem mem_dotsAt_iff (state : NativeState) (path : SyncPath) (dot : Dot) :
    dot ∈ state.dotsAt path ↔ ∃ payload, state.headAt path dot = some payload :=
  OrderedMap.mem_keys_iff _ _

@[simp] theorem headAt_new (path : SyncPath) (dot : Dot) : new.headAt path dot = none := by
  simp [headAt, pathHeads, new]

end NativeState

theorem observedBy_iff (context : Context) (dot : Dot) :
    observedBy context dot = true ↔ ∃ seq, context[dot.author]? = some seq ∧ dot.seq ≤ seq := by
  unfold observedBy
  split <;> simp_all

/-! ## Changing the heads of one path -/

/-- What the head map stores for a path whose heads are `heads`: a path
without heads is not stored. -/
def storedHeads (heads : PathHeads) : Option PathHeads :=
  if heads.isEmpty then none else some heads

@[simp] theorem getD_storedHeads (heads : PathHeads) : (storedHeads heads).getD ∅ = heads := by
  unfold storedHeads
  split
  · rename_i empty
    exact (ExtTreeMap.isEmpty_iff.mp empty).symm
  · rfl

theorem storedHeads_eq_some {heads stored : PathHeads}
    (isStored : storedHeads heads = some stored) : stored = heads ∧ heads.isEmpty = false := by
  unfold storedHeads at isStored
  split at isStored
  · cases isStored
  · rename_i notEmpty
    cases isStored
    exact ⟨rfl, by simpa using notEmpty⟩

theorem getElem?_changeHeads (heads : HeadMap) (path other : SyncPath)
    (change : PathHeads → PathHeads) :
    (changeHeads heads path change)[other]? =
      if path = other then storedHeads (change ((heads[other]?).getD ∅))
      else heads[other]? := by
  simp only [changeHeads, storedHeads]
  by_cases same : path = other
  · subst same
    by_cases empty : (change ((heads[path]?).getD ∅)).isEmpty = true
    · simp [empty]
    · simp [empty]
  · by_cases empty : (change ((heads[path]?).getD ∅)).isEmpty = true
    · simp [empty, same]
    · simp [empty, same]

def NoEmptyPath (heads : HeadMap) : Prop :=
  ∀ (path : SyncPath) (stored : PathHeads), heads[path]? = some stored → stored.isEmpty = false

variable {path : SyncPath}

section Changes

variable {ι : Type} (pathOf : ι → SyncPath) (change : ι → PathHeads → PathHeads)
  (items : List ι) (heads : HeadMap)

def changeEach : HeadMap :=
  items.foldl (fun heads item => changeHeads heads (pathOf item) (change item)) heads

theorem getElem?_changeEach_of_not_mem (untouched : path ∉ items.map pathOf) :
    (changeEach pathOf change items heads)[path]? = heads[path]? :=
  KeyedFold.view_foldl_of_not_mem (fun (map : HeadMap) (path : SyncPath) => map[path]?) pathOf
    (fun item current => storedHeads (change item (current.getD ∅)))
    (fun map item path => getElem?_changeHeads map (pathOf item) path (change item))
    items heads untouched

theorem getElem?_changeEach_of_mem (distinct : (items.map pathOf).Nodup) {item : ι}
    (member : item ∈ items) :
    (changeEach pathOf change items heads)[pathOf item]? =
      storedHeads (change item ((heads[pathOf item]?).getD ∅)) :=
  KeyedFold.view_foldl_of_mem (fun (map : HeadMap) (path : SyncPath) => map[path]?) pathOf
    (fun item current => storedHeads (change item (current.getD ∅)))
    (fun map item path => getElem?_changeHeads map (pathOf item) path (change item))
    heads distinct member

theorem noEmptyPath_changeEach (distinct : (items.map pathOf).Nodup)
    (before : NoEmptyPath heads) : NoEmptyPath (changeEach pathOf change items heads) := by
  intro path stored isStored
  by_cases touched : path ∈ items.map pathOf
  · rcases mem_map.mp touched with ⟨item, member, rfl⟩
    rw [getElem?_changeEach_of_mem pathOf change items heads distinct member] at isStored
    have facts := storedHeads_eq_some isStored
    exact facts.1 ▸ facts.2
  · rw [getElem?_changeEach_of_not_mem pathOf change items heads touched] at isStored
    exact before path stored isStored

end Changes

theorem getElem?_landAt (dot other : Dot) (put : Option HeadPayload) (heads : PathHeads) :
    (landAt dot put heads)[other]? = if dot = other ∧ put.isSome then put else heads[other]? := by
  cases put with
  | none => simp [landAt]
  | some payload => simp [landAt]

/-! ## Local authoring -/

def PathEdit.result (edit : PathEdit) (dot : Dot) (heads : PathHeads) : PathHeads :=
  landAt dot edit.put (edit.observed.foldl ExtTreeMap.erase heads)

theorem PathEdit.getElem?_result (edit : PathEdit) (dot other : Dot) (heads : PathHeads) :
    (edit.result dot heads)[other]? = if dot = other ∧ edit.put.isSome then edit.put
      else if other ∈ edit.observed then none else heads[other]? := by
  rw [result, getElem?_landAt, OrderedMap.getElem?_foldl_erase, map_id']

variable {payload : HeadPayload}

namespace NativeState

theorem checkObserved_ok {current : Option PathHeads} {seen observed : List Dot}
    (passed : checkObserved path current seen observed = .ok ()) :
    observed.Nodup ∧ (∀ dot, dot ∈ observed → dot ∉ seen) ∧
      ∀ dot, dot ∈ observed → ∃ payload, (current.getD ∅)[dot]? = some payload := by
  induction observed generalizing seen with
  | nil => simp
  | cons dot rest induction =>
    unfold checkObserved at passed
    split at passed
    · cases passed
    · rename_i fresh
      split at passed
      · cases passed
      · rename_i currentHead
        have later := induction passed
        have isCurrent : ∃ payload, (current.getD ∅)[dot]? = some payload := by
          cases current with
          | none => simp at currentHead
          | some heads =>
            have contained : heads.contains dot = true := by simpa using currentHead
            rw [ExtTreeMap.contains_iff_mem, ExtTreeMap.mem_iff_isSome_getElem?,
              Option.isSome_iff_exists] at contained
            exact contained
        refine ⟨nodup_cons.mpr ⟨fun member => ?_, later.1⟩, ?_, ?_⟩
        · exact later.2.1 dot member (.head _)
        · intro other member
          rcases mem_cons.mp member with equal | inRest
          · exact equal ▸ fresh
          · exact fun inSeen => later.2.1 other inRest (.tail dot inSeen)
        · intro other member
          rcases mem_cons.mp member with equal | inRest
          · exact equal ▸ isCurrent
          · exact later.2.2 other inRest

/-- What the author-side discipline guarantees of one edit. -/
structure EditAllowed (state : NativeState) (author : AuthorId) (edit : PathEdit) : Prop where
  observedNodup : edit.observed.Nodup
  observedCurrent : ∀ dot, dot ∈ edit.observed →
    ∃ payload, state.headAt edit.path dot = some payload
  ownBound : (state.dotsAt edit.path).countP (fun dot =>
      dot.author = author ∧ dot ∉ edit.observed) + edit.put.isSome.toNat ≤ maxSelfHeads

variable {author : AuthorId}

private theorem checkEditsFrom_ok {state : NativeState} {paths : List SyncPath}
    {edits : List PathEdit} (passed : state.checkEditsFrom author paths edits = .ok ()) :
    (edits.map PathEdit.path).Nodup ∧ (∀ edit, edit ∈ edits → edit.path ∉ paths) ∧
      ∀ edit, edit ∈ edits → EditAllowed state author edit := by
  induction edits generalizing paths with
  | nil => simp
  | cons edit rest induction =>
    simp only [checkEditsFrom, bind, Except.bind] at passed
    split at passed
    · cases passed
    · rename_i freshPath
      cases observedResult :
          checkObserved edit.path state.heads[edit.path]? [] edit.observed with
      | error failure =>
        rw [observedResult] at passed
        cases passed
      | ok checked =>
        rw [observedResult] at passed
        dsimp only at passed
        split at passed
        · cases passed
        · rename_i withinBound
          have later := induction passed
          have observedFacts := checkObserved_ok observedResult
          refine ⟨nodup_cons.mpr ⟨fun member => ?_, later.1⟩, ?_, ?_⟩
          · rcases mem_map.mp member with ⟨other, inRest, samePath⟩
            exact later.2.1 other inRest (samePath ▸ .head _)
          · intro other member
            rcases mem_cons.mp member with equal | inRest
            · exact equal ▸ freshPath
            · exact fun inPaths =>
                later.2.1 other inRest (.tail edit.path inPaths)
          · intro other member
            rcases mem_cons.mp member with equal | inRest
            · subst equal
              exact ⟨observedFacts.1, observedFacts.2.2, Nat.le_of_not_lt withinBound⟩
            · exact later.2.2 other inRest

theorem checkEdits_ok {state : NativeState} {edits : List PathEdit}
    (passed : state.checkEdits author edits = .ok ()) :
    (edits.map PathEdit.path).Nodup ∧ ∀ edit, edit ∈ edits → EditAllowed state author edit := by
  unfold checkEdits at passed
  split at passed
  · cases passed
  · have facts := checkEditsFrom_ok passed
    exact ⟨facts.1, facts.2.2⟩

theorem nextDot_ok {state : NativeState} {dot : Dot} (issued : state.nextDot author = .ok dot) :
    dot.author = author ∧ dot.seq = (state.contextOf author).getD 0 + 1 := by
  unfold nextDot at issued
  cases previous : state.contextOf author with
  | none =>
    rw [previous] at issued
    cases issued
    exact ⟨rfl, rfl⟩
  | some seq =>
    simp only [previous] at issued
    cases advanced : AuthorSeq.checkedNext seq with
    | none => simp [advanced] at issued
    | some next =>
      simp only [advanced] at issued
      cases issued
      exact ⟨rfl, (AuthorSeq.checkedNext_eq_some_iff.mp advanced).1⟩

/-- An accepted mutation passed the author-side checks, issued the next dot of
its author and applied its edits. -/
theorem author_ok {state next : NativeState} {edits : List PathEdit} {dot : Dot}
    (accepted : state.author author edits = .ok (dot, next)) :
    state.checkEdits author edits = .ok () ∧ state.nextDot author = .ok dot ∧
      next = ⟨state.context.insert author dot.seq, edits.foldl (applyEdit dot) state.heads⟩ := by
  unfold NativeState.author at accepted
  rcases Fallible.bind_eq_ok_iff.mp accepted with ⟨_, checked, afterCheck⟩
  rcases Fallible.bind_eq_ok_iff.mp afterCheck with ⟨issued, nextIssued, finished⟩
  cases finished
  exact ⟨checked, nextIssued, rfl⟩

section AfterEdits

variable (state : NativeState) (context : Context) (dot : Dot) (edits : List PathEdit)

theorem headAt_edits_of_not_mem (untouched : path ∉ edits.map PathEdit.path) (other : Dot) :
    headAt ⟨context, edits.foldl (applyEdit dot) state.heads⟩ path other =
      state.headAt path other := by
  have lookup := getElem?_changeEach_of_not_mem PathEdit.path
    (fun edit => edit.result dot) edits state.heads untouched
  exact congrArg (fun stored => (stored.getD ∅)[other]?) lookup

theorem headAt_edits_of_mem (distinct : (edits.map PathEdit.path).Nodup) {edit : PathEdit}
    (member : edit ∈ edits) (other : Dot) :
    headAt ⟨context, edits.foldl (applyEdit dot) state.heads⟩ edit.path other =
      if dot = other ∧ edit.put.isSome then edit.put
      else if other ∈ edit.observed then none else state.headAt edit.path other := by
  have lookup := getElem?_changeEach_of_mem PathEdit.path
    (fun edit => edit.result dot) edits state.heads distinct member
  have atPath : pathHeads ⟨context, edits.foldl (applyEdit dot) state.heads⟩ edit.path =
      edit.result dot (state.pathHeads edit.path) :=
    (congrArg (fun stored => stored.getD ∅) lookup).trans (getD_storedHeads _)
  rw [headAt, atPath, PathEdit.getElem?_result]
  rfl

theorem noEmptyPath_edits (distinct : (edits.map PathEdit.path).Nodup)
    (before : NoEmptyPath state.heads) :
    NoEmptyPath (edits.foldl (applyEdit dot) state.heads) :=
  noEmptyPath_changeEach PathEdit.path (fun edit => edit.result dot) edits state.heads
    distinct before

end AfterEdits

/-! ## Remote admission -/

theorem getElem?_applyRemoval_eq_some {heads : PathHeads} {removal : HeadRef} {dot : Dot} :
    (applyRemoval heads removal)[dot]? = some payload ↔
      heads[dot]? = some payload ∧ ⟨dot, payload.provenance⟩ ≠ removal := by
  unfold applyRemoval
  by_cases same : removal.dot = dot
  · subst same
    cases lookup : heads[removal.dot]? with
    | none => simp [lookup]
    | some live =>
      by_cases named : live.provenance = removal.provenance
      · simp only [Option.any_some, named, decide_true, if_true,
          OrderedMap.getElem?_erase_eq, reduceCtorEq, false_iff, not_and, not_not]
        intro equal
        cases equal
        rw [named]
      · simp only [Option.any_some, named, decide_false, Bool.false_eq_true, if_false, lookup]
        constructor
        · intro equal
          cases equal
          exact ⟨rfl, fun equal => named (congrArg HeadRef.provenance equal)⟩
        · exact fun facts => facts.1
  · have different : (⟨dot, payload.provenance⟩ : HeadRef) ≠ removal :=
      fun equal => same (congrArg HeadRef.dot equal).symm
    split
    · simp [same, different]
    · simp [different]

/-- A live head survives the removals exactly when none of them names it with
its own provenance. -/
theorem getElem?_foldl_applyRemoval_eq_some {removes : List HeadRef} {heads : PathHeads}
    {dot : Dot} :
    (removes.foldl applyRemoval heads)[dot]? = some payload ↔
      heads[dot]? = some payload ∧ ⟨dot, payload.provenance⟩ ∉ removes := by
  induction removes generalizing heads with
  | nil => simp
  | cons removal rest induction =>
    rw [foldl_cons, induction, getElem?_applyRemoval_eq_some, mem_cons, not_or, and_assoc]

theorem checkRemovals_eq_ok_iff {seen : List Dot} {removes : List HeadRef} :
    checkRemovals path seen removes = .ok () ↔
      (removes.map HeadRef.dot).Nodup ∧ ∀ removal, removal ∈ removes → removal.dot ∉ seen := by
  induction removes generalizing seen with
  | nil => simp [checkRemovals]
  | cons removal rest induction =>
    unfold checkRemovals
    by_cases named : removal.dot ∈ seen
    · simp [named]
    · rw [if_neg named, induction]
      simp only [map_cons, nodup_cons, mem_cons, not_or, forall_eq_or_imp,
        mem_map, not_exists, not_and]
      constructor
      · rintro ⟨distinct, fresh⟩
        exact ⟨⟨fun other inRest => (fresh other inRest).1, distinct⟩, named,
          fun other inRest => (fresh other inRest).2⟩
      · rintro ⟨⟨notInRest, distinct⟩, _, fresh⟩
        exact ⟨distinct, fun other inRest => ⟨notInRest other inRest, fresh other inRest⟩⟩

theorem checkOps_eq_ok_iff {paths : List SyncPath} {ops : List RemoteOp} :
    checkOps paths ops = .ok () ↔
      (ops.map RemoteOp.path).Nodup ∧ (∀ op, op ∈ ops → op.path ∉ paths) ∧
        ∀ op, op ∈ ops → (op.removes.map HeadRef.dot).Nodup := by
  induction ops generalizing paths with
  | nil => simp [checkOps]
  | cons op rest induction =>
    unfold checkOps
    by_cases visited : op.path ∈ paths
    · simp [visited]
    · rw [if_neg visited, Fallible.bind_eq_ok_iff]
      simp only [induction, map_cons, nodup_cons,
        mem_cons, not_or, forall_eq_or_imp, mem_map, not_exists, not_and]
      constructor
      · rintro ⟨_, checked, distinct, fresh, distinctLater⟩
        have distinctHere := (checkRemovals_eq_ok_iff.mp checked).1
        exact ⟨⟨fun other inRest => (fresh other inRest).1, distinct⟩,
          ⟨visited, fun other inRest => (fresh other inRest).2⟩, distinctHere, distinctLater⟩
      · rintro ⟨⟨notInRest, distinct⟩, ⟨_, fresh⟩, distinctHere, distinctLater⟩
        have checked : checkRemovals op.path [] op.removes = .ok () :=
          checkRemovals_eq_ok_iff.mpr ⟨distinctHere, fun _ _ => not_mem_nil⟩
        exact ⟨(), checked, distinct,
          fun other inRest => ⟨notInRest other inRest, fresh other inRest⟩, distinctLater⟩

theorem receiveVerified_refused {state : NativeState} {seq : Nat} {ops : List RemoteOp}
    {failure : AuthorError} (refused : checkOps [] ops = .error failure) :
    state.receiveVerified author seq ops = .error failure := by
  rw [receiveVerified, refused]
  rfl

theorem receiveVerified_ok {state next : NativeState} {seq : Nat} {ops : List RemoteOp}
    {dot : Dot} (accepted : state.receiveVerified author seq ops = .ok (dot, next)) :
    checkOps [] ops = .ok () ∧ dot = ⟨author, seq⟩ ∧ next = ⟨state.context.insert author seq,
        ops.foldl (applyOp ⟨author, seq⟩) state.heads⟩ := by
  unfold receiveVerified at accepted
  rcases Fallible.bind_eq_ok_iff.mp accepted with ⟨_, checked, finished⟩
  cases finished
  exact ⟨checked, rfl, rfl⟩

end NativeState

/-- What one remote op leaves of the heads at its path. -/
def RemoteOp.result (op : RemoteOp) (dot : Dot) (heads : PathHeads) : PathHeads :=
  landAt dot op.put (op.removes.foldl NativeState.applyRemoval heads)

theorem RemoteOp.getElem?_result_eq_some {op : RemoteOp} {dot other : Dot} {heads : PathHeads} :
    (op.result dot heads)[other]? = some payload ↔ (dot = other ∧ op.put = some payload) ∨
        (¬(dot = other ∧ op.put.isSome) ∧ heads[other]? = some payload ∧
          ⟨other, payload.provenance⟩ ∉ op.removes) := by
  rw [result, getElem?_landAt]
  by_cases lands : dot = other ∧ op.put.isSome = true
  · simp [lands]
  · rw [if_neg lands, NativeState.getElem?_foldl_applyRemoval_eq_some]
    constructor
    · exact fun kept => Or.inr ⟨lands, kept⟩
    · rintro (⟨same, put⟩ | ⟨_, kept⟩)
      · exact absurd ⟨same, by rw [put]; rfl⟩ lands
      · exact kept

namespace NativeState

section AfterOps

variable (state : NativeState) (context : Context) (dot : Dot) (ops : List RemoteOp)

theorem headAt_ops_of_not_mem (untouched : path ∉ ops.map RemoteOp.path) (other : Dot) :
    headAt ⟨context, ops.foldl (applyOp dot) state.heads⟩ path other = state.headAt path other := by
  have lookup := getElem?_changeEach_of_not_mem RemoteOp.path
    (fun op => op.result dot) ops state.heads untouched
  exact congrArg (fun stored => (stored.getD ∅)[other]?) lookup

theorem headAt_ops_of_mem (distinct : (ops.map RemoteOp.path).Nodup) {op : RemoteOp}
    (member : op ∈ ops) {other : Dot} :
    headAt ⟨context, ops.foldl (applyOp dot) state.heads⟩ op.path other = some payload ↔
      (dot = other ∧ op.put = some payload) ∨
        (¬(dot = other ∧ op.put.isSome) ∧ state.headAt op.path other = some payload ∧
          ⟨other, payload.provenance⟩ ∉ op.removes) := by
  have lookup := getElem?_changeEach_of_mem RemoteOp.path
    (fun op => op.result dot) ops state.heads distinct member
  have atPath : pathHeads ⟨context, ops.foldl (applyOp dot) state.heads⟩ op.path =
      op.result dot (state.pathHeads op.path) :=
    (congrArg (fun stored => stored.getD ∅) lookup).trans (getD_storedHeads _)
  rw [headAt, atPath, RemoteOp.getElem?_result_eq_some]
  rfl

theorem noEmptyPath_ops (distinct : (ops.map RemoteOp.path).Nodup)
    (before : NoEmptyPath state.heads) :
    NoEmptyPath (ops.foldl (applyOp dot) state.heads) :=
  noEmptyPath_changeEach RemoteOp.path (fun op => op.result dot) ops state.heads
    distinct before

end AfterOps

end NativeState

end Yadorilink
