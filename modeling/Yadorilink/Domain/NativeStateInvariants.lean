import Yadorilink.Domain.NativeStateHeads

/-! What passing `checkInvariants` means, and what a join holds. The check is
an executable loop over the stored paths; `Valid` says the same thing about
single heads. -/

namespace Yadorilink

open Std OrderedMap Fallible ExtTreeMap Option

namespace NativeState

/-! ## Counting heads per author -/

private theorem getD_foldl_count (dots : List Dot) (counts : ExtTreeMap AuthorId Nat)
    (author : AuthorId) :
    ((dots.foldl (fun counts dot =>
      counts.insert dot.author ((counts[dot.author]?).getD 0 + 1)) counts)[author]?).getD 0 =
      (counts[author]?).getD 0 + dots.countP fun dot => dot.author = author := by
  induction dots generalizing counts with
  | nil => simp
  | cons dot rest induction =>
    rw [List.foldl_cons, induction, getElem?_insert_eq, List.countP_cons]
    by_cases same : dot.author = author
    · subst same
      simp only [if_true, getD_some, decide_true]
      omega
    · simp [same]

theorem getD_perAuthor (dots : List Dot) (author : AuthorId) :
    ((perAuthor dots)[author]?).getD 0 = dots.countP fun dot => dot.author = author := by
  rw [perAuthor, getD_foldl_count]
  simp

theorem find?_perAuthor_eq_none_iff (dots : List Dot) :
    (perAuthor dots).toList.find? (fun entry => entry.2 > maxSelfHeads) = none ↔
      ∀ author, (dots.countP fun dot => dot.author = author) ≤ maxSelfHeads := by
  rw [List.find?_eq_none]
  constructor
  · intro noneBeyond author
    rw [← getD_perAuthor]
    cases lookup : (perAuthor dots)[author]? with
    | none => exact Nat.zero_le _
    | some count =>
      have member : (author, count) ∈ (perAuthor dots).toList :=
        mem_toList_iff_getElem?_eq_some.mpr lookup
      simpa using noneBeyond (author, count) member
  · rintro bound ⟨author, count⟩ member
    have lookup := mem_toList_iff_getElem?_eq_some.mp member
    have within := bound author
    rw [← getD_perAuthor, lookup] at within
    simpa using within

/-! ## The checked invariants -/

theorem checkDot_eq_ok_iff (context : Context) (path : SyncPath) (dot : Dot) :
    checkDot context path dot = .ok () ↔ dot.seq ≠ 0 ∧ observedBy context dot = true := by
  unfold checkDot observedBy
  by_cases zero : dot.seq = 0
  · simp [zero]
  · cases context[dot.author]? with
    | none => simp [zero]
    | some seq =>
      by_cases beyond : seq < dot.seq
      · simp [zero, beyond]
      · simp [zero, beyond, Nat.le_of_not_lt beyond]

theorem checkPath_eq_ok_iff (context : Context) (path : SyncPath) (heads : PathHeads) :
    checkPath context path heads = .ok () ↔ heads.isEmpty = false ∧
      (∀ author, (heads.keys.countP fun dot => dot.author = author) ≤ maxSelfHeads) ∧
      ∀ dot, dot ∈ heads.keys → dot.seq ≠ 0 ∧ observedBy context dot = true := by
  unfold checkPath
  by_cases empty : heads.isEmpty = true
  · simp [empty]
  · rw [if_neg empty, ← find?_perAuthor_eq_none_iff]
    cases (perAuthor heads.keys).toList.find? fun entry => entry.2 > maxSelfHeads with
    | some entry => simp
    | none =>
      simp only [true_and]
      refine forM_eq_ok_iff.trans ?_
      simp only [checkDot_eq_ok_iff, Bool.not_eq_true] at empty ⊢
      exact ⟨fun passed => ⟨empty, passed⟩, fun facts => facts.2⟩

theorem checkPath_congr {first second : Context} {path : SyncPath} {heads : PathHeads}
    (same : ∀ dot, dot ∈ heads.keys → first[dot.author]? = second[dot.author]?) :
    checkPath first path heads = checkPath second path heads := by
  have dots : heads.keys.forM (checkDot first path) = heads.keys.forM (checkDot second path) := by
    apply forM_congr
    intro dot member
    simp only [checkDot, same dot member]
  simp only [checkPath, dots]

/-- The invariants `checkInvariants` enforces, head by head. -/
structure Valid (state : NativeState) : Prop where
  noEmptyPath : NoEmptyPath state.heads
  ownBound : ∀ path author,
    ((state.dotsAt path).countP fun dot => dot.author = author) ≤ maxSelfHeads
  observed : ∀ path dot payload, state.headAt path dot = some payload →
    dot.seq ≠ 0 ∧ observedBy state.context dot = true

theorem checkInvariants_eq_ok_iff (state : NativeState) :
    state.checkInvariants = .ok () ↔ state.Valid := by
  unfold checkInvariants
  refine forM_eq_ok_iff.trans ?_
  simp only [checkPath_eq_ok_iff, Prod.forall, mem_toList_iff_getElem?_eq_some]
  constructor
  · intro passed
    refine ⟨fun path stored isStored => (passed path stored isStored).1, ?_, ?_⟩
    · intro path author
      unfold dotsAt pathHeads
      cases stored : state.heads[path]? with
      | none => simp [keys_eq_nil_iff.mpr]
      | some heads => exact (passed path heads stored).2.1 author
    · intro path dot payload live
      unfold headAt pathHeads at live
      cases stored : state.heads[path]? with
      | none => simp [stored] at live
      | some heads =>
        rw [stored, getD_some] at live
        exact (passed path heads stored).2.2 dot
          ((mem_keys_iff heads dot).mpr ⟨payload, live⟩)
  · intro valid path heads stored
    have atPath : state.pathHeads path = heads := by rw [pathHeads, stored, getD_some]
    refine ⟨valid.noEmptyPath path heads stored, ?_, ?_⟩
    · intro author
      rw [← atPath]
      exact valid.ownBound path author
    · intro dot member
      rcases (mem_keys_iff heads dot).mp member with ⟨payload, live⟩
      exact valid.observed path dot payload (by rw [headAt, atPath]; exact live)

theorem valid_new : new.Valid := by
  rw [← checkInvariants_eq_ok_iff]
  decide

end NativeState

/-! ## Join -/

theorem getElem?_raiseContext (context : Context) (author other : AuthorId) (seq : Nat) :
    (raiseContext context author seq)[other]? =
      if author = other then max context[other]? (some seq) else context[other]? := by
  unfold raiseContext
  rw [getElem?_insert_eq]
  by_cases same : author = other
  · subst same
    cases context[author]? with
    | none => simp
    | some previous => simp
  · simp [same]

theorem getElem?_foldl_raiseContext (left right : Context) (author : AuthorId) :
    (right.toList.foldl (fun context entry => raiseContext context entry.1 entry.2)
      left)[author]? = max left[author]? right[author]? := by
  refine (view_foldl_toList (fun (context : Context) author => context[author]?)
    (fun seq current => max current (some seq))
    (fun context entry key => getElem?_raiseContext context entry.1 key entry.2)
    right left author).trans ?_
  cases right[author]? <;> simp

/-- The payload a join keeps at a dot, given what each side holds there and
whether the other side has observed it. -/
def joinedHead (left right : Option HeadPayload) (seenLeft seenRight : Bool) :
    Option HeadPayload :=
  match left, right with
  | some payload, some _ => some payload
  | some payload, none => if seenRight then none else some payload
  | none, some payload => if seenLeft then none else some payload
  | none, none => none

section JoinPath

variable {left right : Option PathHeads}

theorem getElem?_joinPath {path : SyncPath} {leftContext rightContext : Context}
    {joined : PathHeads}
    (succeeded : joinPath path left right leftContext rightContext = .ok joined) (dot : Dot) :
    joined[dot]? = joinedHead (left.getD ∅)[dot]? (right.getD ∅)[dot]?
      (observedBy leftContext dot) (observedBy rightContext dot) := by
  simp only [joinPath] at succeeded
  rcases bind_eq_ok_iff.mp succeeded with ⟨afterLeft, leftLoop, rightLoop⟩
  have fromLeft := getElem?_insertEach leftLoop dot
  have fromRight := getElem?_insertEach rightLoop dot
  simp only [mem_keys_iff] at fromLeft fromRight
  -- What the first loop leaves: the left heads that survive.
  have leftKept : afterLeft[dot]? = (left.getD ∅)[dot]?.bind fun payload =>
      if (right.getD ∅)[dot]?.isNone && observedBy rightContext dot then none
      else some payload := by
    cases leftLookup : (left.getD ∅)[dot]? with
    | none =>
      rw [fromLeft.2 (by simp [leftLookup])]
      simp
    | some payload =>
      rcases fromLeft.1 ⟨payload, leftLookup⟩ with ⟨choice, decided, lookup⟩
      simp only [joinLeft, leftLookup] at decided
      rw [lookup]
      cases rightLookup : (right.getD ∅)[dot]? with
      | some other =>
        simp only [rightLookup] at decided
        split at decided
        · cases decided
        · cases decided
          simp
      | none =>
        simp only [rightLookup] at decided
        split at decided
        · rename_i unseen
          cases decided
          simp at unseen
          simp [unseen]
        · rename_i seen
          cases decided
          simp at seen
          simp [seen]
  cases rightLookup : (right.getD ∅)[dot]? with
  | none =>
    rw [fromRight.2 (by simp [rightLookup]), leftKept]
    cases (left.getD ∅)[dot]? <;> simp [joinedHead, rightLookup]
  | some other =>
    rcases fromRight.1 ⟨other, rightLookup⟩ with ⟨choice, decided, lookup⟩
    rw [lookup, leftKept]
    cases leftLookup : (left.getD ∅)[dot]? with
    | some payload =>
      have contained : (left.getD ∅).contains dot = true := by
        rw [contains_iff_mem, mem_iff_isSome_getElem?, leftLookup]
        rfl
      simp only [joinRight, contained] at decided
      cases decided
      simp [joinedHead, rightLookup]
    | none =>
      have absent : (left.getD ∅).contains dot = false := by
        rw [← Bool.not_eq_true, contains_iff_mem,
          mem_iff_isSome_getElem?, leftLookup]
        simp
      simp only [joinRight, absent, Bool.not_false, Bool.true_and, rightLookup] at decided
      cases seen : observedBy leftContext dot with
      | true =>
        simp only [seen] at decided
        cases decided
        simp [joinedHead]
      | false =>
        simp only [seen] at decided
        cases decided
        simp [joinedHead]

theorem joinPath_total (path : SyncPath) (leftContext rightContext : Context)
    (agree : ∀ (dot : Dot) (payload other : HeadPayload), (left.getD ∅)[dot]? = some payload →
      (right.getD ∅)[dot]? = some other → payload = other) :
    ∃ joined, joinPath path left right leftContext rightContext = .ok joined := by
  simp only [joinPath]
  have leftDecided : ∀ dot, dot ∈ (left.getD ∅).keys →
      ∃ choice, joinLeft path (left.getD ∅) (right.getD ∅) rightContext dot = .ok choice := by
    intro dot member
    rcases (mem_keys_iff _ dot).mp member with ⟨payload, leftLookup⟩
    simp only [joinLeft, leftLookup]
    cases rightLookup : (right.getD ∅)[dot]? with
    | none =>
      dsimp only
      split
      · exact ⟨_, rfl⟩
      · exact ⟨_, rfl⟩
    | some other =>
      have same := agree dot payload other leftLookup rightLookup
      subst same
      exact ⟨some payload, by simp⟩
  have rightDecided : ∀ dot, dot ∈ (right.getD ∅).keys →
      ∃ choice, joinRight (left.getD ∅) (right.getD ∅) leftContext dot = .ok choice := by
    intro dot _
    unfold joinRight
    split
    · exact ⟨_, rfl⟩
    · exact ⟨_, rfl⟩
  rcases insertEach_total _ _ ∅ leftDecided with ⟨afterLeft, leftLoop⟩
  rcases insertEach_total _ _ afterLeft rightDecided with ⟨joined, rightLoop⟩
  exact ⟨joined, bind_eq_ok_iff.mpr ⟨afterLeft, leftLoop, rightLoop⟩⟩

end JoinPath

/-- What the loop over the paths stores at one of them. -/
def joinStored (left right : NativeState) (path : SyncPath) :
    Except Fork (Option PathHeads) := do
  let joined ← joinPath path left.heads[path]? right.heads[path]? left.context right.context
  return if joined.isEmpty then none else some joined

theorem join_ok {left right joined : NativeState} (succeeded : join left right = .ok joined) :
    (∀ author : AuthorId, joined.context[author]? =
      max left.context[author]? right.context[author]?) ∧
    ∃ paths : List SyncPath,
      (∀ path, path ∈ paths ↔ path ∈ left.heads.keys ∨ path ∈ right.heads.keys) ∧
      insertEach (joinStored left right) paths ∅ = .ok joined.heads := by
  simp only [join] at succeeded
  rcases bind_eq_ok_iff.mp succeeded with ⟨heads, loop, finished⟩
  cases finished
  refine ⟨getElem?_foldl_raiseContext left.context right.context, _, ?_, loop⟩
  intro path
  rw [ExtTreeSet.mem_toList, ExtTreeSet.mem_ofList, List.contains_iff_mem, List.mem_append]

theorem joinStored_ok {left right : NativeState} {path : SyncPath} {choice : Option PathHeads}
    (decided : joinStored left right path = .ok choice) :
    ∃ joined, joinPath path left.heads[path]? right.heads[path]? left.context right.context =
      .ok joined ∧ choice = storedHeads joined := by
  unfold joinStored at decided
  rcases bind_eq_ok_iff.mp decided with ⟨joined, joinedPath, finished⟩
  cases finished
  exact ⟨joined, joinedPath, rfl⟩

theorem headAt_join {left right joined : NativeState} (succeeded : join left right = .ok joined)
    (path : SyncPath) (dot : Dot) :
    joined.headAt path dot = joinedHead (left.headAt path dot) (right.headAt path dot)
      (observedBy left.context dot) (observedBy right.context dot) := by
  rcases (join_ok succeeded).2 with ⟨paths, visited, loop⟩
  have lookup := getElem?_insertEach loop path
  unfold NativeState.headAt NativeState.pathHeads
  by_cases member : path ∈ paths
  · rcases lookup.1 member with ⟨choice, decided, stored⟩
    rcases joinStored_ok decided with ⟨joinedHeads, joinedPath, isStored⟩
    rw [stored, isStored, ← getElem?_joinPath joinedPath dot]
    rw [getElem?_empty]
    cases kept : storedHeads joinedHeads with
    | none => rw [← getD_storedHeads joinedHeads, kept]; rfl
    | some heads => rw [← getD_storedHeads joinedHeads, kept]; rfl
  · rw [lookup.2 member]
    have absent := (visited path).not.mp member
    rw [not_or] at absent
    have leftAbsent : left.heads[path]? = none := by
      simpa [mem_keys] using absent.1
    have rightAbsent : right.heads[path]? = none := by
      simpa [mem_keys] using absent.2
    simp [leftAbsent, rightAbsent, joinedHead]

theorem noEmptyPath_join {left right joined : NativeState}
    (succeeded : join left right = .ok joined) : NoEmptyPath joined.heads := by
  rcases (join_ok succeeded).2 with ⟨paths, _, loop⟩
  intro path heads isStored
  have lookup := getElem?_insertEach loop path
  by_cases member : path ∈ paths
  · rcases lookup.1 member with ⟨choice, decided, stored⟩
    rcases joinStored_ok decided with ⟨joinedHeads, _, rfl⟩
    rw [stored, getElem?_empty] at isStored
    cases kept : storedHeads joinedHeads with
    | none => simp [kept] at isStored
    | some stored =>
      rw [kept] at isStored
      cases isStored
      have facts := storedHeads_eq_some kept
      exact facts.1 ▸ facts.2
  · rw [lookup.2 member, getElem?_empty] at isStored
    cases isStored

theorem join_total {left right : NativeState}
    (agree : ∀ path dot payload other, left.headAt path dot = some payload →
      right.headAt path dot = some other → payload = other) :
    ∃ joined, join left right = .ok joined := by
  have decided : ∀ path, ∃ choice, joinStored left right path = .ok choice := by
    intro path
    rcases joinPath_total path left.context right.context (agree path) with
      ⟨joined, joinedPath⟩
    exact ⟨storedHeads joined, bind_eq_ok_iff.mpr ⟨joined, joinedPath, rfl⟩⟩
  rcases insertEach_total (joinStored left right)
    (ExtTreeSet.ofList (left.heads.keys ++ right.heads.keys) compare).toList ∅
    (fun path _ => decided path) with ⟨heads, loop⟩
  exact ⟨_, bind_eq_ok_iff.mpr ⟨heads, loop, rfl⟩⟩

theorem observedBy_join {left right joined : NativeState}
    (succeeded : join left right = .ok joined) (dot : Dot) :
    observedBy joined.context dot =
      (observedBy left.context dot || observedBy right.context dot) := by
  unfold observedBy
  rw [(join_ok succeeded).1 dot.author]
  cases left.context[dot.author]? with
  | none => simp
  | some leftSeq =>
    cases right.context[dot.author]? with
    | none => simp
    | some rightSeq =>
      have below : ∀ seq first second : Nat,
          seq ≤ max first second ↔ seq ≤ first ∨ seq ≤ second := by omega
      simp only [max_some_some, below, Bool.decide_or]

end Yadorilink
