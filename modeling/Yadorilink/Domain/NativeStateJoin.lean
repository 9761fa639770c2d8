import Yadorilink.Domain.NativeStateInvariants

/-! The order behind `join`. A join is decided dot by dot, from what each side
holds there and what each side has observed, so its laws are laws of
`joinedHead` read at every path and dot. -/

namespace Yadorilink

open Std ExtTreeMap Option

/-! ## States that join without a fork -/

/-- No path is stored empty, and the state has observed every head it holds. -/
structure NativeState.Proper (state : NativeState) : Prop where
  noEmptyPath : NoEmptyPath state.heads
  observed : ∀ path dot payload, state.headAt path dot = some payload →
    observedBy state.context dot = true

/-- A dot both states hold at a path has one payload there. -/
def PayloadsAgree (left right : NativeState) : Prop :=
  ∀ path dot payload other, left.headAt path dot = some payload →
    right.headAt path dot = some other → payload = other

theorem PayloadsAgree.refl (state : NativeState) : PayloadsAgree state state := by
  intro path dot payload other first second
  exact Option.some.inj (first.symm.trans second)

variable {left right : NativeState}

theorem PayloadsAgree.symm (agree : PayloadsAgree left right) : PayloadsAgree right left := by
  intro path dot payload other first second
  exact (agree path dot other payload second first).symm

theorem payloadsAgree_of_join {joined : NativeState} (succeeded : join left right = .ok joined) :
    PayloadsAgree left right := by
  intro path dot payload other leftLive rightLive
  rcases (join_ok succeeded).2 with ⟨paths, visited, loop⟩
  have stored : path ∈ left.heads.keys := by
    rw [mem_keys, mem_iff_isSome_getElem?]
    rw [NativeState.headAt, NativeState.pathHeads] at leftLive
    cases atPath : left.heads[path]? with
    | none => simp [atPath] at leftLive
    | some heads => rfl
  rcases (OrderedMap.getElem?_insertEach loop path).1 ((visited path).mpr (.inl stored)) with
    ⟨choice, decided, _⟩
  rcases joinStored_ok decided with ⟨heads, joinedPath, _⟩
  simp only [joinPath] at joinedPath
  rcases Fallible.bind_eq_ok_iff.mp joinedPath with ⟨afterLeft, leftLoop, _⟩
  rw [NativeState.headAt, NativeState.pathHeads] at leftLive rightLive
  rcases (OrderedMap.getElem?_insertEach leftLoop dot).1
    ((OrderedMap.mem_keys_iff _ _).mpr ⟨payload, leftLive⟩) with ⟨kept, decidedLeft, _⟩
  simp only [joinLeft, leftLive, rightLive] at decidedLeft
  by_contra different
  rw [if_pos (Ne.symm different)] at decidedLeft
  cases decidedLeft

variable {state : NativeState}

namespace NativeState

theorem Valid.proper (valid : state.Valid) : state.Proper :=
  ⟨valid.noEmptyPath, fun path dot payload live => (valid.observed path dot payload live).2⟩

theorem ext_headAt {first second : NativeState} (firstStored : NoEmptyPath first.heads)
    (secondStored : NoEmptyPath second.heads)
    (contexts : ∀ author : AuthorId, first.context[author]? = second.context[author]?)
    (heads : ∀ path dot, first.headAt path dot = second.headAt path dot) : first = second := by
  have samePath : ∀ path : SyncPath, first.heads[path]? = second.heads[path]? := by
    intro path
    have sameHeads : first.pathHeads path = second.pathHeads path :=
      ext_getElem? fun {dot} => heads path dot
    rw [pathHeads, pathHeads] at sameHeads
    cases atFirst : first.heads[path]? with
    | none =>
      cases atSecond : second.heads[path]? with
      | none => rfl
      | some stored =>
        simp only [atFirst, atSecond, getD_none, getD_some] at sameHeads
        have notEmpty := secondStored path stored atSecond
        simp [← sameHeads] at notEmpty
    | some stored =>
      cases atSecond : second.heads[path]? with
      | none =>
        simp only [atFirst, atSecond, getD_none, getD_some] at sameHeads
        have notEmpty := firstStored path stored atFirst
        simp [sameHeads] at notEmpty
      | some other =>
        simp only [atFirst, atSecond, getD_some] at sameHeads
        rw [sameHeads]
  have sameContext : first.context = second.context :=
    ext_getElem? fun {author} => contexts author
  have sameMap : first.heads = second.heads := ext_getElem? fun {path} => samePath path
  cases first
  cases second
  simp only at sameContext sameMap
  rw [sameContext, sameMap]

end NativeState

/-! ## What one author and one dot decide -/

theorem maxSeq_comm (first second : Option Nat) : max first second = max second first := by
  cases first <;> cases second <;> simp [Nat.max_comm]

theorem maxSeq_assoc (first second third : Option Nat) :
    max (max first second) third = max first (max second third) := by
  cases first <;> cases second <;> cases third <;> simp [Nat.max_assoc]

section JoinedHead

variable {first second third : Option HeadPayload} {seenFirst seenSecond seenThird : Bool}

theorem joinedHead_comm (agree : ∀ payload other, first = some payload →
      second = some other → payload = other) :
    joinedHead first second seenFirst seenSecond =
      joinedHead second first seenSecond seenFirst := by
  cases first with
  | none => cases second <;> rfl
  | some payload =>
    cases second with
    | none => rfl
    | some other => simp [joinedHead, agree payload other rfl rfl]

theorem joinedHead_self (held : Option HeadPayload) (seen : Bool) :
    joinedHead held held seen seen = held := by
  cases held <;> rfl

/-- A head is kept by presence on both sides or by absence from one context, so
how three sides are grouped makes no difference once each has observed what it
holds. -/
theorem joinedHead_assoc (observedFirst : first.isSome → seenFirst = true)
    (observedSecond : second.isSome → seenSecond = true)
    (observedThird : third.isSome → seenThird = true) :
    joinedHead first (joinedHead second third seenSecond seenThird) seenFirst
        (seenSecond || seenThird) =
      joinedHead (joinedHead first second seenFirst seenSecond) third
        (seenFirst || seenSecond) seenThird := by
  cases first <;> cases second <;> cases third <;> cases seenFirst <;> cases seenSecond <;>
    cases seenThird <;> simp_all [joinedHead]

theorem joinedHead_mem {payload : HeadPayload}
    (kept : joinedHead first second seenFirst seenSecond = some payload) :
    first = some payload ∨ second = some payload := by
  cases first <;> cases second <;> cases seenFirst <;> cases seenSecond <;>
    simp_all [joinedHead]

end JoinedHead

/-! ## Joining twice -/

theorem proper_join {joined : NativeState} (leftProper : left.Proper) (rightProper : right.Proper)
    (succeeded : join left right = .ok joined) : joined.Proper where
  noEmptyPath := noEmptyPath_join succeeded
  observed path dot payload live := by
    rw [headAt_join succeeded] at live
    rw [observedBy_join succeeded]
    rcases joinedHead_mem live with fromLeft | fromRight
    · simp [leftProper.observed path dot payload fromLeft]
    · simp [rightProper.observed path dot payload fromRight]

theorem payloadsAgree_join {other joined : NativeState} (withLeft : PayloadsAgree left other)
    (withRight : PayloadsAgree right other) (succeeded : join left right = .ok joined) :
    PayloadsAgree joined other := by
  intro path dot payload otherPayload live otherLive
  rw [headAt_join succeeded] at live
  rcases joinedHead_mem live with fromLeft | fromRight
  · exact withLeft path dot payload otherPayload fromLeft otherLive
  · exact withRight path dot payload otherPayload fromRight otherLive

theorem join_comm (agree : PayloadsAgree left right) : join left right = join right left := by
  rcases join_total agree with ⟨joined, succeeded⟩
  rcases join_total agree.symm with ⟨swapped, swappedSucceeded⟩
  rw [succeeded, swappedSucceeded]
  congr 1
  apply NativeState.ext_headAt (noEmptyPath_join succeeded) (noEmptyPath_join swappedSucceeded)
  · intro author
    rw [(join_ok succeeded).1 author, (join_ok swappedSucceeded).1 author]
    exact maxSeq_comm _ _
  · intro path dot
    rw [headAt_join succeeded, headAt_join swappedSucceeded]
    exact joinedHead_comm fun payload other => agree path dot payload other

theorem join_self (proper : state.Proper) : join state state = .ok state := by
  rcases join_total (PayloadsAgree.refl state) with ⟨joined, succeeded⟩
  rw [succeeded]
  congr 1
  apply NativeState.ext_headAt (noEmptyPath_join succeeded) proper.noEmptyPath
  · intro author
    rw [(join_ok succeeded).1 author, Std.max_self]
  · intro path dot
    rw [headAt_join succeeded, joinedHead_self]

theorem NativeState.Proper.isSome_observed (proper : state.Proper) (path : SyncPath) (dot : Dot)
    (live : (state.headAt path dot).isSome) : observedBy state.context dot = true := by
  rcases isSome_iff_exists.mp live with ⟨payload, held⟩
  exact proper.observed path dot payload held

theorem join_assoc {first second third firstSecond secondThird : NativeState}
    (firstProper : first.Proper) (secondProper : second.Proper) (thirdProper : third.Proper)
    (agreeFirst : PayloadsAgree first second) (agreeSecond : PayloadsAgree second third)
    (agreeThird : PayloadsAgree first third)
    (joinedFirst : join first second = .ok firstSecond)
    (joinedSecond : join second third = .ok secondThird) :
    ∃ all, join first secondThird = .ok all ∧ join firstSecond third = .ok all := by
  have agreeRight : PayloadsAgree first secondThird :=
    (payloadsAgree_join agreeFirst.symm agreeThird.symm joinedSecond).symm
  have agreeLeft : PayloadsAgree firstSecond third :=
    payloadsAgree_join agreeThird agreeSecond joinedFirst
  rcases join_total agreeRight with ⟨right, rightJoined⟩
  rcases join_total agreeLeft with ⟨left, leftJoined⟩
  refine ⟨right, rightJoined, ?_⟩
  rw [leftJoined]
  congr 1
  apply NativeState.ext_headAt (noEmptyPath_join leftJoined) (noEmptyPath_join rightJoined)
  · intro author
    rw [(join_ok leftJoined).1, (join_ok rightJoined).1, (join_ok joinedFirst).1,
      (join_ok joinedSecond).1]
    exact maxSeq_assoc _ _ _
  · intro path dot
    rw [headAt_join leftJoined, headAt_join rightJoined, headAt_join joinedFirst,
      headAt_join joinedSecond, observedBy_join joinedFirst, observedBy_join joinedSecond]
    exact (joinedHead_assoc (firstProper.isSome_observed path dot)
      (secondProper.isSome_observed path dot) (thirdProper.isSome_observed path dot)).symm

/-! ## The order -/

/-- `right` lies above `left` when joining `left` into it changes nothing. -/
def JoinBelow (left right : NativeState) : Prop := join left right = .ok right

theorem joinBelow_join {joined : NativeState} (leftProper : left.Proper)
    (rightProper : right.Proper) (agree : PayloadsAgree left right)
    (succeeded : join left right = .ok joined) : JoinBelow left joined := by
  rcases join_assoc leftProper leftProper rightProper (PayloadsAgree.refl left) agree agree
    (join_self leftProper) succeeded with ⟨all, grouped, same⟩
  rw [succeeded] at same
  cases same
  exact grouped

/-- Proper states that agree on payloads form a join semilattice: joins always
succeed, commute, associate and are idempotent, keep the conditions they rest
on, and are least upper bounds. -/
theorem join_semilattice (first second third : NativeState) (firstProper : first.Proper)
    (secondProper : second.Proper) (thirdProper : third.Proper)
    (agreeFirst : PayloadsAgree first second) (agreeSecond : PayloadsAgree second third)
    (agreeThird : PayloadsAgree first third) :
    ∃ joined, join first second = .ok joined ∧ join second first = .ok joined ∧
      join first first = .ok first ∧
      (∃ others all, join second third = .ok others ∧ join first others = .ok all ∧
        join joined third = .ok all) ∧
      joined.Proper ∧ PayloadsAgree first joined ∧ PayloadsAgree second joined ∧
      PayloadsAgree third joined ∧
      (∀ author : AuthorId, joined.context[author]? =
        max first.context[author]? second.context[author]?) ∧
      JoinBelow first joined ∧ JoinBelow second joined ∧
      (JoinBelow first third → JoinBelow second third → JoinBelow joined third) := by
  rcases join_total agreeFirst with ⟨joined, succeeded⟩
  rcases join_total agreeSecond with ⟨others, otherSucceeded⟩
  have swapped : join second first = .ok joined := by rw [← succeeded, join_comm agreeFirst]
  have grouped := join_assoc firstProper secondProper thirdProper agreeFirst agreeSecond
    agreeThird succeeded otherSucceeded
  rcases grouped with ⟨all, right, left⟩
  refine ⟨joined, succeeded, swapped, join_self firstProper,
    ⟨others, all, otherSucceeded, right, left⟩, proper_join firstProper secondProper succeeded,
    (payloadsAgree_join (PayloadsAgree.refl first) agreeFirst.symm succeeded).symm,
    (payloadsAgree_join agreeFirst (PayloadsAgree.refl second) succeeded).symm,
    (payloadsAgree_join agreeThird agreeSecond succeeded).symm, (join_ok succeeded).1,
    joinBelow_join firstProper secondProper agreeFirst succeeded,
    joinBelow_join secondProper firstProper agreeFirst.symm swapped, ?_⟩
  intro aboveFirst aboveSecond
  rw [JoinBelow] at aboveFirst aboveSecond ⊢
  rw [aboveSecond] at otherSucceeded
  cases otherSucceeded
  rw [left, ← right, aboveFirst]

namespace SampleJoin

def head (author : AuthorId) (version : BitVec 256) : PathHeads :=
  ExtTreeMap.insert ∅ ⟨author, 1⟩ ⟨⟨version⟩, ⟨2⟩⟩

def written : NativeState :=
  ⟨ExtTreeMap.insert ∅ ⟨"laptop", 1⟩ 1,
    ExtTreeMap.insert ∅ "notes" (head ⟨"laptop", 1⟩ 7)⟩

def replaced : NativeState :=
  ⟨(ExtTreeMap.insert ∅ ⟨"laptop", 1⟩ 1).insert ⟨"phone", 1⟩ 1,
    (ExtTreeMap.insert ∅ "notes" (head ⟨"phone", 1⟩ 8)).insert "todo" (head ⟨"phone", 1⟩ 9)⟩

/-- A replica that knows the phone alone and removed what it wrote second. -/
def removed : NativeState :=
  ⟨ExtTreeMap.insert ∅ ⟨"phone", 1⟩ 1,
    ExtTreeMap.insert ∅ "notes" (head ⟨"phone", 1⟩ 8)⟩

theorem proper_of_check (passed : state.checkInvariants = .ok ()) : state.Proper :=
  ((NativeState.checkInvariants_eq_ok_iff state).mp passed).proper

theorem agree_of_check (passed : (join left right).isOk = true) : PayloadsAgree left right := by
  cases succeeded : join left right with
  | error fork => simp [succeeded, Except.isOk, Except.toBool] at passed
  | ok joined => exact payloadsAgree_of_join succeeded

end SampleJoin

theorem join_semilattice_written :
    ∃ joined, join SampleJoin.written SampleJoin.replaced = .ok joined ∧
      join SampleJoin.replaced SampleJoin.written = .ok joined ∧
      ∃ others all, join SampleJoin.replaced SampleJoin.removed = .ok others ∧
        join SampleJoin.written others = .ok all ∧
        join joined SampleJoin.removed = .ok all := by
  rcases join_semilattice SampleJoin.written SampleJoin.replaced SampleJoin.removed
    (SampleJoin.proper_of_check (by decide))
    (SampleJoin.proper_of_check (by decide))
    (SampleJoin.proper_of_check (by decide))
    (SampleJoin.agree_of_check (by decide))
    (SampleJoin.agree_of_check (by decide))
    (SampleJoin.agree_of_check (by decide)) with
    ⟨joined, succeeded, swapped, _, grouped, _⟩
  exact ⟨joined, succeeded, swapped, grouped⟩

end Yadorilink
