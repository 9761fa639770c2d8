import Yadorilink.Domain.NativeStateInvariants
import Yadorilink.Foundation.ObservedRemove
import Yadorilink.Oracle.Semantics

/-! Replicas that author mutations on their own state and join states of each
other, at any later moment and in any order. The run keeps every state any
replica has had, and the mutations that were accepted; both only serve to say
which joins are possible and what the states mean. -/

namespace Yadorilink.Replicas

open Std

/-! ## Runs -/

/-- An accepted mutation: the dot it issued and the edits it made. -/
structure Mutation where
  dot : Dot
  edits : List PathEdit
deriving DecidableEq

/-- One moment of a run. A replica is named by the author id it owns. -/
structure World where
  stateOf : AuthorId → NativeState
  past : List NativeState
  mutations : List Mutation

inductive Action where
  /-- The replica applies its own mutation. -/
  | author (replica : AuthorId) (edits : List PathEdit)
  /-- The replica joins the state at this position of the past. -/
  | join (replica : AuthorId) (source : Nat)

namespace World

def start : World := ⟨fun _ => .new, [.new], []⟩

def moveTo (world : World) (replica : AuthorId) (next : NativeState)
    (mutations : List Mutation) : World :=
  ⟨Function.update world.stateOf replica next, next :: world.past, mutations⟩

/-- A refused mutation and a failed join change nothing. -/
def perform (world : World) : Action → World
  | .author replica edits =>
    match (world.stateOf replica).author replica edits with
    | .error _ => world
    | .ok (dot, next) => world.moveTo replica next (⟨dot, edits⟩ :: world.mutations)
  | .join replica source =>
    match world.past[source]? with
    | none => world
    | some state =>
      match Yadorilink.join (world.stateOf replica) state with
      | .error _ => world
      | .ok joined => world.moveTo replica joined world.mutations

end World

def run (actions : List Action) : World := actions.foldl World.perform World.start

/-! ## What a run means to the oracle -/

/-- A mutation as a change of the oracle: its dot is its identity, and the
observed dots of an edit are the basis of its operation. -/
def Mutation.change (mutation : Mutation) : Oracle.Change Dot VersionHash where
  id := mutation.dot
  ops := mutation.edits.map fun edit => {
    path := edit.path
    effect := match edit.put with
      | some payload => .put payload.version
      | none => .delete
    basis := edit.observed }

namespace World

def changes (world : World) : Oracle.Universe Dot VersionHash :=
  ExtTreeMap.ofList
    (world.mutations.map fun mutation => (mutation.dot, mutation.change)) compare

def historyOf (world : World) (context : Context) : Oracle.History Dot :=
  ExtTreeSet.ofList
    ((world.mutations.map Mutation.dot).filter (observedBy context)) compare

end World

/-! ## Liveness over the accepted mutations -/

/-- Mutations put payloads and remove the dots they observed. -/
def effects : ObservedRemove.Effects Mutation SyncPath Dot HeadPayload where
  key := Mutation.dot
  puts mutation path payload :=
    ∃ edit, edit ∈ mutation.edits ∧ edit.path = path ∧ edit.put = some payload
  removes mutation path dot :=
    ∃ edit, edit ∈ mutation.edits ∧ edit.path = path ∧ dot ∈ edit.observed

section Edits

variable {mutation : Mutation} (distinct : (mutation.edits.map PathEdit.path).Nodup)
  {edit : PathEdit} (member : edit ∈ mutation.edits)

include distinct member

private theorem edit_unique {other : PathEdit} (otherMember : other ∈ mutation.edits)
    (samePath : other.path = edit.path) : other = edit :=
  List.inj_on_of_nodup_map distinct otherMember member samePath

theorem puts_iff_of_mem {payload : HeadPayload} :
    effects.puts mutation edit.path payload ↔ edit.put = some payload := by
  constructor
  · rintro ⟨other, otherMember, samePath, puts⟩
    rw [← edit_unique distinct member otherMember samePath]
    exact puts
  · exact fun puts => ⟨edit, member, rfl, puts⟩

theorem removes_iff_of_mem {dot : Dot} :
    effects.removes mutation edit.path dot ↔ dot ∈ edit.observed := by
  constructor
  · rintro ⟨other, otherMember, samePath, observed⟩
    rw [← edit_unique distinct member otherMember samePath]
    exact observed
  · exact fun observed => ⟨edit, member, rfl, observed⟩

end Edits

/-- The accepted mutations that `context` observes. -/
def World.known (world : World) (context : Context) : Set Mutation :=
  { mutation | mutation ∈ world.mutations ∧ observedBy context mutation.dot = true }

/-- How far the author has come, zero before its first mutation. -/
def seqIn (context : Context) (author : AuthorId) : Nat := (context[author]?).getD 0

@[simp] theorem seqIn_insert_self (context : Context) (author : AuthorId) (seq : Nat) :
    seqIn (context.insert author seq) author = seq := by
  simp [seqIn]

theorem observedBy_iff_le_seqIn (context : Context) {dot : Dot} (issued : dot.seq ≠ 0) :
    observedBy context dot = true ↔ dot.seq ≤ seqIn context dot.author := by
  unfold observedBy seqIn
  cases context[dot.author]? with
  | none => simpa using issued
  | some seq => simp

/-! ## States that stand for events -/

section Standing

variable {Event : Type} {meaning : ObservedRemove.Effects Event SyncPath Dot HeadPayload}
  {events : Set Event}

/-- The events whose dots `context` observes. -/
def knownTo (meaning : ObservedRemove.Effects Event SyncPath Dot HeadPayload) (events : Set Event)
    (context : Context) : Set Event :=
  { event | event ∈ events ∧ observedBy context (meaning.key event) = true }

/-- The heads of `state` are the live puts of the events its context observes. -/
structure Stands (meaning : ObservedRemove.Effects Event SyncPath Dot HeadPayload)
    (events : Set Event) (state : NativeState) : Prop where
  closed : ObservedRemove.Closed meaning (knownTo meaning events state.context)
  heads : ∀ path dot payload, state.headAt path dot = some payload ↔
    ObservedRemove.Live meaning (knownTo meaning events state.context) path dot payload

/-- No two events share a dot, and none puts two payloads at one path. -/
structure Apart (meaning : ObservedRemove.Effects Event SyncPath Dot HeadPayload)
    (events : Set Event) : Prop where
  dots : ∀ first ∈ events, ∀ second ∈ events, meaning.key first = meaning.key second →
    first = second
  puts : ∀ event ∈ events, ∀ path payload other, meaning.puts event path payload →
    meaning.puts event path other → payload = other

theorem Apart.payload_unique (apart : Apart meaning events) {left right : NativeState}
    (leftStands : Stands meaning events left) (rightStands : Stands meaning events right)
    {path : SyncPath} {dot : Dot} {payload other : HeadPayload}
    (leftLive : left.headAt path dot = some payload)
    (rightLive : right.headAt path dot = some other) : payload = other := by
  rcases (leftStands.heads path dot payload).mp leftLive with
    ⟨first, firstKnown, firstDot, firstPuts, _⟩
  rcases (rightStands.heads path dot other).mp rightLive with
    ⟨second, secondKnown, secondDot, secondPuts, _⟩
  have same := apart.dots first firstKnown.1 second secondKnown.1 (firstDot.trans secondDot.symm)
  subst same
  exact apart.puts first firstKnown.1 path payload other firstPuts secondPuts

/-! ### Joins -/

section Join

variable {left right joined : NativeState} (succeeded : join left right = .ok joined)

include succeeded

theorem knownTo_join : knownTo meaning events joined.context =
    knownTo meaning events left.context ∪ knownTo meaning events right.context := by
  ext event
  simp only [knownTo, Set.mem_ofPred_eq, Set.mem_union, observedBy_join succeeded, Bool.or_eq_true,
    ← and_or_left]

theorem seqIn_join (author : AuthorId) :
    seqIn joined.context author = max (seqIn left.context author) (seqIn right.context author) := by
  unfold seqIn
  rw [(join_ok succeeded).1 author]
  cases left.context[author]? <;> cases right.context[author]? <;> simp

theorem Stands.join (apart : Apart meaning events) (leftStands : Stands meaning events left)
    (rightStands : Stands meaning events right) : Stands meaning events joined := by
  have isEvent : ∀ event ∈ knownTo meaning events left.context ∪
      knownTo meaning events right.context, event ∈ events := by
    intro event isKnown
    rcases isKnown with inLeft | inRight
    · exact inLeft.1
    · exact inRight.1
  constructor
  · rw [knownTo_join succeeded]
    intro event isKnown path dot removes
    rcases isKnown with inLeft | inRight
    · rcases leftStands.closed event inLeft path dot removes with ⟨putter, isPutter, sameDot⟩
      exact ⟨putter, Or.inl isPutter, sameDot⟩
    · rcases rightStands.closed event inRight path dot removes with ⟨putter, isPutter, sameDot⟩
      exact ⟨putter, Or.inr isPutter, sameDot⟩
  · intro path dot payload
    rw [knownTo_join succeeded, ObservedRemove.live_union_iff leftStands.closed rightStands.closed
      (fun first second isFirst isSecond => apart.dots first (isEvent first isFirst) second
        (isEvent second isSecond)), ← leftStands.heads, ← rightStands.heads, headAt_join succeeded]
    -- A live head was put by an event, so knowing the event is observing its dot.
    have seenIff : ∀ (context : Context) (state : NativeState) (value : HeadPayload),
        Stands meaning events state → state.headAt path dot = some value →
        ((∃ event, event ∈ knownTo meaning events context ∧ meaning.key event = dot) ↔
          observedBy context dot = true) := by
      intro context state value stands live
      rcases (stands.heads path dot value).mp live with ⟨putter, isKnown, sameDot, _⟩
      constructor
      · rintro ⟨event, ⟨_, observed⟩, rfl⟩
        exact observed
      · intro observed
        exact ⟨putter, ⟨isKnown.1, by rw [sameDot]; exact observed⟩, sameDot⟩
    cases leftLive : left.headAt path dot with
    | none =>
      cases rightLive : right.headAt path dot with
      | none => simp [joinedHead]
      | some other =>
        rw [seenIff left.context right other rightStands rightLive]
        cases observedBy left.context dot <;> simp [joinedHead]
    | some value =>
      cases rightLive : right.headAt path dot with
      | none =>
        rw [seenIff right.context left value leftStands leftLive]
        cases observedBy right.context dot <;> simp [joinedHead]
      | some other =>
        have same := apart.payload_unique leftStands rightStands leftLive rightLive
        subst same
        rw [seenIff right.context left value leftStands leftLive,
          seenIff left.context left value leftStands leftLive]
        simp only [joinedHead]
        constructor
        · exact fun equal => Or.inl ⟨equal, Or.inl equal⟩
        · rintro (⟨equal, _⟩ | ⟨equal, _⟩)
          · exact equal
          · exact equal

end Join

/-! ### A new event -/

section Issue

variable {stateOf : AuthorId → NativeState} {replica : AuthorId} {next : NativeState} {event : Event}
  {seq : Nat}

theorem mem_update {past : List NativeState} (current : ∀ replica, stateOf replica ∈ past)
    (other : AuthorId) : Function.update stateOf replica next other ∈ next :: past := by
  by_cases same : other = replica
  · subst same
    simp
  · rw [Function.update_of_ne same]
    exact .tail _ (current other)

theorem seqIn_update (grows : seqIn (stateOf replica).context replica ≤ seqIn next.context replica)
    (author : AuthorId) : seqIn (stateOf author).context author ≤
      seqIn (Function.update stateOf replica next author).context author := by
  by_cases same : author = replica
  · subst same
    rwa [Function.update_self]
  · rw [Function.update_of_ne same]

variable (dotIs : meaning.key event = ⟨replica, seq⟩)
  (seqIs : seq = seqIn (stateOf replica).context replica + 1)

include dotIs seqIs

theorem knownTo_of_past {state : NativeState}
    (bounded : seqIn state.context replica ≤ seqIn (stateOf replica).context replica) :
    knownTo meaning (insert event events) state.context = knownTo meaning events state.context := by
  have unseen : ¬observedBy state.context (meaning.key event) = true := by
    rw [dotIs, observedBy_iff_le_seqIn _ (by dsimp only; omega)]
    dsimp only
    omega
  ext other
  constructor
  · rintro ⟨isEvent, observed⟩
    rcases Set.mem_insert_iff.mp isEvent with rfl | old
    · exact absurd observed unseen
    · exact ⟨old, observed⟩
  · intro isKnown
    exact ⟨Set.mem_insert_of_mem _ isKnown.1, isKnown.2⟩

theorem knownTo_of_next (contextIs : next.context = (stateOf replica).context.insert replica seq)
    (issued : ∀ event ∈ events, (meaning.key event).seq ≠ 0 ∧ (meaning.key event).seq ≤
      seqIn (stateOf (meaning.key event).author).context (meaning.key event).author) :
    knownTo meaning (insert event events) next.context =
      insert event (knownTo meaning events (stateOf replica).context) := by
  have observedOld : ∀ event ∈ events, (observedBy next.context (meaning.key event) = true ↔
      observedBy (stateOf replica).context (meaning.key event) = true) := by
    intro event isEvent
    have isIssued := issued event isEvent
    rw [observedBy_iff_le_seqIn _ isIssued.1, observedBy_iff_le_seqIn _ isIssued.1, contextIs]
    by_cases own : replica = (meaning.key event).author
    · rw [← own] at isIssued ⊢
      rw [seqIn_insert_self]
      omega
    · simp [seqIn, own]
  ext other
  constructor
  · rintro ⟨isEvent, observed⟩
    rcases Set.mem_insert_iff.mp isEvent with rfl | old
    · exact Set.mem_insert _ _
    · exact Set.mem_insert_of_mem _ ⟨old, (observedOld other old).mp observed⟩
  · intro isKnown
    rcases Set.mem_insert_iff.mp isKnown with rfl | old
    · refine ⟨Set.mem_insert _ _, ?_⟩
      rw [contextIs, dotIs, observedBy_iff]
      exact ⟨seq, by simp, Nat.le_refl _⟩
    · exact ⟨Set.mem_insert_of_mem _ old.1, (observedOld other old.1).mpr old.2⟩

end Issue

end Standing

end Yadorilink.Replicas
