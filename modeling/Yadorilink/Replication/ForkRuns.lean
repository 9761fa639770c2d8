import Yadorilink.Domain.NativeForkPlans
import Yadorilink.Replication.Replicas

/-! Replicas that resolve conflicts by fork plans and join states of each other, at
any later moment and in any order. Every delta of a plan puts each version it removes,
and no delta removes what a later one puts; so a version is never lost, however the
plans of several writers meet. -/

namespace Yadorilink.ForkRuns

open Std NativeState List
open ObservedRemove (Live Closed)
open Replicas (seqIn seqIn_insert_self observedBy_iff_le_seqIn seqIn_join seqIn_update Stands)

/-! ## Signing the deltas of a plan -/

/-- Applies one planned delta under the signer's next sequence. -/
def applyFork (signer : AuthorId) (state : NativeState) (delta : ForkDelta)
    (provenance : DeltaHash) : Except AuthorError NativeState := do
  let dot ← state.nextDot signer
  let received ← state.receiveVerified signer dot.seq (remoteOps provenance delta.ops)
  return received.2

/-- The state after a delta with dot `dot` whose puts stand for the versions it
removed. -/
structure Supersedes (dot : Dot) (before after : NativeState) : Prop where
  seq : dot.seq = seqIn before.context dot.author + 1
  context : after.context = before.context.insert dot.author dot.seq
  heads : ∀ path other payload, after.headAt path other = some payload →
    other = dot ∨ before.headAt path other = some payload
  carried : ∀ path other payload, before.headAt path other = some payload →
    after.headAt path other = none →
      ∃ next landed, after.headAt next dot = some landed ∧ landed.version = payload.version

def Observed (state : NativeState) : Prop :=
  ∀ path dot payload, state.headAt path dot = some payload →
    dot.seq ≠ 0 ∧ observedBy state.context dot = true

/-- What the signer's real state shares with the simulation and with the state the
plan was computed on: the same context, and one version for each head. -/
structure Tracks (state sim real : NativeState) : Prop where
  context : sim.context = real.context
  above : ∀ dot, observedBy state.context dot = true → observedBy real.context dot = true
  fromState : ∀ path dot payload other, state.headAt path dot = some payload →
    real.headAt path dot = some other → payload.version = other.version
  fromSim : ∀ path dot payload other, sim.headAt path dot = some payload →
    real.headAt path dot = some other → payload.version = other.version

theorem Tracks.refl (state : NativeState) : Tracks state state state where
  context := rfl
  above := fun _ observed => observed
  fromState := by
    intro path dot payload other first second
    rw [first] at second
    cases second
    rfl
  fromSim := by
    intro path dot payload other first second
    rw [first] at second
    cases second
    rfl

section Receiving

variable {state after : NativeState} {author : AuthorId} {seq : Nat} {provenance : DeltaHash}
  {ops : List ForkOp} {issued : Dot}

theorem remoteOps_paths : (remoteOps provenance ops).map RemoteOp.path = ops.map ForkOp.path := by
  rw [remoteOps, map_map]
  rfl

theorem checkOps_remoteOps (other : DeltaHash) :
    NativeState.checkOps [] (remoteOps provenance ops) = .ok () ↔
      NativeState.checkOps [] (remoteOps other ops) = .ok () := by
  rw [checkOps_eq_ok_iff, checkOps_eq_ok_iff, remoteOps_paths,
    remoteOps_paths]
  simp [remoteOps]

theorem headAt_remoteOps
    (received : state.receiveVerified author seq (remoteOps provenance ops) = .ok (issued, after))
    (path : SyncPath) (dot : Dot) (payload : HeadPayload) :
    after.headAt path dot = some payload ↔
      (dot = ⟨author, seq⟩ ∧ ∃ op ∈ ops, op.path = path ∧ ∃ put, op.put = some put ∧
        payload = ⟨put.version, provenance⟩) ∨
      (¬(dot = ⟨author, seq⟩ ∧ ∃ op ∈ ops, op.path = path ∧ op.put.isSome = true) ∧
        state.headAt path dot = some payload ∧
        ∀ op ∈ ops, op.path = path → ⟨dot, payload.provenance⟩ ∉ op.removes) := by
  rcases receiveVerified_ok received with ⟨checked, _, rfl⟩
  have distinct := (checkOps_eq_ok_iff.mp checked).1
  have sources : (ops.map ForkOp.path).Nodup := by
    rw [remoteOps_paths] at distinct
    exact distinct
  by_cases touched : path ∈ ops.map ForkOp.path
  · rcases mem_map.mp touched with ⟨op, member, rfl⟩
    have only : ∀ other ∈ ops, other.path = op.path → other = op := fun other isOp samePath =>
      inj_on_of_nodup_map sources isOp member samePath
    have image : (⟨op.path, op.removes, op.put.map fun put => ⟨put.version, provenance⟩⟩ : RemoteOp) ∈
        remoteOps provenance ops := mem_map.mpr ⟨op, member, rfl⟩
    rw [headAt_ops_of_mem state _ ⟨author, seq⟩ _ distinct image]
    constructor
    · intro landed
      rcases landed with ⟨same, put⟩ | ⟨notNew, live, kept⟩
      · rcases Option.map_eq_some_iff.mp put with ⟨planned, isPut, made⟩
        exact Or.inl ⟨same.symm, op, member, rfl, planned, isPut, made.symm⟩
      · refine Or.inr ⟨?_, live, ?_⟩
        · rintro ⟨same, other, isOp, samePath, puts⟩
          rw [only other isOp samePath] at puts
          exact notNew ⟨same.symm, by simpa using puts⟩
        · intro other isOp samePath
          rw [only other isOp samePath]
          exact kept
    · intro landed
      rcases landed with ⟨same, other, isOp, samePath, put, isPut, made⟩ | ⟨notNew, live, kept⟩
      · rw [only other isOp samePath] at isPut
        exact Or.inl ⟨same.symm, Option.map_eq_some_iff.mpr ⟨put, isPut, made.symm⟩⟩
      · refine Or.inr ⟨?_, live, kept op member rfl⟩
        rintro ⟨same, puts⟩
        exact notNew ⟨same.symm, op, member, rfl, by simpa using puts⟩
  · rw [headAt_ops_of_not_mem state _ ⟨author, seq⟩ _ (by rwa [remoteOps_paths])]
    have elsewhere : ∀ op ∈ ops, op.path ≠ path := fun op isOp samePath =>
      touched (mem_map.mpr ⟨op, isOp, samePath⟩)
    constructor
    · intro live
      refine Or.inr ⟨?_, live, fun op isOp samePath => absurd samePath (elsewhere op isOp)⟩
      rintro ⟨_, op, isOp, samePath, _⟩
      exact elsewhere op isOp samePath
    · intro landed
      rcases landed with ⟨_, op, isOp, samePath, _⟩ | ⟨_, live, _⟩
      · exact absurd samePath (elsewhere op isOp)
      · exact live

end Receiving

theorem observedBy_insert {context : Context} {dot other : Dot}
    (next : dot.seq = seqIn context dot.author + 1) (observed : observedBy context other = true) :
    observedBy (context.insert dot.author dot.seq) other = true := by
  rcases (observedBy_iff context other).mp observed with ⟨seq, found, within⟩
  rw [observedBy_iff]
  by_cases same : dot.author = other.author
  · refine ⟨dot.seq, by simp [same], ?_⟩
    have known : seqIn context dot.author = seq := by rw [same, seqIn, found]; rfl
    omega
  · exact ⟨seq, by simp [same, found], within⟩

/-- The delta the simulation took applies to the real state too: it stands for every
version it removes there, and the two states stay together. -/
theorem applyFork_tracks {state sim real simNext : NativeState} {signer : AuthorId}
    {delta : ForkDelta} {dot issued : Dot} (observes : Observed state)
    (tracks : Tracks state sim real)
    (carried : Carried state sim delta.ops) (fresh : sim.nextDot signer = .ok dot)
    (simulated : sim.receiveVerified signer dot.seq
      (remoteOps (placeholder dot.seq) delta.ops) = .ok (issued, simNext))
    (provenance : DeltaHash) :
    ∃ next, applyFork signer real delta provenance = .ok next ∧ Tracks state simNext next ∧
      Supersedes ⟨signer, dot.seq⟩ real next := by
  have sameDot : real.nextDot signer = .ok dot := by
    rw [← fresh, nextDot, nextDot, contextOf,
      contextOf, tracks.context]
  rcases nextDot_ok sameDot with ⟨isSigner, isNext⟩
  have isNext : dot.seq = seqIn real.context signer + 1 := isNext
  rcases receiveVerified_ok simulated with ⟨checked, _, simIs⟩
  have checkedToo := (checkOps_remoteOps provenance).mp checked
  obtain ⟨next, received⟩ : ∃ next, real.receiveVerified signer dot.seq
      (remoteOps provenance delta.ops) = .ok (⟨signer, dot.seq⟩, next) := by
    rw [receiveVerified, checkedToo]
    exact ⟨_, rfl⟩
  have context : next.context = real.context.insert signer dot.seq := by
    rw [(receiveVerified_ok received).2.2]
  have simHeads := headAt_remoteOps simulated
  have realHeads := headAt_remoteOps received
  -- The new dot is beyond what the planned state has observed.
  have notGiven : ∀ path payload, state.headAt path ⟨signer, dot.seq⟩ ≠ some payload := by
    intro path payload live
    have observed := tracks.above _ (observes path _ payload live).2
    rw [observedBy_iff_le_seqIn _ (observes path _ payload live).1] at observed
    dsimp only at observed
    omega
  have keepsVersion : ∀ source : NativeState, (∀ path dot payload other,
      source.headAt path dot = some payload → real.headAt path dot = some other →
        payload.version = other.version) →
      (∀ path payload, source.headAt path ⟨signer, dot.seq⟩ ≠ some payload) →
      ∀ path other payload landed, source.headAt path other = some payload →
        next.headAt path other = some landed → payload.version = landed.version := by
    intro source agrees noneNew path other payload landed live kept
    rcases (realHeads path other landed).mp kept with ⟨same, _⟩ | ⟨_, before, _⟩
    · rw [same] at live
      exact absurd live (noneNew path payload)
    · exact agrees path other payload landed live before
  refine ⟨next, ?_, ⟨?_, ?_, keepsVersion state tracks.fromState notGiven, ?_⟩,
    ⟨isNext, context, ?_, ?_⟩⟩
  · rw [applyFork, sameDot]
    change (real.receiveVerified signer dot.seq (remoteOps provenance delta.ops) >>= fun received =>
      .ok received.2) = .ok next
    rw [received]
    rfl
  · rw [simIs, context, tracks.context]
  · intro other observed
    rw [context]
    exact @observedBy_insert real.context ⟨signer, dot.seq⟩ other isNext (tracks.above other observed)
  · intro path other payload landed live kept
    rcases (simHeads path other payload).mp live with
      ⟨same, op, isOp, samePath, put, isPut, made⟩ | ⟨notNew, simLive, _⟩
    · rcases (realHeads path other landed).mp kept with
        ⟨_, otherOp, isOtherOp, otherPath, otherPut, isOtherPut, otherMade⟩ | ⟨notNew, _⟩
      · have distinct := (checkOps_eq_ok_iff.mp checked).1
        rw [remoteOps_paths] at distinct
        have sameOp := inj_on_of_nodup_map distinct isOp isOtherOp
          (samePath.trans otherPath.symm)
        rw [← sameOp, isPut] at isOtherPut
        cases isOtherPut
        rw [made, otherMade]
      · exact absurd ⟨same, op, isOp, samePath, by rw [isPut]; rfl⟩ notNew
    · rcases (realHeads path other landed).mp kept with
        ⟨same, op, isOp, samePath, put, isPut, _⟩ | ⟨_, realLive, _⟩
      · exact absurd ⟨same, op, isOp, samePath, by rw [isPut]; rfl⟩ notNew
      · exact tracks.fromSim path other payload landed simLive realLive
  · intro path other payload kept
    rcases (realHeads path other payload).mp kept with ⟨same, _⟩ | ⟨_, live, _⟩
    · exact Or.inl same
    · exact Or.inr live
  · intro path other payload live gone
    -- A head goes only where an op names it, and its version is put in its place.
    have named : ∃ op ∈ delta.ops, op.path = path ∧ ⟨other, payload.provenance⟩ ∈ op.removes := by
      by_contra unnamed
      have dropped : ¬next.headAt path other = some payload := by rw [gone]; simp
      rw [realHeads path other payload] at dropped
      apply dropped
      refine Or.inr ⟨?_, live, fun op isOp samePath isNamed =>
        unnamed ⟨op, isOp, samePath, isNamed⟩⟩
      rintro ⟨same, op, isOp, samePath, puts⟩
      rcases Option.isSome_iff_exists.mp puts with ⟨put, isPut⟩
      have landed := (realHeads path other ⟨put.version, provenance⟩).mpr
        (Or.inl ⟨same, op, isOp, samePath, put, isPut, rfl⟩)
      rw [gone] at landed
      cases landed
    rcases named with ⟨op, isOp, rfl, isNamed⟩
    rcases carried op isOp _ isNamed with ⟨known, source, carrier, isCarrier, puts⟩
    have sameVersion : known.version = payload.version := by
      rcases source with inState | inSim
      · exact tracks.fromState _ _ _ _ inState live
      · exact tracks.fromSim _ _ _ _ inSim live
    refine ⟨carrier.path, ⟨known.version, provenance⟩, ?_, sameVersion⟩
    exact (realHeads _ _ _).mpr (Or.inl ⟨rfl, carrier, isCarrier, rfl, _, puts, rfl⟩)

/-! ## Runs -/

/-- One moment of a run: the state of each replica, named by the author id it owns,
and every state any replica has had. -/
structure World where
  stateOf : AuthorId → NativeState
  past : List NativeState

inductive Action where
  /-- The replica plans the forks of `owner` and signs as many of the deltas as there
  are provenances. -/
  | fork (replica owner : AuthorId) (kindOf : VersionHash → Option RecordKind)
      (limits : ForkLimits) (provenances : List DeltaHash)
  /-- The replica joins the state at this position of the past. -/
  | join (replica : AuthorId) (source : Nat)

namespace World

def start (given : NativeState) : World := ⟨fun _ => given, [given]⟩

def moveTo (world : World) (replica : AuthorId) (next : NativeState) : World :=
  ⟨Function.update world.stateOf replica next, next :: world.past⟩

def sign (replica : AuthorId) (world : World) (signed : ForkDelta × DeltaHash) : World :=
  match applyFork replica (world.stateOf replica) signed.1 signed.2 with
  | .error _ => world
  | .ok next => world.moveTo replica next

/-- A plan that cannot be made and a failed join change nothing. -/
def perform (crypto : Crypto) (world : World) : Action → World
  | .fork replica owner kindOf limits provenances =>
    match planForks crypto (world.stateOf replica) owner replica kindOf limits with
    | .error _ => world
    | .ok plan => (plan.deltas.zip provenances).foldl (sign replica) world
  | .join replica source =>
    match world.past[source]? with
    | none => world
    | some state =>
      match Yadorilink.join (world.stateOf replica) state with
      | .error _ => world
      | .ok joined => world.moveTo replica joined

end World

def run (crypto : Crypto) (given : NativeState) (actions : List Action) : World :=
  actions.foldl (World.perform crypto) (World.start given)

/-! ## What the states of a run stand for -/

/-- What put a head: the given state, or a signed delta with the states around it. -/
inductive Event where
  | given (dot : Dot)
  | forked (position : Nat) (dot : Dot) (before after : NativeState)

namespace Event

def dot : Event → Dot
  | given dot => dot
  | forked _ dot _ _ => dot

/-- Given heads come first, deltas in the order they were signed. -/
def rank : Event → Nat
  | given _ => 0
  | forked position _ _ _ => position + 1

end Event

def effects (given : NativeState) : ObservedRemove.Effects Event SyncPath Dot HeadPayload where
  key := Event.dot
  puts event path payload :=
    match event with
    | .given dot => given.headAt path dot = some payload
    | .forked _ dot _ after => after.headAt path dot = some payload
  removes event path dot :=
    match event with
    | .given _ => False
    | .forked _ _ before after =>
      (∃ payload, before.headAt path dot = some payload) ∧ after.headAt path dot = none

theorem puts_unique {given : NativeState} {event : Event} {path : SyncPath}
    {payload other : HeadPayload} (first : (effects given).puts event path payload)
    (second : (effects given).puts event path other) : payload = other := by
  cases event with
  | given dot => exact Option.some.inj (first.symm.trans second)
  | forked position dot before after => exact Option.some.inj (first.symm.trans second)

def known (events : Set Event) (context : Context) : Set Event :=
  { event | event ∈ events ∧ observedBy context event.dot = true }

/-- `state` stands for the events its context observes. -/
structure Represents (given : NativeState) (events : Set Event) (world : World)
    (state : NativeState) : Prop where
  /-- No state knows more of an author than the author's own replica. -/
  bounded : ∀ author, seqIn state.context author ≤ seqIn (world.stateOf author).context author
  above : ∀ dot, observedBy given.context dot = true → observedBy state.context dot = true
  closed : Closed (effects given) (known events state.context)
  heads : ∀ path dot payload, state.headAt path dot = some payload ↔
    Live (effects given) (known events state.context) path dot payload

/-- Each removed head was put by an earlier event, and the remover puts its version. -/
def Carries (given : NativeState) (events : Set Event) (remover : Event) : Prop :=
  ∀ path dot, (effects given).removes remover path dot →
    ∃ putter ∈ events, putter.dot = dot ∧ putter.rank < remover.rank ∧
      ∃ payload, (effects given).puts putter path payload ∧
        ∃ next landed, (effects given).puts remover next landed ∧ landed.version = payload.version

structure Consistent (given : NativeState) (events : Set Event) (count : Nat) (world : World) :
    Prop where
  current : ∀ replica, world.stateOf replica ∈ world.past
  represented : ∀ state ∈ world.past, Represents given events world state
  issued : ∀ event ∈ events, event.dot.seq ≠ 0 ∧
    event.dot.seq ≤ seqIn (world.stateOf event.dot.author).context event.dot.author
  distinct : ∀ first ∈ events, ∀ second ∈ events, first.dot = second.dot → first = second
  ranked : ∀ event ∈ events, event.rank ≤ count
  fromGiven : ∀ path dot payload, given.headAt path dot = some payload → Event.given dot ∈ events
  carries : ∀ event ∈ events, Carries given events event

def givenEvents (given : NativeState) : Set Event :=
  { event | ∃ dot path payload, given.headAt path dot = some payload ∧ event = .given dot }

theorem consistent_start {given : NativeState} (observes : Observed given) :
    Consistent given (givenEvents given) 0 (World.start given) where
  current := fun _ => List.mem_singleton.mpr rfl
  represented := by
    intro state member
    rw [mem_singleton.mp member]
    have nothingRemoved : ∀ event ∈ known (givenEvents given) given.context, ∀ path dot,
        ¬(effects given).removes event path dot := by
      intro event isKnown path dot removes
      rcases isKnown.1 with ⟨_, _, _, _, rfl⟩
      exact removes
    refine ⟨fun _ => Nat.le_refl _, fun _ observed => observed, ?_, ?_⟩
    · intro event isKnown path dot removes
      exact absurd removes (nothingRemoved event isKnown path dot)
    · intro path dot payload
      constructor
      · intro live
        exact ⟨.given dot, ⟨⟨dot, path, payload, live, rfl⟩,
          (observes path dot payload live).2⟩, rfl, live,
          fun other isKnown => nothingRemoved other isKnown path dot⟩
      · rintro ⟨event, isKnown, sameDot, puts, _⟩
        rcases isKnown.1 with ⟨putDot, _, _, _, rfl⟩
        have sameDot : putDot = dot := sameDot
        subst sameDot
        exact puts
  issued := by
    intro event isEvent
    rcases isEvent with ⟨dot, path, payload, live, rfl⟩
    have facts := observes path dot payload live
    exact ⟨facts.1, (observedBy_iff_le_seqIn _ facts.1).mp facts.2⟩
  distinct := by
    intro first isFirst second isSecond sameDot
    rcases isFirst with ⟨_, _, _, _, rfl⟩
    rcases isSecond with ⟨_, _, _, _, rfl⟩
    exact congrArg Event.given sameDot
  ranked := by
    intro event isEvent
    rcases isEvent with ⟨_, _, _, _, rfl⟩
    exact Nat.le_refl _
  fromGiven := fun path dot payload live => ⟨dot, path, payload, live, rfl⟩
  carries := by
    intro event isEvent path dot removes
    rcases isEvent with ⟨_, _, _, _, rfl⟩
    exact absurd removes id

/-! ## A signed delta -/

section Sign

variable {given : NativeState} {events : Set Event} {count : Nat} {world : World}
  {replica : AuthorId} {seq : Nat} {next : NativeState}
  (consistent : Consistent given events count world)
  (signed : Supersedes ⟨replica, seq⟩ (world.stateOf replica) next)

/-- The event of the delta that leads the replica to `next`. -/
def signedEvent (world : World) (count : Nat) (replica : AuthorId) (seq : Nat)
    (next : NativeState) : Event :=
  .forked count ⟨replica, seq⟩ (world.stateOf replica) next

include consistent signed

private theorem fresh_dot {event : Event} (isEvent : event ∈ events) :
    event.dot ≠ ⟨replica, seq⟩ := by
  intro same
  have bound := (consistent.issued event isEvent).2
  have seqIs := signed.seq
  rw [same] at bound
  dsimp only at bound seqIs
  omega

private theorem known_of_past {state : NativeState} (member : state ∈ world.past) :
    known (insert (signedEvent world count replica seq next) events) state.context =
      known events state.context :=
  @Replicas.knownTo_of_past _ (effects given) _ world.stateOf replica _ seq rfl signed.seq _
    ((consistent.represented state member).bounded replica)

private theorem known_of_next :
    known (insert (signedEvent world count replica seq next) events) next.context =
      insert (signedEvent world count replica seq next)
        (known events (world.stateOf replica).context) :=
  @Replicas.knownTo_of_next _ (effects given) _ world.stateOf replica _ _ seq rfl signed.seq signed.context
    consistent.issued

omit signed in
private theorem removed_known {path : SyncPath} {dot : Dot}
    (removes : (effects given).removes (signedEvent world count replica seq next) path dot) :
    ∃ putter ∈ known events (world.stateOf replica).context, putter.dot = dot ∧
      ∃ payload, (world.stateOf replica).headAt path dot = some payload ∧
        (effects given).puts putter path payload := by
  rcases removes.1 with ⟨payload, live⟩
  have represented := consistent.represented _ (consistent.current replica)
  rcases (represented.heads path dot payload).mp live with ⟨putter, isKnown, sameDot, puts, _⟩
  exact ⟨putter, isKnown, sameDot, payload, live, puts⟩

omit signed in
private theorem closed_of_next : Closed (effects given)
    (insert (signedEvent world count replica seq next)
      (known events (world.stateOf replica).context)) := by
  intro event isKnown path dot removes
  rcases Set.mem_insert_iff.mp isKnown with rfl | old
  · rcases removed_known consistent removes with ⟨putter, known, sameDot, _⟩
    exact ⟨putter, Set.mem_insert_of_mem _ known, sameDot⟩
  · rcases (consistent.represented _ (consistent.current replica)).closed event old path dot
      removes with ⟨putter, known, sameDot⟩
    exact ⟨putter, Set.mem_insert_of_mem _ known, sameDot⟩

private theorem heads_of_next (path : SyncPath) (target : Dot) (payload : HeadPayload) :
    next.headAt path target = some payload ↔
      Live (effects given) (insert (signedEvent world count replica seq next)
        (known events (world.stateOf replica).context)) path target payload := by
  have represented := consistent.represented _ (consistent.current replica)
  have unremoved : ∀ other ∈ insert (signedEvent world count replica seq next)
      (known events (world.stateOf replica).context), ∀ path,
      ¬(effects given).removes other path ⟨replica, seq⟩ := by
    intro other isKnown path removes
    have putter : ∃ event ∈ known events (world.stateOf replica).context,
        event.dot = ⟨replica, seq⟩ := by
      rcases Set.mem_insert_iff.mp isKnown with rfl | old
      · rcases removed_known consistent removes with ⟨putter, known, sameDot, _⟩
        exact ⟨putter, known, sameDot⟩
      · exact represented.closed other old path _ removes
    rcases putter with ⟨event, known, sameDot⟩
    exact fresh_dot consistent signed known.1 sameDot
  rw [ObservedRemove.live_insert_iff unremoved, ← represented.heads]
  constructor
  · intro live
    rcases signed.heads path target payload live with rfl | before
    · exact Or.inl ⟨rfl, live⟩
    · refine Or.inr ⟨before, ?_⟩
      intro removes
      rw [removes.2] at live
      cases live
  · intro landed
    rcases landed with ⟨sameDot, puts⟩ | ⟨before, kept⟩
    · have sameDot : (⟨replica, seq⟩ : Dot) = target := sameDot
      rw [← sameDot]
      exact puts
    · cases after : next.headAt path target with
      | none => exact absurd ⟨⟨payload, before⟩, after⟩ kept
      | some landed =>
        rcases signed.heads path target landed after with rfl | same
        · rcases (represented.heads path _ payload).mp before with ⟨event, known, sameDot, _⟩
          exact absurd sameDot (fresh_dot consistent signed known.1)
        · exact same.symm.trans before

theorem consistent_sign :
    Consistent given (insert (signedEvent world count replica seq next) events) (count + 1)
      (world.moveTo replica next) := by
  have seqIs := signed.seq
  have contextIs : next.context = (world.stateOf replica).context.insert replica seq :=
    signed.context
  dsimp only at seqIs
  have ownSeq : ∀ author, seqIn (world.stateOf author).context author ≤
      seqIn ((world.moveTo replica next).stateOf author).context author := by
    refine seqIn_update ?_
    rw [contextIs, seqIn_insert_self]
    omega
  have before := consistent.represented _ (consistent.current replica)
  refine ⟨?_, ?_, ?_, ?_, ?_, ?_, ?_⟩
  · exact Replicas.mem_update consistent.current
  · intro state member
    rcases mem_cons.mp member with rfl | old
    · refine ⟨?_, ?_, ?_, ?_⟩
      · intro author
        by_cases same : author = replica
        · subst same
          simp [World.moveTo]
        · have kept : seqIn state.context author = seqIn (world.stateOf replica).context author := by
            rw [contextIs]
            simp [seqIn, Ne.symm same]
          rw [kept]
          exact Nat.le_trans (before.bounded author) (ownSeq author)
      · intro dot observed
        rw [contextIs]
        exact @observedBy_insert _ ⟨replica, seq⟩ dot seqIs (before.above dot observed)
      · rw [known_of_next consistent signed]
        exact closed_of_next consistent
      · intro path dot payload
        rw [known_of_next consistent signed]
        exact heads_of_next consistent signed path dot payload
    · have facts := consistent.represented state old
      refine ⟨fun author => Nat.le_trans (facts.bounded author) (ownSeq author), facts.above,
        ?_, ?_⟩
      · rw [known_of_past consistent signed old]
        exact facts.closed
      · rw [known_of_past consistent signed old]
        exact facts.heads
  · intro event isEvent
    rcases Set.mem_insert_iff.mp isEvent with rfl | old
    · refine ⟨by simp only [signedEvent, Event.dot]; omega, ?_⟩
      simp only [signedEvent, Event.dot, World.moveTo, Function.update_self]
      rw [contextIs, seqIn_insert_self]
    · have issued := consistent.issued event old
      exact ⟨issued.1, Nat.le_trans issued.2 (ownSeq event.dot.author)⟩
  · intro first isFirst second isSecond sameDot
    rcases Set.mem_insert_iff.mp isFirst with rfl | oldFirst
    · rcases Set.mem_insert_iff.mp isSecond with rfl | oldSecond
      · rfl
      · exact absurd sameDot.symm (fresh_dot consistent signed oldSecond)
    · rcases Set.mem_insert_iff.mp isSecond with rfl | oldSecond
      · exact absurd sameDot (fresh_dot consistent signed oldFirst)
      · exact consistent.distinct first oldFirst second oldSecond sameDot
  · intro event isEvent
    rcases Set.mem_insert_iff.mp isEvent with rfl | old
    · exact Nat.le_refl _
    · exact Nat.le_succ_of_le (consistent.ranked event old)
  · intro path dot payload live
    exact Set.mem_insert_of_mem _ (consistent.fromGiven path dot payload live)
  · intro event isEvent path dot removes
    rcases Set.mem_insert_iff.mp isEvent with rfl | old
    · rcases removed_known consistent removes with
        ⟨putter, isKnown, sameDot, payload, live, puts⟩
      refine ⟨putter, Set.mem_insert_of_mem _ isKnown.1, sameDot,
        Nat.lt_succ_of_le (consistent.ranked putter isKnown.1), payload, puts, ?_⟩
      exact signed.carried path dot payload live removes.2
    · rcases consistent.carries event old path dot removes with ⟨putter, isPutter, facts⟩
      exact ⟨putter, Set.mem_insert_of_mem _ isPutter, facts⟩

end Sign

/-! ## A join -/

section Join

variable {given : NativeState} {events : Set Event} {count : Nat} {world : World}
  (consistent : Consistent given events count world)

include consistent

theorem Consistent.apart : Replicas.Apart (effects given) events where
  dots := consistent.distinct
  puts := fun _ _ _ _ _ => puts_unique

variable {replica : AuthorId} {source joined : NativeState} (had : source ∈ world.past)
  (succeeded : join (world.stateOf replica) source = .ok joined)

include had succeeded

theorem consistent_join : Consistent given events count (world.moveTo replica joined) := by
  have left := consistent.represented _ (consistent.current replica)
  have right := consistent.represented _ had
  have stands : Stands (effects given) events joined :=
    Stands.join succeeded consistent.apart ⟨left.closed, left.heads⟩ ⟨right.closed, right.heads⟩
  have represents : Represents given events world joined := by
    refine ⟨?_, ?_, stands.closed, stands.heads⟩
    · intro author
      rw [seqIn_join succeeded]
      exact Nat.max_le.mpr ⟨left.bounded author, right.bounded author⟩
    · intro dot observed
      rw [observedBy_join succeeded, left.above dot observed]
      rfl
  -- The joining replica learns nothing about itself that it did not know.
  have ownSeq : ∀ author, seqIn (world.stateOf author).context author ≤
      seqIn ((world.moveTo replica joined).stateOf author).context author := by
    refine seqIn_update ?_
    rw [seqIn_join succeeded]
    exact Nat.le_max_left _ _
  refine ⟨?_, ?_, ?_, consistent.distinct, consistent.ranked, consistent.fromGiven,
    consistent.carries⟩
  · exact Replicas.mem_update consistent.current
  · intro state member
    have before : Represents given events world state := by
      rcases mem_cons.mp member with rfl | old
      · exact represents
      · exact consistent.represented state old
    exact ⟨fun author => Nat.le_trans (before.bounded author) (ownSeq author), before.above,
      before.closed, before.heads⟩
  · intro event isEvent
    have before := consistent.issued event isEvent
    exact ⟨before.1, Nat.le_trans before.2 (ownSeq event.dot.author)⟩

end Join

/-! ## Whole runs -/

theorem consistent_signAll {given state sim last : NativeState} {replica : AuthorId}
    (observes : Observed state) {deltas : List ForkDelta} (chain : ForkChain state replica sim deltas last)
    (provenances : List DeltaHash) {events : Set Event} {count : Nat} {world : World}
    (consistent : Consistent given events count world)
    (tracks : Tracks state sim (world.stateOf replica)) :
    ∃ events count, Consistent given events count
      ((deltas.zip provenances).foldl (World.sign replica) world) := by
  induction chain generalizing provenances events count world with
  | nil sim => exact ⟨events, count, consistent⟩
  | @cons sim next last dot issued delta rest carried fresh received later induction =>
    cases provenances with
    | nil => exact ⟨events, count, consistent⟩
    | cons provenance provenances =>
      rcases applyFork_tracks observes tracks carried fresh received provenance with
        ⟨real, applied, tracksNext, signed⟩
      have moved : World.sign replica world (delta, provenance) = world.moveTo replica real := by
        rw [World.sign, applied]
      rw [zip_cons_cons, foldl_cons, moved]
      apply induction provenances (consistent_sign consistent signed)
      simpa [World.moveTo] using tracksNext

theorem Consistent.observed {given : NativeState} {events : Set Event} {count : Nat}
    {world : World} (consistent : Consistent given events count world) {state : NativeState}
    (member : state ∈ world.past) : Observed state := by
  intro path dot payload live
  rcases ((consistent.represented state member).heads path dot payload).mp live with
    ⟨event, isKnown, sameDot, _⟩
  have sameDot : event.dot = dot := sameDot
  rw [← sameDot]
  exact ⟨(consistent.issued event isKnown.1).1, isKnown.2⟩

theorem consistent_perform {crypto : Crypto} {given : NativeState} {events : Set Event}
    {count : Nat} {world : World} (consistent : Consistent given events count world)
    (action : Action) :
    ∃ events count, Consistent given events count (world.perform crypto action) := by
  cases action with
  | fork replica owner kindOf limits provenances =>
    rw [World.perform]
    cases planned : planForks crypto (world.stateOf replica) owner replica kindOf limits with
    | error failure => exact ⟨events, count, consistent⟩
    | ok plan =>
      rcases planForks_chain planned with ⟨last, chain⟩
      exact consistent_signAll (consistent.observed (consistent.current replica)) chain
        provenances consistent (Tracks.refl _)
  | join replica source =>
    rw [World.perform]
    cases found : world.past[source]? with
    | none => exact ⟨events, count, consistent⟩
    | some state =>
      have had := mem_of_getElem? found
      dsimp only
      cases result : Yadorilink.join (world.stateOf replica) state with
      | error fork => exact ⟨events, count, consistent⟩
      | ok joined => exact ⟨events, count, consistent_join consistent had result⟩

theorem consistent_run {given : NativeState} (observes : Observed given) (crypto : Crypto)
    (actions : List Action) :
    ∃ events count, Consistent given events count (run crypto given actions) := by
  have keeps : ∀ world, (∃ events count, Consistent given events count world) →
      ∃ events count, Consistent given events count
        (actions.foldl (World.perform crypto) world) := by
    induction actions with
    | nil => exact fun _ consistent => consistent
    | cons action rest induction =>
      rintro world ⟨events, count, consistent⟩
      exact induction _ (consistent_perform consistent action)
  exact keeps _ ⟨_, 0, consistent_start observes⟩

theorem mem_liveVersions_iff {state : NativeState} {version : VersionHash} :
    version ∈ liveVersions state ↔
      ∃ path dot payload, state.headAt path dot = some payload ∧ payload.version = version := by
  rw [liveVersions, ExtTreeSet.mem_ofList, contains_iff_mem, mem_flatMap]
  constructor
  · rintro ⟨⟨path, heads⟩, stored, isVersion⟩
    rcases mem_map.mp isVersion with ⟨⟨dot, payload⟩, live, rfl⟩
    rw [ExtTreeMap.mem_toList_iff_getElem?_eq_some] at stored live
    refine ⟨path, dot, payload, ?_, rfl⟩
    rw [headAt, pathHeads, stored]
    exact live
  · rintro ⟨path, dot, payload, live, same⟩
    rw [headAt, pathHeads] at live
    cases stored : state.heads[path]? with
    | none => simp [stored] at live
    | some heads =>
      rw [stored, Option.getD_some] at live
      refine ⟨(path, heads), ExtTreeMap.mem_toList_iff_getElem?_eq_some.mpr stored, ?_⟩
      rw [mem_map]
      exact ⟨(dot, payload), ExtTreeMap.mem_toList_iff_getElem?_eq_some.mpr live, same⟩

theorem Consistent.keeps_version {given : NativeState} (observes : Observed given)
    {events : Set Event} {count : Nat} {world : World}
    (consistent : Consistent given events count world) {state : NativeState}
    (member : state ∈ world.past) {version : VersionHash}
    (wasLive : version ∈ liveVersions given) : version ∈ liveVersions state := by
  rcases mem_liveVersions_iff.mp wasLive with ⟨path, dot, payload, live, sameVersion⟩
  have represented := consistent.represented state member
  have isKnown : Event.given dot ∈ known events state.context :=
    ⟨consistent.fromGiven path dot payload live,
      represented.above dot (observes path dot payload live).2⟩
  have carried : ∀ putter ∈ known events state.context, ∀ remover ∈ known events state.context,
      ∀ place value, (effects given).puts putter place value → value.version = version →
      (effects given).removes remover place putter.dot →
      putter.rank < remover.rank ∧
        ∃ next landed, (effects given).puts remover next landed ∧ landed.version = version := by
    intro putter isPutter remover isRemover place value puts isVersion removes
    rcases consistent.carries remover isRemover.1 place putter.dot removes with
      ⟨other, isOther, sameDot, earlier, removed, putsRemoved, next, landed, putsNext, kept⟩
    have same := consistent.distinct other isOther putter isPutter.1 sameDot
    subst same
    rw [puts_unique puts putsRemoved] at isVersion
    exact ⟨earlier, next, landed, putsNext, kept.trans isVersion⟩
  rcases ObservedRemove.exists_live_of_carried
    (fun event isEvent => consistent.ranked event isEvent.1) carried isKnown live sameVersion with
    ⟨place, key, kept, isLive, keptVersion⟩
  exact mem_liveVersions_iff.mpr
    ⟨place, key, kept, (represented.heads place key kept).mpr isLive, keptVersion⟩

/-- Resolving conflicts never loses a version: from any state that passes the
invariant check, whatever any replicas plan, sign and join, every version of the state
they started from is live at every replica at every moment. -/
theorem forks_keep_versions (crypto : Crypto) (given : NativeState)
    (checked : given.checkInvariants = .ok ()) (actions : List Action) :
    (∀ replica, (run crypto given actions).stateOf replica ∈ (run crypto given actions).past) ∧
      ∀ state ∈ (run crypto given actions).past, ∀ version ∈ liveVersions given,
        version ∈ liveVersions state := by
  have observes : Observed given := ((checkInvariants_eq_ok_iff given).mp checked).observed
  rcases consistent_run observes crypto actions with ⟨events, count, consistent⟩
  exact ⟨consistent.current, fun state member version wasLive =>
    consistent.keeps_version observes member wasLive⟩

namespace SampleForks

def laptop : AuthorId := ⟨"laptop", 1⟩

def phone : AuthorId := ⟨"phone", 1⟩

/-- One path with a head of each author; the laptop's loses. -/
def contested : NativeState :=
  ⟨(ExtTreeMap.insert ∅ laptop 1).insert phone 1,
    ExtTreeMap.insert ∅ "a" ((ExtTreeMap.insert ∅ (⟨laptop, 1⟩ : Dot)
      (⟨⟨7⟩, ⟨1⟩⟩ : HeadPayload)).insert ⟨phone, 1⟩ ⟨⟨9⟩, ⟨2⟩⟩)⟩

/-- Both replicas move the laptop's head, and the phone joins what the laptop did. -/
def actions : List Action :=
  [.fork laptop laptop (fun _ => some .file) ⟨8, 4096⟩ [⟨3⟩],
    .fork phone laptop (fun _ => some .file) ⟨8, 4096⟩ [⟨4⟩],
    .join phone 1]

end SampleForks

set_option maxRecDepth 8192 in
theorem forks_keep_versions_contested :
    (run Crypto.sample SampleForks.contested SampleForks.actions).past.length = 4 ∧
      ∀ version ∈ liveVersions SampleForks.contested, version ∈ liveVersions
        ((run Crypto.sample SampleForks.contested SampleForks.actions).stateOf
          SampleForks.phone) := by
  have kept := forks_keep_versions Crypto.sample SampleForks.contested (by decide)
    SampleForks.actions
  exact ⟨by decide, kept.2 _ (kept.1 SampleForks.phone)⟩

end Yadorilink.ForkRuns
