import Yadorilink.Domain.QuietForkPlans
import Yadorilink.Reconcile.Contests
import Yadorilink.Store.RemovalChain

/-! A fork pass: this device signs, round after round, the deltas that move the losing heads it may
move. A round that signs nothing leaves nothing to sign, and what stays contested is then out of
this device's reach. -/

namespace Yadorilink.ForkPass

open Std Reconcile Transaction ExtTreeMap Option NativeState

variable {path : SyncPath} {rounds : Nat} {total result : ForkAuthored}

/-! ## The pass -/

/-- The device's own author, with the sequences of a report that the author is ahead of it. -/
structure IncarnationRecord where
  author : AuthorId
  ahead : Option (Nat × Nat)

/-- What a pass reads and writes. -/
structure ForkStore where
  incarnation : Option IncarnationRecord
  store : Store
  candidates : ContestTable

/-- Why a pass fails. -/
inductive PassError where
  | staleAuthor (author current : AuthorId)
  | ownAuthorAhead (author : AuthorId) (seq reported : Nat)
  | fork (failure : ForkError)
  | lastSequence
  | store (failure : StoreError)

abbrev ForkDb := EStateM PassError ForkStore

/-- The rebootstrap pass a local author captures for. -/
structure CaptureAuthority where
  group : FolderGroupId
  device : DeviceId
  recoveryId : String

structure LocalAuthor where
  author : AuthorId
  sign : List UInt8 → Signature
  key : VerifyingKey
  capture : Option CaptureAuthority

def LocalAuthor.admission (author : LocalAuthor) : Admission :=
  author.capture.elim .local_ fun capture =>
    .rebootstrapCapture capture.group capture.device capture.recoveryId

structure ForkAuthored where
  deltas : Nat
  waitingForRecords : Nat
  refused : Nat
deriving DecidableEq

def forkLimits : ForkLimits := ⟨1024, 256 * 1024⟩

/-- The kind of each version whose record is stored. -/
def recordsOf (store : Store) (version : VersionHash) : Option RecordKind :=
  store.versions[version]?.map fun stored => stored.fileMeta.recordKind

/-- The kinds of the versions that are live in `state`. -/
def kindsIn (store : Store) (state : NativeState) (version : VersionHash) : Option RecordKind :=
  (lookupKinds (recordsOf store) (state.heads.toList.map Prod.snd) version).join

def hasUnattempted (candidates : ContestTable) : Bool :=
  candidates.toList.any fun candidate => !candidate.2

def owners (state : NativeState) : List AuthorId :=
  (ExtTreeSet.ofList
    (state.heads.toList.flatMap fun entry => entry.2.keys.map Dot.author) compare).toList

section Pass

variable (crypto : Crypto) (groupId : FolderGroupId) (author : LocalAuthor)

def refuseUnlessCurrentAuthor : ForkDb Unit := fun db =>
  match db.incarnation with
  | none => .ok () db
  | some current =>
    if current.author ≠ author.author then
      .error (.staleAuthor author.author current.author) db
    else
      match current.ahead with
      | some (seq, reported) => .error (.ownAuthorAhead current.author seq reported) db
      | none => .ok () db

def signFork (seq : Nat) (prev : Option DeltaHash) (planned : ForkDelta) : NativeDelta :=
  NativeDelta.signedBy crypto author.sign {
    groupId := groupId
    author := author.author
    seq := seq
    prev := prev
    ops := planned.ops.map fun op => ⟨op.path, op.removes, op.put⟩
    recursivePart := none
    signature := 0 }

/-- Installs one delta and judges the paths it touches anew. -/
def installFork (delta : NativeDelta) : ForkDb Unit := fun db =>
  match installAuthoredDelta crypto groupId delta author.key author.admission db.store with
  | .error failure store => .error (.store failure) { db with store }
  | .ok _ store => .ok () { db with
      store
      candidates := note store.loadState.heads (recordsOf store) db.candidates
        (ContestGroup.touchedPaths delta) }

/-- Signs and installs the deltas one after the other. -/
def installForks : List ForkDelta → Nat → Option DeltaHash → ForkDb Unit
  | [], _, _ => pure ()
  | planned :: rest, seq, prev => do
      installFork crypto groupId author (signFork crypto groupId author seq prev planned)
      match AuthorSeq.checkedNext seq with
      | none => throw .lastSequence
      | some next =>
        installForks rest next
          (some ((signFork crypto groupId author seq prev planned).deltaHash crypto))

/-- What moves the losing heads of `owner`, as this device plans it. -/
def planFor (db : ForkStore) (state : NativeState) (owner : AuthorId) : Except ForkError ForkPlan :=
  planForks crypto state owner author.author (kindsIn db.store state) forkLimits

def installPlan (plan : ForkPlan) : ForkDb Unit := do
  let current := (← get).store.frontier[author.author]?
  match current.elim (some AuthorSeq.first) fun entry => AuthorSeq.checkedNext entry.seq with
  | none => throw .lastSequence
  | some seq =>
    installForks crypto groupId author plan.deltas seq
      (current.map NativeAuthorFrontierEntry.tip)

/-- Signs, as the author, the deltas by which the losing heads of `owner` move. -/
def authorForks (owner : AuthorId) (state : NativeState) : ForkDb ForkAuthored := do
  refuseUnlessCurrentAuthor author
  match planFor crypto author (← get) state owner with
  | .error failure => throw (.fork failure)
  | .ok plan =>
    if plan.deltas.isEmpty then
      return ⟨0, plan.waitingForRecords.length, plan.refused.length⟩
    else do
      installPlan crypto groupId author plan
      return ⟨plan.deltas.length, plan.waitingForRecords.length, plan.refused.length⟩

variable (eligible : AuthorId → Bool → Bool)

/-- Whether the pass acts for `owner`: for the author itself, and for whom the rule admits. -/
def admits (db : ForkStore) (owner : AuthorId) : Bool :=
  owner = author.author || eligible owner db.store.closed[owner]?.isSome

/-- The owners of one round that are left; the state is loaded anew after each that forked. -/
def forkOwners : List AuthorId → NativeState → ForkAuthored → ForkDb ForkAuthored
  | [], _, round => return round
  | owner :: rest, state, round => do
      if !admits author eligible (← get) owner then
        forkOwners rest state round
      else do
        let done ← authorForks crypto groupId author owner state
        let loaded := (← get).store.loadState
        forkOwners rest (if 0 < done.deltas then loaded else state)
          ⟨round.deltas + done.deltas, round.waitingForRecords + done.waitingForRecords,
            round.refused + done.refused⟩

def forkRound : ForkDb ForkAuthored := do
  let state := (← get).store.loadState
  forkOwners crypto groupId author eligible (owners state) state ⟨0, 0, 0⟩

/-- At most `rounds` rounds, up to one that signs nothing. -/
def forkRounds : Nat → ForkAuthored → ForkDb ForkAuthored
  | 0, total => return total
  | rounds + 1, total => do
      let round ← forkRound crypto groupId author eligible
      if round.deltas = 0 then
        return ⟨total.deltas + round.deltas, round.waitingForRecords, round.refused⟩
      else
        forkRounds rounds ⟨total.deltas + round.deltas, round.waitingForRecords, round.refused⟩

def finishPass : ForkDb Unit := fun db =>
  .ok () { db with
    candidates := finishAttempt db.store.loadState.heads (recordsOf db.store) db.candidates }

def maxRounds : Nat := 16

def authorAllForks : ForkDb ForkAuthored := do
  if !hasUnattempted (← get).candidates then
    return ⟨0, 0, 0⟩
  else do
    let total ← forkRounds crypto groupId author eligible maxRounds ⟨0, 0, 0⟩
    finishPass
    return total

end Pass

/-! ## Records -/

/-- The record of every version that is live in `state` is stored. -/
def Recorded (store : Store) (state : NativeState) : Prop :=
  ∀ version, LiveVersion state version → (recordsOf store version).isSome = true

theorem recordsOf_congr {store after : Store} (same : after.versions = store.versions) :
    recordsOf after = recordsOf store := by
  funext version
  rw [recordsOf, recordsOf, same]

variable {state : NativeState}

theorem knownKinds {store : Store} (recorded : Recorded store state)
    {heads : PathHeads} (stored : state.heads[path]? = some heads) :
    KnownKinds (kindsIn store state) heads := by
  intro head member
  have inState : heads ∈ state.heads.toList.map Prod.snd :=
    List.mem_map.mpr ⟨(path, heads), mem_toList_iff_getElem?_eq_some.mpr stored, rfl⟩
  have live : state.headAt path head.1 = some head.2 := by
    rw [headAt, pathHeads, stored]
    exact mem_toList_iff_getElem?_eq_some.mp member
  rw [kindsIn, lookupKinds_of_mem inState (List.mem_map.mpr ⟨head, member, rfl⟩)]
  exact recorded _ ⟨path, head.1, head.2, live, rfl⟩

section Passes

variable {crypto : Crypto} {groupId : FolderGroupId} {author : LocalAuthor}
  {eligible : AuthorId → Bool → Bool} {db after : ForkStore} {owner : AuthorId}
  {done round : ForkAuthored}

theorem installFork_ok {delta : NativeDelta}
    (ran : installFork crypto groupId author delta db = .ok () after) :
    ∃ result, installAuthoredDelta crypto groupId delta author.key author.admission db.store =
      .ok result after.store := by
  unfold installFork at ran
  split at ran
  · cases ran
  · rename_i result store installed
    cases ran
    exact ⟨result, installed⟩

theorem recorded_installFork {delta : NativeDelta} (recorded : Recorded db.store db.store.loadState)
    (puts : ∀ op ∈ delta.ops, ∀ put, op.put = some put →
      (recordsOf db.store put.version).isSome = true)
    (ran : installFork crypto groupId author delta db = .ok () after) :
    Recorded after.store after.store.loadState ∧ after.store.versions = db.store.versions := by
  rcases installFork_ok ran with ⟨result, installed⟩
  have versions := installAuthoredDelta_versions installed
  have records := (installAuthoredDelta_records installed).2
  refine ⟨?_, versions⟩
  rintro version ⟨path, dot, payload, live, rfl⟩
  rw [recordsOf_congr versions]
  rw [Store.headAt_loadState, records.applied] at live
  by_cases touched : path ∈ (delta.remoteOps crypto).map RemoteOp.path
  · rcases List.mem_map.mp touched with ⟨op, member, rfl⟩
    rw [headAt_ops_of_mem db.store.loadState _ delta.dot _
      (delta.remoteOps_paths_nodup crypto) member] at live
    rcases live with ⟨_, put⟩ | ⟨_, kept, _⟩
    · have known : ∀ op ∈ delta.remoteOps crypto, ∀ payload, op.put = some payload →
          (recordsOf db.store payload.version).isSome = true := by
        apply @NativeDelta.forall_remoteOps crypto delta fun op => ∀ payload,
          op.put = some payload → (recordsOf db.store payload.version).isSome = true
        intro op inOps removes payload isPut
        rcases map_eq_some_iff.mp isPut with ⟨planned, isPlanned, rfl⟩
        exact puts op inOps planned isPlanned
      exact known op member payload put
    · exact recorded _ ⟨op.path, dot, payload, kept, rfl⟩
  · rw [headAt_ops_of_not_mem db.store.loadState _ delta.dot _ touched] at live
    exact recorded _ ⟨path, dot, payload, live, rfl⟩

theorem recorded_installForks {deltas : List ForkDelta} {seq : Nat} {prev : Option DeltaHash}
    (recorded : Recorded db.store db.store.loadState)
    (puts : ∀ delta ∈ deltas, ∀ op ∈ delta.ops, ∀ put, op.put = some put →
      (recordsOf db.store put.version).isSome = true)
    (ran : installForks crypto groupId author deltas seq prev db = .ok () after) :
    Recorded after.store after.store.loadState := by
  induction deltas generalizing seq prev db with
  | nil =>
    cases ran
    exact recorded
  | cons planned rest induction =>
    rw [installForks] at ran
    rcases bind_eq_ok_iff.mp ran with ⟨_, middle, installed, continued⟩
    have signedPuts : ∀ op ∈ (signFork crypto groupId author seq prev planned).ops,
        ∀ put, op.put = some put → (recordsOf db.store put.version).isSome = true := by
      intro op member put isPut
      rcases List.mem_map.mp member with ⟨fork, inPlan, rfl⟩
      exact puts planned List.mem_cons_self fork inPlan put isPut
    rcases recorded_installFork recorded signedPuts installed with ⟨recordedNext, versions⟩
    cases next : AuthorSeq.checkedNext seq with
    | none =>
      simp only [next] at continued
      cases continued
    | some following =>
      simp only [next] at continued
      refine induction recordedNext ?_ continued
      intro delta later
      rw [recordsOf_congr versions]
      exact puts delta (.tail _ later)

/-! ## One owner -/

theorem refuseUnlessCurrentAuthor_ok
    (ran : refuseUnlessCurrentAuthor author db = .ok () after) : after = db := by
  unfold refuseUnlessCurrentAuthor at ran
  split at ran
  · cases ran
    rfl
  · split at ran
    · cases ran
    · split at ran
      · cases ran
      · cases ran
        rfl

theorem installPlan_ok {plan : ForkPlan}
    (ran : installPlan crypto groupId author plan db = .ok () after) :
    ∃ seq prev, installForks crypto groupId author plan.deltas seq prev db = .ok () after := by
  unfold installPlan at ran
  rcases bind_eq_ok_iff.mp ran with ⟨_, _, got, ran⟩
  cases got
  cases next : (db.store.frontier[author.author]?).elim (some AuthorSeq.first) fun entry =>
      AuthorSeq.checkedNext entry.seq with
  | none =>
    simp only [next] at ran
    cases ran
  | some seq =>
    simp only [next] at ran
    exact ⟨seq, _, ran⟩

/-- The deltas are those of the plan, each installed; without any the store stays as it is. -/
theorem authorForks_ok (ran : authorForks crypto groupId author owner state db = .ok done after) :
    ∃ plan, planFor crypto author db state owner = .ok plan ∧ done.deltas = plan.deltas.length ∧
      ((plan.deltas = [] ∧ after = db) ∨
        ∃ seq prev, installForks crypto groupId author plan.deltas seq prev db = .ok () after) := by
  unfold authorForks at ran
  rcases bind_eq_ok_iff.mp ran with ⟨_, checked, refused, ran⟩
  cases refuseUnlessCurrentAuthor_ok refused
  rcases bind_eq_ok_iff.mp ran with ⟨_, _, got, ran⟩
  cases got
  cases planned : planFor crypto author db state owner with
  | error failure =>
    rw [planned] at ran
    cases ran
  | ok plan =>
    rw [planned] at ran
    dsimp only at ran
    refine ⟨plan, rfl, ?_⟩
    by_cases empty : plan.deltas.isEmpty = true
    · rw [if_pos empty] at ran
      cases ran
      have none := List.isEmpty_iff.mp empty
      exact ⟨by rw [none]; rfl, .inl ⟨none, rfl⟩⟩
    · rw [if_neg empty] at ran
      rcases bind_eq_ok_iff.mp ran with ⟨_, installed, installs, finished⟩
      cases finished
      refine ⟨rfl, .inr ?_⟩
      exact installPlan_ok installs

def NothingFor (crypto : Crypto) (author : LocalAuthor) (db : ForkStore) (state : NativeState)
    (owner : AuthorId) : Prop :=
  ∃ plan, planFor crypto author db state owner = .ok plan ∧ plan.deltas = []

theorem authorForks_idle (ran : authorForks crypto groupId author owner state db = .ok done after)
    (idle : ¬0 < done.deltas) : after = db ∧ NothingFor crypto author db state owner := by
  rcases authorForks_ok ran with ⟨plan, planned, count, installed⟩
  have none : plan.deltas = [] := by
    rw [← List.length_eq_zero_iff]
    omega
  refine ⟨?_, plan, planned, none⟩
  rcases installed with ⟨_, unchanged⟩ | ⟨seq, prev, installs⟩
  · exact unchanged
  · rw [none] at installs
    cases installs
    rfl

theorem recorded_authorForks (recorded : Recorded db.store db.store.loadState)
    (inState : Recorded db.store state)
    (ran : authorForks crypto groupId author owner state db = .ok done after) :
    Recorded after.store after.store.loadState := by
  rcases authorForks_ok ran with ⟨plan, planned, _, ⟨_, rfl⟩ | ⟨seq, prev, installs⟩⟩
  · exact recorded
  · refine recorded_installForks recorded ?_ installs
    intro delta member op inOps put isPut
    exact inState _ (planForks_putsLive planned delta member op inOps put isPut)

/-! ## One round -/

theorem forkOwners_cons_ok {rest : List AuthorId}
    (ran : forkOwners crypto groupId author eligible (owner :: rest) state round db =
      .ok done after) :
    (admits author eligible db owner = false ∧
        forkOwners crypto groupId author eligible rest state round db = .ok done after) ∨
      ∃ forked middle next, authorForks crypto groupId author owner state db = .ok forked middle ∧
        next.deltas = round.deltas + forked.deltas ∧
        forkOwners crypto groupId author eligible rest
          (if 0 < forked.deltas then middle.store.loadState else state) next middle =
            .ok done after := by
  rw [forkOwners] at ran
  rcases bind_eq_ok_iff.mp ran with ⟨_, _, got, ran⟩
  cases got
  cases admitted : admits author eligible db owner with
  | false =>
    rw [admitted] at ran
    exact .inl ⟨rfl, ran⟩
  | true =>
    rw [admitted] at ran
    rcases bind_eq_ok_iff.mp ran with ⟨forked, middle, forks, ran⟩
    rcases bind_eq_ok_iff.mp ran with ⟨_, _, got, ran⟩
    cases got
    exact .inr ⟨forked, middle, _, forks, rfl, ran⟩

/-- Rounds only count up; a round that adds nothing found nothing to plan, and wrote nothing. -/
theorem quiet_forkOwners {list : List AuthorId}
    (ran : forkOwners crypto groupId author eligible list state round db = .ok done after) :
    round.deltas ≤ done.deltas ∧ (done.deltas = round.deltas → after = db ∧
      ∀ owner ∈ list, admits author eligible db owner = true →
        NothingFor crypto author db state owner) := by
  induction list generalizing state round db with
  | nil =>
    cases ran
    exact ⟨Nat.le_refl _, fun _ => ⟨rfl, fun _ member => absurd member List.not_mem_nil⟩⟩
  | cons owner rest induction =>
    rcases forkOwners_cons_ok ran with
      ⟨unadmitted, continued⟩ | ⟨forked, middle, next, forks, counted, continued⟩
    · rcases induction continued with ⟨above, quiet⟩
      refine ⟨above, ?_⟩
      intro same
      rcases quiet same with ⟨unchanged, nothing⟩
      refine ⟨unchanged, ?_⟩
      intro other member admitted
      rcases List.mem_cons.mp member with rfl | later
      · rw [unadmitted] at admitted
        cases admitted
      · exact nothing other later admitted
    · rcases induction continued with ⟨above, quiet⟩
      refine ⟨by omega, ?_⟩
      intro same
      have idle : ¬0 < forked.deltas := by omega
      rcases authorForks_idle forks idle with ⟨rfl, nothingHere⟩
      rw [if_neg idle] at quiet
      rcases quiet (by omega) with ⟨unchanged, nothing⟩
      refine ⟨unchanged, ?_⟩
      intro other member admitted
      rcases List.mem_cons.mp member with rfl | later
      · exact nothingHere
      · exact nothing other later admitted

theorem recorded_forkOwners {list : List AuthorId}
    (recorded : Recorded db.store db.store.loadState) (inState : Recorded db.store state)
    (ran : forkOwners crypto groupId author eligible list state round db = .ok done after) :
    Recorded after.store after.store.loadState := by
  induction list generalizing state round db with
  | nil =>
    cases ran
    exact recorded
  | cons owner rest induction =>
    rcases forkOwners_cons_ok ran with
      ⟨_, continued⟩ | ⟨forked, middle, next, forks, _, continued⟩
    · exact induction recorded inState continued
    · have recordedNext := recorded_authorForks recorded inState forks
      refine induction recordedNext ?_ continued
      split
      · exact recordedNext
      · rename_i idle
        rcases authorForks_idle forks idle with ⟨rfl, _⟩
        exact inState

theorem mem_owners {dot : Dot} (live : (state.headAt path dot).isSome = true) :
    dot.author ∈ owners state := by
  rw [headAt, pathHeads] at live
  cases stored : state.heads[path]? with
  | none =>
    rw [stored] at live
    simp at live
  | some heads =>
    rw [stored] at live
    rw [owners, ExtTreeSet.mem_toList, ExtTreeSet.mem_ofList, List.contains_iff_mem,
      List.mem_flatMap]
    refine ⟨(path, heads), mem_toList_iff_getElem?_eq_some.mpr stored, ?_⟩
    exact List.mem_map.mpr ⟨dot, mem_keys.mpr
      (mem_iff_isSome_getElem?.mpr live), rfl⟩

theorem nothing_of_quiet_round (ran : forkRound crypto groupId author eligible db = .ok round after)
    (quiet : round.deltas = 0) :
    ∀ owner, admits author eligible after owner = true →
      NothingFor crypto author after after.store.loadState owner := by
  rcases bind_eq_ok_iff.mp ran with ⟨_, _, got, ran⟩
  cases got
  rcases (quiet_forkOwners ran).2 quiet with ⟨rfl, nothing⟩
  intro owner admitted
  by_cases held : owner ∈ owners after.store.loadState
  · exact nothing owner held admitted
  · apply planForks_of_unowned
    · rintro path dot live rfl
      exact held (mem_owners live)
    · decide

/-! ## The rounds of a pass -/

/-- Each of the next `rounds` rounds signs a delta. -/
def EachRoundSigns (crypto : Crypto) (groupId : FolderGroupId) (author : LocalAuthor)
    (eligible : AuthorId → Bool → Bool) : Nat → ForkStore → Prop
  | 0, _ => True
  | rounds + 1, db => ∃ round after, forkRound crypto groupId author eligible db = .ok round after ∧
      0 < round.deltas ∧ EachRoundSigns crypto groupId author eligible rounds after

theorem forkRounds_succ_ok
    (ran : forkRounds crypto groupId author eligible (rounds + 1) total db = .ok result after) :
    ∃ round middle, forkRound crypto groupId author eligible db = .ok round middle ∧
      ((round.deltas = 0 ∧ after = middle) ∨ (0 < round.deltas ∧ ∃ next,
        forkRounds crypto groupId author eligible rounds next middle = .ok result after)) := by
  rw [forkRounds] at ran
  rcases bind_eq_ok_iff.mp ran with ⟨round, middle, ranRound, ran⟩
  refine ⟨round, middle, ranRound, ?_⟩
  by_cases quiet : round.deltas = 0
  · rw [if_pos quiet] at ran
    cases ran
    exact .inl ⟨quiet, rfl⟩
  · rw [if_neg quiet] at ran
    exact .inr ⟨Nat.pos_of_ne_zero quiet, _, ran⟩

theorem nothing_after_rounds
    (ends : ¬EachRoundSigns crypto groupId author eligible rounds db)
    (ran : forkRounds crypto groupId author eligible rounds total db = .ok result after) :
    ∀ owner, admits author eligible after owner = true →
      NothingFor crypto author after after.store.loadState owner := by
  induction rounds generalizing total db with
  | zero => exact absurd trivial ends
  | succ rounds induction =>
    rcases forkRounds_succ_ok ran with
      ⟨round, middle, ranRound, ⟨quiet, rfl⟩ | ⟨signs, next, continued⟩⟩
    · exact nothing_of_quiet_round ranRound quiet
    · apply induction _ continued
      intro later
      exact ends ⟨round, middle, ranRound, signs, later⟩

theorem recorded_forkRounds
    (recorded : Recorded db.store db.store.loadState)
    (ran : forkRounds crypto groupId author eligible rounds total db = .ok result after) :
    Recorded after.store after.store.loadState := by
  have round : ∀ {db after : ForkStore} {round : ForkAuthored},
      Recorded db.store db.store.loadState →
      forkRound crypto groupId author eligible db = .ok round after →
        Recorded after.store after.store.loadState := by
    intro db after round recorded ranRound
    rcases bind_eq_ok_iff.mp ranRound with ⟨_, _, got, ranRound⟩
    cases got
    exact recorded_forkOwners recorded recorded ranRound
  induction rounds generalizing total db with
  | zero =>
    cases ran
    exact recorded
  | succ rounds induction =>
    rcases forkRounds_succ_ok ran with
      ⟨_, middle, ranRound, ⟨_, rfl⟩ | ⟨_, next, continued⟩⟩
    · exact round recorded ranRound
    · exact induction (round recorded ranRound) continued

/-! ## What a pass leaves -/

/-- The heads at the path that have to move are of authors the pass does not act for, or their plan
refuses the path. -/
def OutOfReach (crypto : Crypto) (author : LocalAuthor) (eligible : AuthorId → Bool → Bool)
    (db : ForkStore) (path : SyncPath) : Prop :=
  ∀ dot payload, db.store.loadState.headAt path dot = some payload →
    admits author eligible db dot.author = true →
    loses ⟨dot, payload⟩ (kindsIn db.store db.store.loadState)
      (db.store.loadState.pathHeads path) (hasDescendant db.store.loadState path) ≠ some false →
    ∃ plan error, planFor crypto author db db.store.loadState dot.author = .ok plan ∧
      plan.deltas = [] ∧ (path, error) ∈ plan.refused

theorem outOfReach (recorded : Recorded db.store db.store.loadState)
    (nothing : ∀ owner, admits author eligible db owner = true →
      NothingFor crypto author db db.store.loadState owner) (path : SyncPath) :
    OutOfReach crypto author eligible db path := by
  intro dot payload live admitted moves
  rcases nothing dot.author admitted with ⟨plan, planned, none⟩
  rw [headAt] at live
  cases stored : db.store.loadState.heads[path]? with
  | none =>
    rw [pathHeads, stored] at live
    simp at live
  | some heads =>
    have same : db.store.loadState.pathHeads path = heads := by
      rw [pathHeads, stored]
      rfl
    rw [same] at live moves
    have known := knownKinds recorded stored
    have judged := loses_isSome known (mem_toList_iff_getElem?_eq_some.mpr live)
      (hasDescendant db.store.loadState path)
    rcases isSome_iff_exists.mp judged with ⟨answer, answers⟩
    have isTrue : answer = true := by
      cases answer with
      | true => rfl
      | false => exact absurd answers moves
    rw [isTrue] at answers
    rcases refuses_losing_head planned none stored known live rfl answers with ⟨error, refused⟩
    exact ⟨plan, error, planned, none, refused⟩

theorem getElem?_finishAttempt {heads : HeadMap} {records : VersionHash → Option RecordKind}
    {candidates : ContestTable}
    (member : path ∈ finishAttempt heads records candidates) :
    (finishAttempt heads records candidates)[path]? = some true := by
  rw [mem_iff_isSome_getElem?, finishAttempt, getElem?_map] at member
  rw [finishAttempt, getElem?_map]
  rcases isSome_iff_exists.mp member with ⟨found, finds⟩
  rcases map_eq_some_iff.mp finds with ⟨before, held, _⟩
  rw [held]
  rfl

end Passes

namespace SamplePass

def laptop : AuthorId := ⟨"laptop", 1⟩

def phone : AuthorId := ⟨"phone", 1⟩

def localAuthor : LocalAuthor := ⟨phone, Crypto.sampleSign 5, 5, none⟩

def file : FileVersion := ⟨[], 0, ⟨0, none, none, .file, []⟩⟩

/-- One path with a head of each author; the laptop's loses. -/
def contested : Store :=
  { Store.empty with
    context := (ExtTreeMap.insert ∅ laptop 1).insert phone 1
    heads := (ExtTreeMap.insert ∅ (⟨"a", ⟨laptop, 1⟩⟩ : HeadKey) (⟨⟨7⟩, ⟨1⟩⟩ : HeadPayload)).insert
      ⟨"a", ⟨phone, 1⟩⟩ ⟨⟨9⟩, ⟨2⟩⟩
    versions := (ExtTreeMap.insert ∅ (⟨7⟩ : VersionHash) file).insert ⟨9⟩ file }

def unattempted : ForkStore := ⟨none, contested, ExtTreeMap.insert ∅ "a" false⟩

/-- The phone has looked at the path while it could not act for the laptop. -/
def attempted : ForkStore := ⟨none, contested, ExtTreeMap.insert ∅ "a" true⟩

theorem recorded : Recorded contested contested.loadState := by
  rintro version ⟨path, dot, payload, live, rfl⟩
  rw [Store.headAt_loadState] at live
  simp only [contested, OrderedMap.getElem?_insert_eq, getElem?_empty] at live
  split at live
  · cases live
    decide
  · split at live
    · cases live
      decide
    · cases live

set_option maxRecDepth 16384 in
theorem first_pass :
    authorAllForks Crypto.sample "group" localAuthor (fun _ _ => false) unattempted =
      .ok ⟨0, 0, 0⟩ attempted := rfl

set_option maxRecDepth 16384 in
theorem first_round : forkRound Crypto.sample "group" localAuthor (fun _ _ => false) unattempted =
      .ok ⟨0, 0, 0⟩ unattempted := rfl

end SamplePass

end Yadorilink.ForkPass
