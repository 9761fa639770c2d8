import Yadorilink.Admission.Isolation

/-! The hold queue loses nothing. A hold row keeps one blocker at a time, and
the cascade that follows it changes the rows as it goes; what makes it complete
is that between two turns every row waits on a dot that is still unobserved, or
its delta is in the cascade's queue. -/

namespace Yadorilink

open Std Transaction List NativeDelta

/-! ## Complete sets of deltas -/

/-- `delta` cannot be applied before `needed`: it continues it, or removes a
head of it. -/
def NativeDelta.Needs (delta needed : NativeDelta) : Prop :=
  needed.dot = ⟨delta.author, delta.seq - 1⟩ ∨ needed.dot ∈ delta.namedDots

/-- Deltas with everything they need: each author's are one unbroken chain from
its first, and no delta needs itself, however indirectly. -/
structure CompleteSet (crypto : Crypto) (deltas : List NativeDelta) : Prop where
  decodes : ∀ delta, delta ∈ deltas → delta.decodable = true
  oneEach : ∀ first, first ∈ deltas → ∀ second, second ∈ deltas →
    first.dot = second.dot → first = second
  first : ∀ delta, delta ∈ deltas → delta.seq = 1 → delta.prev = none
  previous : ∀ delta, delta ∈ deltas → 1 < delta.seq → ∃ earlier, earlier ∈ deltas ∧
    earlier.dot = ⟨delta.author, delta.seq - 1⟩ ∧ delta.prev = some (earlier.deltaHash crypto)
  named : ∀ delta, delta ∈ deltas → ∀ dot, dot ∈ delta.namedDots →
    ∃ needed, needed ∈ deltas ∧ needed.dot = dot
  acyclic : ∀ delta, ¬Relation.TransGen
    (fun needed delta => needed ∈ deltas ∧ delta ∈ deltas ∧ delta.Needs needed) delta delta

/-- What holds of a delta whenever it holds of all it needs holds of every
delta of the set. -/
theorem CompleteSet.induction {crypto : Crypto} {deltas : List NativeDelta}
    (complete : CompleteSet crypto deltas) (holds : NativeDelta → Prop)
    (step : ∀ delta, delta ∈ deltas →
      (∀ needed, needed ∈ deltas → delta.Needs needed → holds needed) → holds delta) :
    ∀ delta, delta ∈ deltas → holds delta := by
  let before : NativeDelta → NativeDelta → Prop :=
    fun needed delta => needed ∈ deltas ∧ delta ∈ deltas ∧ delta.Needs needed
  let among : {delta // delta ∈ deltas} → {delta // delta ∈ deltas} → Prop :=
    fun needed delta => Relation.TransGen before needed.1 delta.1
  have transitive : IsTrans _ among := ⟨fun _ _ _ first second => first.trans second⟩
  have irreflexive : Std.Irrefl among := ⟨fun delta => complete.acyclic delta.1⟩
  have wellFounded : WellFounded among := Finite.wellFounded_of_trans_of_irrefl among
  intro delta member
  have all := wellFounded.induction (C := fun delta => holds delta.1) ⟨delta, member⟩
  apply all
  intro current earlier
  exact step current.1 current.2 fun needed inSet needs =>
    earlier ⟨needed, inSet⟩ (.single ⟨inSet, current.2, needs⟩)

variable {dot : Dot}

theorem CompleteSet.needed_of_blocked {crypto : Crypto} {deltas : List NativeDelta}
    (complete : CompleteSet crypto deltas) {delta : NativeDelta} (member : delta ∈ deltas)
    {store : Store} (blocked : Blocked store delta dot) :
    ∃ needed, needed ∈ deltas ∧ delta.Needs needed ∧ needed.dot = dot := by
  cases blocked with
  | predecessor ahead =>
    rcases complete.previous delta member (by omega) with ⟨earlier, inSet, sameDot, _⟩
    exact ⟨earlier, inSet, Or.inl sameDot, sameDot⟩
  | context chain first =>
    have isNamed := (Store.firstUnobserved_eq_some first).1
    rcases complete.named delta member dot isNamed with ⟨needed, inSet, sameDot⟩
    exact ⟨needed, inSet, Or.inr (sameDot ▸ isNamed), sameDot⟩

/-! ## Runs without an incident -/

/-- Whether one more hold of `author` can be taken without dropping one. -/
def Store.hasRoomFor (store : Store) (author : AuthorId) : Bool :=
  store.holds.countP (fun row => row.delta.author = author) < maxHeldPerAuthor &&
    store.holds.length < maxHeldPerGroup

section Uneventful

variable (crypto : Crypto) (groupId : FolderGroupId)

/-- Whether an attempt admits its delta, finds it known, or holds it without
dropping another hold. -/
def uneventfulAttempt (delta : NativeDelta) (key : VerifyingKey) (now : Int) (store : Store) :
    Bool :=
  match applyOrHold crypto groupId delta key now store with
  | .ok (.admitted _) _ => true
  | .ok .duplicate _ => true
  | .ok (.held _) _ => store.holdExists delta.dot || store.hasRoomFor delta.author
  | _ => false

def uneventfulRetry (keyFor : KeyFor) (now : Int) (held : NativeDelta) (store : Store) : Bool :=
  !store.holdExists held.dot || (heldDeltaKey crypto store held keyFor).all fun key =>
    uneventfulAttempt crypto groupId held key now store

/-- Whether every attempt of a cascade is uneventful. -/
def uneventfulRelease (keyFor : KeyFor) (now : Int) : Nat → List NativeDelta → Store → Bool
  | 0, _, _ => true
  | turns + 1, queue, store =>
    match queue.getLast? with
    | none => true
    | some held =>
      uneventfulRetry crypto groupId keyFor now held store &&
        match retryHeld crypto groupId keyFor now held store with
        | .ok turn after =>
          uneventfulRelease keyFor now turns (queue.dropLast ++ turn.waiters) after
        | .error _ _ => false

def uneventfulCall (store : Store) (call : AdmissionCall) : Bool :=
  (call.keyFor call.delta.author).all fun key =>
    uneventfulAttempt crypto groupId call.delta key call.now store &&
      match applyOrHold crypto groupId call.delta key call.now store with
      | .ok (.admitted dot) after =>
        uneventfulRelease crypto groupId call.keyFor call.now
          (cascadeTurns after.holds.length) (after.waitersOf dot) after
      | _ => true

/-- Whether every attempt of a run is uneventful, those of its cascades
included. -/
def uneventfulRun : Store → List AdmissionCall → Bool
  | _, [] => true
  | store, call :: rest =>
    uneventfulCall crypto groupId store call &&
      uneventfulRun (admitOne crypto groupId store call) rest

end Uneventful

/-! ## The invariant of the queue -/

/-- Between two turns: every hold is of a delta of the set that is not
installed and waits on one it needs, and either that one is unobserved or the
delta is queued to be retried. -/
structure Waiting (crypto : Crypto) (deltas queue : List NativeDelta) (store : Store) : Prop where
  sound : store.Sound crypto
  unparked : store.pending = ∅
  installed : ∀ delta, delta ∈ store.installedDeltas crypto → delta ∈ deltas
  held : ∀ row, row ∈ store.holds → row.delta ∈ deltas
  unlogged : ∀ row, row ∈ store.holds → store.log[row.delta.dot]? = none
  blocker : ∀ row, row ∈ store.holds → ∃ needed, needed ∈ deltas ∧ row.delta.Needs needed ∧
    needed.dot = row.waitingOn
  waits : ∀ row, row ∈ store.holds → row.delta ∈ queue ∨
    observedBy store.context row.waitingOn = false

def Store.Has (crypto : Crypto) (store : Store) (delta : NativeDelta) : Prop :=
  delta ∈ store.installedDeltas crypto ∨ ∃ row, row ∈ store.holds ∧ row.delta = delta

theorem makeRoom_eq_self {store : Store} {author : AuthorId}
    (room : store.hasRoomFor author = true) : makeRoom author store.holds = store.holds := by
  rw [Store.hasRoomFor, Bool.and_eq_true, decide_eq_true_eq, decide_eq_true_eq] at room
  have ofAuthor : store.holds.countP (fun row => row.delta.author = author) -
      (maxHeldPerAuthor - 1) = 0 := by
    have bound := room.1
    omega
  have ofGroup : store.holds.countP (fun _ => true) - (maxHeldPerGroup - 1) = 0 := by
    have bound := room.2
    rw [countP_true]
    omega
  rw [makeRoom, evictOldestHolds, evictOldestHolds, ofAuthor, dropOldest, ofGroup, dropOldest]

theorem Installs.newly_observed {crypto : Crypto} {delta : NativeDelta} {before after : Store}
    (installs : Installs crypto delta before after) (sound : before.Sound crypto)
    (positive : 1 ≤ dot.seq) (observed : observedBy after.context dot = true) :
    observedBy before.context dot = true ∨ dot = delta.dot := by
  rw [observedBy_iff, installs.context_eq, OrderedMap.getElem?_insert_eq] at observed
  rcases observed with ⟨seq, known, within⟩
  have next := installs.seq_eq
  by_cases sameAuthor : delta.author = dot.author
  · rw [if_pos sameAuthor] at known
    cases known
    by_cases sameSeq : dot.seq = delta.seq
    · right
      cases dot
      simp_all [dot]
    · left
      rw [sound.observed_iff, ← sameAuthor]
      cases position : before.frontier[delta.author]? with
      | none =>
        rw [position] at next
        simp only [positionSeq, Option.map_none, Option.getD_none] at next
        omega
      | some entry =>
        rw [position] at next
        simp only [positionSeq, Option.map_some, Option.getD_some] at next
        exact ⟨entry, rfl, by omega⟩
  · rw [if_neg sameAuthor] at known
    exact Or.inl ((observedBy_iff _ _).mpr ⟨seq, known, within⟩)

variable {now : Int}

namespace Waiting

variable {crypto : Crypto} {groupId : FolderGroupId} {deltas queue : List NativeDelta}
  {store : Store}

theorem weaken (waiting : Waiting crypto deltas queue store) {longer : List NativeDelta}
    (queued : ∀ row, row ∈ store.holds → row.delta ∈ queue → row.delta ∈ longer) :
    Waiting crypto deltas longer store where
  sound := waiting.sound
  unparked := waiting.unparked
  installed := waiting.installed
  held := waiting.held
  unlogged := waiting.unlogged
  blocker := waiting.blocker
  waits := fun row member => (waiting.waits row member).imp (queued row member) id

variable (complete : CompleteSet crypto deltas) (waiting : Waiting crypto deltas queue store)
  {delta : NativeDelta} (member : delta ∈ deltas)

include complete waiting member

theorem row_delta_eq {row : HoldRow} (inHolds : row ∈ store.holds)
    (sameDot : row.delta.dot = delta.dot) : row.delta = delta :=
  complete.oneEach _ (waiting.held row inHolds) _ member sameDot

theorem installed_of_logged {hash : DeltaHash} (logged : store.log[delta.dot]? = some hash) :
    delta ∈ store.installedDeltas crypto := by
  rcases waiting.sound.body _ _ logged with ⟨other, inStore, sameDot, _⟩
  rw [complete.oneEach delta member other (waiting.installed other inStore) sameDot.symm]
  exact inStore

theorem admitted {key : VerifyingKey} {installed : Store}
    (admissible : Admissible crypto groupId delta key store)
    (installs : Installs crypto delta store installed) {next : List NativeDelta}
    (queued : ∀ other, other ∈ queue → other ≠ delta → other ∈ next)
    (released : ∀ other, other ∈ (installed.clearHold delta.dot).waitersOf delta.dot →
      other ∈ next) :
    Waiting crypto deltas next (installed.clearHold delta.dot) := by
  have attempt : Attempt crypto groupId delta key 0 store (.admitted delta.dot)
    (installed.clearHold delta.dot) := .admitted admissible installs
  have soundAfter := attempt.sound waiting.sound (complete.decodes delta member)
  -- The rows that stay are those of other dots.
  have stays : ∀ row, row ∈ (installed.clearHold delta.dot).holds →
      row ∈ store.holds ∧ row.delta.dot ≠ delta.dot := by
    intro row inHolds
    rcases mem_filter.mp inHolds with ⟨before, other⟩
    exact ⟨installs.holds_eq ▸ before, of_decide_eq_true other⟩
  refine ⟨soundAfter, installs.pending_eq.trans waiting.unparked, ?_,
    fun row inHolds => waiting.held row (stays row inHolds).1, ?_,
    fun row inHolds => waiting.blocker row (stays row inHolds).1, ?_⟩
  · intro other inStore
    rcases attempt.installed_of_mem waiting.sound inStore with same | before
    · exact same ▸ member
    · exact waiting.installed other before
  · intro row inHolds
    rcases stays row inHolds with ⟨before, other⟩
    change installed.log[row.delta.dot]? = none
    rw [installs.log_eq, OrderedMap.getElem?_insert_eq, if_neg (Ne.symm other)]
    exact waiting.unlogged row before
  · intro row inHolds
    rcases stays row inHolds with ⟨before, other⟩
    rcases waiting.waits row before with inQueue | unobserved
    · exact Or.inl (queued row.delta inQueue fun same => other (congrArg dot same))
    · by_cases onDelta : row.waitingOn = delta.dot
      · refine Or.inl (released row.delta (mem_map_of_mem (mem_filter.mpr ⟨inHolds, ?_⟩)))
        exact decide_eq_true onDelta
      · right
        rw [← Bool.not_eq_true]
        intro observed
        rcases waiting.blocker row before with ⟨needed, inSet, _, sameDot⟩
        have positive : 1 ≤ row.waitingOn.seq := by
          rw [← sameDot]
          exact (seq_inRange (complete.decodes needed inSet)).1
        rcases installs.newly_observed waiting.sound positive observed with earlier | own
        · rw [unobserved] at earlier
          cases earlier
        · exact onDelta own

/-- Holding the delta leaves one row of it, which waits on `dot`, and every
other row as it was. -/
theorem rows_of_held {after : Store} (ran : hold crypto delta dot now store = .ok .held after)
    (room : store.holdExists delta.dot = true ∨ store.hasRoomFor delta.author = true) :
    ∃ holds, after = { store with holds := holds } ∧
      (∀ row, row ∈ holds → (row ∈ store.holds ∧ row.delta ≠ delta) ∨
        (row.delta = delta ∧ row.waitingOn = dot)) ∧
      (∃ row, row ∈ holds ∧ row.delta = delta) ∧
      ∀ row, row ∈ store.holds → ∃ kept, kept ∈ holds ∧ kept.delta = row.delta := by
  rcases hold_held ran with ⟨holds, left, ⟨existing, found, repointed⟩ | ⟨found, taken⟩⟩
  · have inHolds := mem_of_find?_eq_some found
    have sameDot : existing.delta.dot = delta.dot := by simpa using find?_some found
    have moved : ∀ row, row ∈ store.holds →
        (if row.delta.dot = delta.dot then { row with waitingOn := dot } else row).delta =
          row.delta := by
      intro row _
      split
      · rfl
      · rfl
    refine ⟨holds, left, ?_, ?_, ?_⟩
    · intro row inAfter
      rw [repointed] at inAfter
      rcases mem_map.mp inAfter with ⟨old, before, rfl⟩
      by_cases own : old.delta.dot = delta.dot
      · have same := row_delta_eq complete waiting member before own
        rw [if_pos own]
        exact Or.inr ⟨same, rfl⟩
      · rw [if_neg own]
        exact Or.inl ⟨before, fun same => own (congrArg NativeDelta.dot same)⟩
    · refine ⟨_, repointed ▸ mem_map_of_mem inHolds, ?_⟩
      exact (moved existing inHolds).trans (row_delta_eq complete waiting member inHolds sameDot)
    · intro row before
      exact ⟨_, repointed ▸ mem_map_of_mem before, moved row before⟩
  · have hasRoom : store.hasRoomFor delta.author = true := by
      rcases room with exists_ | hasRoom
      · rw [Store.holdExists, found] at exists_
        cases exists_
      · exact hasRoom
    rw [makeRoom_eq_self hasRoom] at taken
    refine ⟨holds, left, ?_, ?_, ?_⟩
    · intro row inAfter
      rw [taken] at inAfter
      rcases mem_append.mp inAfter with before | new
      · exact Or.inl ⟨before, fun same =>
          Store.ne_of_holdOf_none found before (congrArg NativeDelta.dot same)⟩
      · rw [mem_singleton] at new
        rw [new]
        exact Or.inr ⟨rfl, rfl⟩
    · refine ⟨⟨delta, dot, now⟩, ?_, rfl⟩
      rw [taken]
      exact mem_append_right _ (.head _)
    · intro row before
      refine ⟨row, ?_, rfl⟩
      rw [taken]
      exact mem_append_left _ before

theorem heldFor {after : Store} (blocked : Blocked store delta dot)
    (ran : hold crypto delta dot now store = .ok .held after)
    (room : store.holdExists delta.dot = true ∨ store.hasRoomFor delta.author = true)
    {next : List NativeDelta} (queued : ∀ other, other ∈ queue → other ≠ delta → other ∈ next) :
    Waiting crypto deltas next after := by
  have attempt : Attempt crypto delta.groupId delta 0 now store (.held dot) after :=
    .held blocked ran
  have soundAfter := attempt.sound waiting.sound (complete.decodes delta member)
  have unobserved := blocked.unobserved waiting.sound
  have unlogged : store.log[delta.dot]? = none := by
    cases logged : store.log[delta.dot]? with
    | none => rfl
    | some hash =>
      have within := waiting.sound.consistent.logged delta.dot hash logged
      have ahead := blocked.ahead
      simp only [NativeDelta.dot] at within
      omega
  rcases rows_of_held complete waiting member ran room with ⟨holds, rfl, rows, _⟩
  refine ⟨soundAfter, waiting.unparked, waiting.installed, ?_, ?_, ?_, ?_⟩
  · intro row inHolds
    rcases rows row inHolds with ⟨before, _⟩ | ⟨own, _⟩
    · exact waiting.held row before
    · exact own ▸ member
  · intro row inHolds
    rcases rows row inHolds with ⟨before, _⟩ | ⟨own, _⟩
    · exact waiting.unlogged row before
    · exact own ▸ unlogged
  · intro row inHolds
    rcases rows row inHolds with ⟨before, _⟩ | ⟨own, onDot⟩
    · exact waiting.blocker row before
    · rw [own, onDot]
      exact complete.needed_of_blocked member blocked
  · intro row inHolds
    rcases rows row inHolds with ⟨before, other⟩ | ⟨_, onDot⟩
    · exact (waiting.waits row before).imp_left fun inQueue => queued row.delta inQueue other
    · rw [onDot]
      exact Or.inr unobserved

/-- One uneventful attempt: the store has the delta, loses none, and the queue
without the delta covers what is left, once it has those the delta released. -/
theorem attempt {key : VerifyingKey}
    (uneventful : uneventfulAttempt crypto groupId delta key now store = true) :
    ∃ step after, applyOrHold crypto groupId delta key now store = .ok step after ∧
      after.Has crypto delta ∧ (∀ other, store.Has crypto other → after.Has crypto other) ∧
      (∀ dot, step = .admitted dot → dot = delta.dot) ∧ step.dooms = false ∧
      ∀ next : List NativeDelta, (∀ other, other ∈ queue → other ≠ delta → other ∈ next) →
        (∀ dot, step = .admitted dot → ∀ other, other ∈ after.waitersOf dot → other ∈ next) →
        Waiting crypto deltas next after := by
  have decodes := complete.decodes delta member
  rcases applyOrHold_cases crypto groupId key now waiting.sound.consistent decodes with
    ⟨step, after, ran, attempt⟩ | ⟨failure, ran, _⟩
  swap
  · simp [uneventfulAttempt, ran] at uneventful
  have spares := attempt.spares waiting.sound.quiet
  refine ⟨step, after, ran, ?_⟩
  rw [uneventfulAttempt, ran] at uneventful
  cases attempt with
  | @admitted installed admissible installs =>
    refine ⟨?_, ?_, ?_, spares, ?_⟩
    · left
      change delta ∈ installed.installedDeltas crypto
      rw [installs.installedDeltas_eq waiting.sound]
      exact Set.mem_insert ..
    · intro other has
      by_cases same : other = delta
      · left
        change other ∈ installed.installedDeltas crypto
        rw [installs.installedDeltas_eq waiting.sound]
        exact Set.mem_insert_iff.mpr (Or.inl same)
      · rcases has with inStore | ⟨row, before, isOther⟩
        · left
          change other ∈ installed.installedDeltas crypto
          rw [installs.installedDeltas_eq waiting.sound]
          exact Set.mem_insert_iff.mpr (Or.inr inStore)
        · refine Or.inr ⟨row, mem_filter.mpr ⟨installs.holds_eq ▸ before, ?_⟩, isOther⟩
          apply decide_eq_true
          intro sameDot
          exact same (isOther ▸ row_delta_eq complete waiting member before sameDot)
    · intro dot isAdmitted
      cases isAdmitted
      rfl
    · intro next queued released
      exact admitted complete waiting member admissible installs queued (released _ rfl)
  | @held dot after blocked holds =>
    have room : store.holdExists delta.dot = true ∨ store.hasRoomFor delta.author = true := by
      simpa using uneventful
    refine ⟨?_, ?_, fun _ isAdmitted => (by cases isAdmitted), spares, ?_⟩
    · rcases rows_of_held complete waiting member holds room with ⟨_, rfl, _, own, _⟩
      exact Or.inr own
    · intro other has
      rcases rows_of_held complete waiting member holds room with ⟨_, rfl, _, _, kept⟩
      rcases has with inStore | ⟨row, before, isOther⟩
      · exact Or.inl inStore
      · rcases kept row before with ⟨left, inHolds, same⟩
        exact Or.inr ⟨left, inHolds, same.trans isOther⟩
    · intro next queued _
      exact heldFor complete waiting member blocked holds room queued
  | redelivered known =>
    rcases redelivered_eq waiting.sound decodes known with ⟨hash, logged, same⟩
    rw [same] at uneventful spares ⊢
    by_cases sameHash : hash = delta.deltaHash crypto
    · rw [if_pos sameHash]
      refine ⟨Or.inl (installed_of_logged complete waiting member logged), fun _ has => has,
        fun _ isAdmitted => (by cases isAdmitted), rfl, ?_⟩
      intro next queued _
      apply waiting.weaken
      intro row inHolds inQueue
      apply queued row.delta inQueue
      intro isDelta
      -- Nothing that is held has been logged.
      have unlogged := waiting.unlogged row inHolds
      rw [isDelta, logged] at unlogged
      cases unlogged
    · rw [if_neg sameHash] at uneventful
      cases uneventful
  | _ => cases uneventful

end Waiting

/-! ## The cascade and the run -/

section Run

variable {crypto : Crypto} {groupId : FolderGroupId} {deltas : List NativeDelta}
  (complete : CompleteSet crypto deltas)

include complete

theorem Waiting.retry {keyFor : KeyFor} {queue : List NativeDelta} {store : Store}
    {held : NativeDelta} (waiting : Waiting crypto deltas queue store) (member : held ∈ deltas)
    (keyKnown : (keyFor held.author).isSome = true)
    (uneventful : uneventfulRetry crypto groupId keyFor now held store = true) :
    ∃ turn after, retryHeld crypto groupId keyFor now held store = .ok turn after ∧
      (∀ other, store.Has crypto other → after.Has crypto other) ∧
      ∀ next : List NativeDelta, (∀ other, other ∈ queue → other ≠ held → other ∈ next) →
        (∀ other, other ∈ turn.waiters → other ∈ next) → Waiting crypto deltas next after := by
  cases exists_ : store.holdExists held.dot with
  | false =>
    refine ⟨⟨[], []⟩, store, ?_, fun _ has => has, ?_⟩
    · simp [retryHeld, bind_apply, exists_]
    · intro next queued _
      apply waiting.weaken
      intro row inHolds inQueue
      apply queued row.delta inQueue
      intro isHeld
      have present := Store.holdExists_iff.mpr ⟨row, inHolds, congrArg dot isHeld⟩
      rw [exists_] at present
      cases present
  | true =>
    rcases Option.isSome_iff_exists.mp keyKnown with ⟨key, known⟩
    -- No evidence is parked, so the key is the one on file.
    have found : heldDeltaKey crypto store held keyFor = some key := by
      rw [heldDeltaKey, waiting.unparked, ExtTreeMap.getElem?_empty]
      exact known
    rw [uneventfulRetry, exists_, found] at uneventful
    rcases waiting.attempt complete member uneventful with
      ⟨step, after, ran, _, keeps, ownDot, spares, waitingAfter⟩
    have retried : retryHeld crypto groupId keyFor now held store =
        afterRetry crypto held step after := by
      simp only [retryHeld, bind_apply, get_apply, exists_, found,
        Bool.not_true, Bool.false_eq_true, if_false, ran]
    by_cases admits : ∃ dot, step = .admitted dot
    · rcases admits with ⟨dot, rfl⟩
      refine ⟨⟨[dot], after.waitersOf dot⟩, after, retried, keeps, ?_⟩
      intro next queued released
      apply waitingAfter next queued
      intro other isAdmitted
      cases isAdmitted
      exact released
    · refine ⟨⟨[], []⟩, after, ?_, keeps, ?_⟩
      · rw [retried]
        exact afterRetry_other (fun dot same => admits ⟨dot, same⟩) spares after
      · intro next queued _
        exact waitingAfter next queued fun dot isAdmitted => absurd ⟨dot, isAdmitted⟩ admits

theorem Waiting.release {keyFor : KeyFor} {turns bound : Nat} {queue : List NativeDelta}
    {released : List Dot} {store : Store}
    (keysKnown : ∀ delta, delta ∈ deltas → (keyFor delta.author).isSome = true)
    (waiting : Waiting crypto deltas queue store) (queued : ∀ held, held ∈ queue → held ∈ deltas)
    (enough : EnoughTurns bound turns queue store)
    (uneventful : uneventfulRelease crypto groupId keyFor now turns queue store = true) :
    ∃ result after, releaseLoop crypto groupId keyFor now turns queue released store =
        .ok result after ∧
      Waiting crypto deltas [] after ∧
      ∀ other, store.Has crypto other → after.Has crypto other := by
  induction turns generalizing queue released store with
  | zero =>
    have lasts := enough.2
    omega
  | succ turns induction =>
    unfold releaseLoop
    unfold uneventfulRelease at uneventful
    cases last : queue.getLast? with
    | none =>
      rw [getLast?_eq_none_iff] at last
      exact ⟨released, store, rfl, last ▸ waiting, fun _ has => has⟩
    | some held =>
      have member := queued held (mem_of_getLast? last)
      simp only [last, Bool.and_eq_true] at uneventful
      rcases uneventful with ⟨retry, continues⟩
      rcases waiting.retry complete member (keysKnown held member) retry with
        ⟨turn, middle, ran, keeps, waitingAfter⟩
      have leaves : TurnLeaves held store turn middle := by
        rcases retryHeld_cases waiting.sound.consistent (complete.decodes held member) with
          ⟨_, _, same, leaves⟩ | ⟨_, failed, _⟩
        · rw [ran] at same
          cases same
          exact leaves
        · rw [ran] at failed
          cases failed
      rw [ran] at continues
      have split : ∀ other, other ∈ queue → other ≠ held → other ∈ queue.dropLast := by
        intro other inQueue different
        rw [← dropLast_append_getLast? held last] at inQueue
        rcases mem_append.mp inQueue with earlier | isLast
        · exact earlier
        · exact absurd (mem_singleton.mp isLast) different
      have waitingNext := waitingAfter (queue.dropLast ++ turn.waiters)
        (fun other inQueue different => mem_append_left _ (split other inQueue different))
        (fun other isWaiter => mem_append_right _ isWaiter)
      have queuedNext : ∀ other, other ∈ queue.dropLast ++ turn.waiters →
          other ∈ deltas := by
        intro other inQueue
        rcases mem_append.mp inQueue with earlier | isWaiter
        · exact queued other ((dropLast_sublist queue).subset earlier)
        · rcases leaves.settled with ⟨none, _⟩ | ⟨those, _⟩
          · rw [none] at isWaiter
            cases isWaiter
          · rw [those] at isWaiter
            rcases mem_map.mp isWaiter with ⟨row, waits, rfl⟩
            exact waitingNext.held row (mem_filter.mp waits).1
      rcases induction waitingNext queuedNext (enough.next last leaves) continues with
        ⟨result, after, continued, waitingEnd, keepsEnd⟩
      refine ⟨result, after, ?_, waitingEnd, fun other has => keepsEnd other (keeps other has)⟩
      dsimp only
      rw [bind_apply, ran]
      exact continued

theorem Waiting.call {store : Store} {call : AdmissionCall}
    (waiting : Waiting crypto deltas [] store) (member : call.delta ∈ deltas)
    (keysKnown : ∀ delta, delta ∈ deltas → (call.keyFor delta.author).isSome = true)
    (uneventful : uneventfulCall crypto groupId store call = true) :
    Waiting crypto deltas [] (admitOne crypto groupId store call) ∧
      (admitOne crypto groupId store call).Has crypto call.delta ∧
      ∀ other, store.Has crypto other → (admitOne crypto groupId store call).Has crypto other := by
  rcases Option.isSome_iff_exists.mp (keysKnown call.delta member) with ⟨key, known⟩
  simp only [uneventfulCall, known, Option.all_some, Bool.and_eq_true] at uneventful
  rcases uneventful with ⟨first, cascade⟩
  rcases waiting.attempt complete member first with
    ⟨step, middle, ran, has, keeps, ownDot, _, waitingAfter⟩
  rw [ran] at cascade
  have admitted : admitNativeDelta crypto groupId call.delta call.keyFor call.now store =
      reportStep crypto groupId call.delta call.keyFor call.now step middle := by
    simp only [admitNativeDelta, known, admitNativeDeltaWithKey, bind_apply, ran]
  by_cases admits : ∃ dot, step = .admitted dot
  · rcases admits with ⟨dot, rfl⟩
    have waitingNext := waitingAfter (middle.waitersOf dot)
      (fun other absent => absurd absent not_mem_nil) (fun other isAdmitted => by
        cases isAdmitted
        exact fun _ isWaiter => isWaiter)
    have queued : ∀ held, held ∈ middle.waitersOf dot → held ∈ deltas := by
      intro held isWaiter
      rcases mem_map.mp isWaiter with ⟨row, waits, rfl⟩
      exact waitingNext.held row (mem_filter.mp waits).1
    rcases waitingNext.release complete keysKnown queued (EnoughTurns.first middle dot) cascade with
      ⟨result, after, released, waitingEnd, keepsEnd⟩
    have left : admitOne crypto groupId store call = after := by
      have cascades : releaseWaiters crypto groupId call.keyFor call.now dot middle =
        .ok result after := released
      simp only [admitOne, commit, admitted, reportStep, bind_apply,
        cascades, pure_apply]
    rw [left]
    exact ⟨waitingEnd, keepsEnd _ has, fun other hadOther => keepsEnd _ (keeps other hadOther)⟩
  · have left : admitOne crypto groupId store call = middle := by
      rw [admitOne, commit, admitted]
      cases step with
      | admitted dot => exact absurd ⟨dot, rfl⟩ admits
      | _ => rfl
    rw [left]
    exact ⟨waitingAfter [] (fun _ absent => absurd absent not_mem_nil)
      (fun dot isAdmitted => absurd ⟨dot, isAdmitted⟩ admits), has, keeps⟩

theorem Waiting.run {store : Store} {calls : List AdmissionCall}
    (waiting : Waiting crypto deltas [] store)
    (members : ∀ call, call ∈ calls → call.delta ∈ deltas)
    (keysKnown : ∀ call, call ∈ calls → ∀ delta, delta ∈ deltas →
      (call.keyFor delta.author).isSome = true)
    (uneventful : uneventfulRun crypto groupId store calls = true) :
    Waiting crypto deltas [] (admitAll crypto groupId store calls) ∧
      (∀ call, call ∈ calls → (admitAll crypto groupId store calls).Has crypto call.delta) ∧
      ∀ other, store.Has crypto other → (admitAll crypto groupId store calls).Has crypto other := by
  induction calls generalizing store with
  | nil => exact ⟨waiting, fun call absent => absurd absent not_mem_nil, fun _ has => has⟩
  | cons call rest induction =>
    rw [uneventfulRun, Bool.and_eq_true] at uneventful
    have here := mem_cons_self (a := call) (l := rest)
    rcases waiting.call complete (members call here) (keysKnown call here) uneventful.1 with
      ⟨waitingNext, has, keeps⟩
    rcases induction waitingNext
        (fun other member => members other (.tail call member))
        (fun other member => keysKnown other (.tail call member))
        uneventful.2 with ⟨waitingEnd, hasRest, keepsEnd⟩
    refine ⟨waitingEnd, ?_, fun other hadOther => keepsEnd other (keeps other hadOther)⟩
    intro other member
    rcases mem_cons.mp member with same | later
    · rw [same]
      exact keepsEnd _ has
    · exact hasRest other later

/-- When nothing is queued and the store has the whole set, it has installed
the whole set and holds nothing. -/
theorem Waiting.settled {store : Store} (waiting : Waiting crypto deltas [] store)
    (has : ∀ delta, delta ∈ deltas → store.Has crypto delta) :
    (∀ delta, delta ∈ deltas → delta ∈ store.installedDeltas crypto) ∧ store.holds = [] := by
  -- A row waits on an unobserved delta of the set that its own delta needs.
  have blocked : ∀ row, row ∈ store.holds → ∃ needed, needed ∈ deltas ∧
      row.delta.Needs needed ∧ needed ∉ store.installedDeltas crypto := by
    intro row inHolds
    rcases waiting.blocker row inHolds with ⟨needed, inSet, needs, sameDot⟩
    refine ⟨needed, inSet, needs, ?_⟩
    intro installed
    have observed := (waiting.sound.observed_of_installed installed).2
    rcases waiting.waits row inHolds with queued | unobserved
    · cases queued
    · rw [← sameDot, observed] at unobserved
      cases unobserved
  have installed : ∀ delta, delta ∈ deltas → delta ∈ store.installedDeltas crypto := by
    apply complete.induction fun delta => delta ∈ store.installedDeltas crypto
    intro delta member earlier
    rcases has delta member with installed | ⟨row, inHolds, same⟩
    · exact installed
    · rcases blocked row inHolds with ⟨needed, inSet, needs, absent⟩
      exact absurd (earlier needed inSet (same ▸ needs)) absent
  refine ⟨installed, ?_⟩
  apply eq_nil_iff_forall_not_mem.mpr
  intro row inHolds
  rcases blocked row inHolds with ⟨needed, inSet, _, absent⟩
  exact absent (installed needed inSet)

variable (crypto groupId) in
/-- After any uneventful deliveries of a complete set, in any order and as often
as may be, all of it is installed and nothing is held. -/
theorem hold_queue_loses_nothing (calls : List AdmissionCall)
    (members : ∀ call, call ∈ calls → call.delta ∈ deltas)
    (delivered : ∀ delta, delta ∈ deltas → ∃ call, call ∈ calls ∧ call.delta = delta)
    (keysKnown : ∀ call, call ∈ calls → ∀ delta, delta ∈ deltas →
      (call.keyFor delta.author).isSome = true)
    (uneventful : uneventfulRun crypto groupId Store.empty calls = true) :
    (∀ delta, delta ∈ deltas →
      delta ∈ (admitAll crypto groupId Store.empty calls).installedDeltas crypto) ∧
    (admitAll crypto groupId Store.empty calls).holds = [] := by
  have start : Waiting crypto deltas [] Store.empty := by
    refine ⟨Store.Sound.empty crypto, rfl, ?_, ?_, ?_, ?_, ?_⟩
    · intro delta absent
      simp [Store.mem_installedDeltas, Store.empty] at absent
    all_goals
      intro row absent
      cases absent
  rcases start.run complete members keysKnown uneventful with ⟨waiting, has, _⟩
  apply waiting.settled complete
  intro delta member
  rcases delivered delta member with ⟨call, inCalls, rfl⟩
  exact has call inCalls

end Run

/-- The removal first, then what it removes. -/
theorem hold_queue_loses_nothing_reversed : (∀ delta, delta ∈ [sampleFirst, sampleRemoval 1] →
      delta ∈ (admitAll Crypto.sample "group" Store.empty [⟨sampleRemoval 1, sampleKeys, 0⟩,
        ⟨sampleFirst, sampleKeys, 1⟩]).installedDeltas Crypto.sample) ∧
    (admitAll Crypto.sample "group" Store.empty [⟨sampleRemoval 1, sampleKeys, 0⟩,
      ⟨sampleFirst, sampleKeys, 1⟩]).holds = [] := by
  have rises : ∀ needed delta, (needed ∈ [sampleFirst, sampleRemoval 1] ∧
      delta ∈ [sampleFirst, sampleRemoval 1] ∧ delta.Needs needed) →
      needed.namedDots.length < delta.namedDots.length := by
    have onSet : ∀ needed, needed ∈ [sampleFirst, sampleRemoval 1] →
        ∀ delta, delta ∈ [sampleFirst, sampleRemoval 1] →
        (needed.dot = ⟨delta.author, delta.seq - 1⟩ ∨ needed.dot ∈ delta.namedDots) →
        needed.namedDots.length < delta.namedDots.length := by
      decide
    rintro needed delta ⟨inSet, member, needs⟩
    exact onSet needed inSet delta member needs
  have complete : CompleteSet Crypto.sample [sampleFirst, sampleRemoval 1] := by
    refine ⟨by decide +kernel, by decide +kernel, by decide +kernel, by decide +kernel,
      by decide, ?_⟩
    intro delta cycle
    have higher : Relation.TransGen (· < ·) delta.namedDots.length delta.namedDots.length :=
      Relation.TransGen.lift (fun delta : NativeDelta => delta.namedDots.length) rises _ _ cycle
    rw [Relation.transGen_eq_self] at higher
    exact Nat.lt_irrefl _ higher
  apply hold_queue_loses_nothing Crypto.sample "group" complete
  · decide +kernel
  · decide +kernel
  · decide
  · decide +kernel

end Yadorilink
