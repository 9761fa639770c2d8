import Yadorilink.Chunking.Committer

/-! The streaming chunkers return, unless a read fails: then the producer leaves without telling
the worker, and the scope waits for a worker that waits for work. -/

namespace Yadorilink.Chunking

open Machine List State

variable {E : Type} {chunker : Chunker} {sha256 : List UInt8 → List UInt8} {budget : Nat}
variable {state next : State E}

/-- The producer has left the scope body while the worker waits for work that nobody will tell
it is over. -/
def Stranded (state : State E) : Prop :=
  (∃ result, state.producer = .left result) ∧ state.worker = .parked ∧ state.producerDone = false

def Returned (state : State E) : Prop :=
  ∃ result, state.producer = .returned result

/-- The producer's next step is to leave with the error of a read. -/
def FailsRead (state : State E) : Prop :=
  (∃ error, state.producer = .fetched (.error error) ∧ state.stop = false) ∨
    ∃ error reads, state.producer = .reading ∧ state.reads = .error error :: reads

instance FailsRead.decidable (state : State E) : Decidable (FailsRead state) :=
  match place : state.producer, found : state.reads with
  | .fetched (.error error), _ =>
    if going : state.stop = false then .isTrue (.inl ⟨error, place, going⟩)
    else .isFalse (by rw [FailsRead, place]; simp [going])
  | .fetched (.ok _), _ => .isFalse (by rw [FailsRead, place]; simp)
  | .reading, .error error :: reads => .isTrue (.inr ⟨error, reads, place, found⟩)
  | .reading, .ok _ :: _ => .isFalse (by rw [FailsRead, place, found]; simp)
  | .reading, [] => .isFalse (by rw [FailsRead, place, found]; simp)
  | .top, _ => .isFalse (by rw [FailsRead, place]; simp)
  | .submitting _ _, _ => .isFalse (by rw [FailsRead, place]; simp)
  | .blocked _ _, _ => .isFalse (by rw [FailsRead, place]; simp)
  | .ended, _ => .isFalse (by rw [FailsRead, place]; simp)
  | .finishing, _ => .isFalse (by rw [FailsRead, place]; simp)
  | .joining, _ => .isFalse (by rw [FailsRead, place]; simp)
  | .left _, _ => .isFalse (by rw [FailsRead, place]; simp)
  | .returned _, _ => .isFalse (by rw [FailsRead, place]; simp)

def ReadsOn (state : State E) : Event E → Prop
  | .produce => ¬FailsRead state
  | _ => True

instance ReadsOn.decidable (state : State E) : (event : Event E) → Decidable (ReadsOn state event)
  | .produce => inferInstanceAs (Decidable (¬FailsRead state))
  | .work _ => .isTrue trivial
  | .wakeProducer => .isTrue trivial
  | .wakeWorker => .isTrue trivial

/-! ## What one step does -/

/-- The producer's steps, by what they change. -/
inductive Produces (sha256 : List UInt8 → List UInt8) (state : State E) : State E → Prop where
  | fetch {outcome reads} (place : state.producer = .top) (found : state.reads = outcome :: reads) :
      Produces sha256 state { state with producer := .fetched outcome, reads := reads }
  | look (place : state.producer = .top) :
      Produces sha256 state { state with producer := .reading }
  | fail {error reads} (fails : FailsRead state) (fewer : reads.length ≤ state.reads.length) :
      Produces sha256 state { state with producer := .left (.error error), reads := reads }
  | accept {bytes reads after}
      (place : (∃ outcome, state.producer = .fetched outcome ∧ reads = state.reads) ∨
        ∃ outcome, state.producer = .reading ∧ state.reads = outcome :: reads) :
      Produces sha256 state
        ((State.accept sha256 { state with reads := reads } bytes).submitFull after)
  | leave {reads}
      (place : state.producer = .top ∨ (∃ outcome, state.producer = .fetched outcome) ∨
        state.producer = .reading)
      (fewer : reads.length ≤ state.reads.length) :
      Produces sha256 state { state with producer := .ended, reads := reads }
  | block {batch after} (place : state.producer = .submitting batch after)
      (full : state.queue ≠ []) :
      Produces sha256 state { state with producer := .blocked batch after }
  | submit {batch after} (place : state.producer = .submitting batch after) :
      Produces sha256 state { state with
        pendingBytes := state.pendingBytes + batchBytes batch
        queue := state.queue ++ [batch]
        worker := state.worker.notified
        producer := after.producer }
  | flush (place : state.producer = .ended) :
      Produces sha256 state { state with
        pending := [], producer := .submitting state.pending .finishing }
  | close (place : state.producer = .ended) :
      Produces sha256 state { state with producer := .finishing }
  | finish (place : state.producer = .finishing) :
      Produces sha256 state { state with
        producerDone := true, worker := state.worker.notified, producer := .joining }
  | join (place : state.producer = .joining) (finished : state.worker = .stopped) :
      Produces sha256 state { state with
        error := none
        producer := .left (match state.error with
          | some error => .error error
          | none => .ok ()) }
  | deliver {result} (place : state.producer = .left result) (finished : state.worker = .stopped) :
      Produces sha256 state { state with
        producer := .returned (result.map fun _ => state.blocks) }

theorem produces_of_produce (made : state.produce chunker sha256 budget = some next) :
    Produces sha256 state next := by
  unfold produce at made
  split at made
  case h_1 top =>
      split at made
      · split at made
        · cases made
          exact .leave (.inl top) (Nat.le_refl _)
        · rename_i found
          cases made
          exact .fetch top found
      · cases made
        split
        · exact .leave (.inl top) (Nat.le_refl _)
        · exact .look top
  case h_2 outcome fetched =>
      split at made
      · cases made
        exact .leave (.inr (.inl ⟨outcome, fetched⟩)) (Nat.le_refl _)
      · rename_i running
        split at made
        · rename_i error
          cases made
          exact .fail (.inl ⟨error, fetched, Bool.eq_false_iff.mpr running⟩) (Nat.le_refl _)
        · rename_i bytes
          cases made
          exact .accept (.inl ⟨_, fetched, rfl⟩)
  case h_3 reading =>
      split at made
      · cases made
        exact .leave (.inr (.inr reading)) (Nat.le_refl _)
      · rename_i error reads found
        cases made
        exact .fail (.inr ⟨error, reads, reading, found⟩) (by rw [found]; exact Nat.le_succ _)
      · rename_i bytes reads found
        dsimp only at made
        split at made
        · cases made
          exact .leave (.inr (.inr reading)) (by rw [found]; exact Nat.le_succ _)
        · split at made
          · cases made
            exact .accept (.inr ⟨_, reading, found⟩)
          · cases made
            exact .accept (.inr ⟨_, reading, found⟩)
  case h_4 batch after submitting =>
      split at made
      · rename_i full
        cases made
        exact .block submitting full.2
      · cases made
        exact .submit submitting
  case h_5 => cases made
  case h_6 ended =>
      split at made
      · cases made
        exact .close ended
      · cases made
        exact .flush ended
  case h_7 finishing =>
      cases made
      exact .finish finishing
  case h_8 joining =>
      split at made
      · rename_i finished
        cases made
        exact .join joining finished
      · cases made
  case h_9 result left =>
      split at made
      · rename_i finished
        cases made
        exact .deliver left finished
      · cases made
  case h_10 => cases made

/-- The worker's steps. -/
inductive Works (state : State E) (outcome : Option E) : State E → Prop where
  | pop {batch queue} (place : state.worker = .checking) (found : state.queue = batch :: queue) :
      Works state outcome { state with queue := queue, worker := .committing batch }
  | retire (place : state.worker = .checking) (empty : state.queue = [])
      (done : state.producerDone = true) :
      Works state outcome { state with worker := .stopped }
  | park (place : state.worker = .checking) (empty : state.queue = [])
      (open_ : state.producerDone = false) :
      Works state outcome { state with worker := .parked }
  | commit {batch} (place : state.worker = .committing batch) (ok : outcome = none) :
      Works state outcome { state with
        store := state.store ++ [(batch, none)], worker := .releasing (batchBytes batch) }
  | refuse {batch error} (place : state.worker = .committing batch)
      (failed : outcome = some error) :
      Works state outcome { state with
        store := state.store ++ [(batch, some error)]
        error := state.error.or (some error)
        worker := .flagging (batchBytes batch) }
  | flag {bytes} (place : state.worker = .flagging bytes) :
      Works state outcome { state with stop := true, worker := .releasing bytes }
  | release {bytes} (place : state.worker = .releasing bytes) :
      Works state outcome { state with
        pendingBytes := state.pendingBytes - bytes
        producer := state.producer.notified
        worker := .checking }

theorem works_of_work {outcome : Option E} (made : state.work outcome = some next) :
    Works state outcome next := by
  unfold work at made
  split at made
  case h_1 checking =>
      split at made
      · rename_i found
        cases made
        exact .pop checking found
      · rename_i empty
        split at made
        · rename_i done
          cases made
          exact .retire checking empty done
        · rename_i running
          cases made
          exact .park checking empty (Bool.eq_false_iff.mpr running)
  case h_2 => cases made
  case h_3 batch committing =>
      split at made
      · cases made
        exact .commit committing rfl
      · cases made
        exact .refuse committing rfl
  case h_4 bytes flagging =>
      cases made
      exact .flag flagging
  case h_5 bytes releasing =>
      cases made
      exact .release releasing
  case h_6 => cases made

/-! ## The bound on the steps -/

def Next.weight : Next → Nat
  | .finishing => 4
  | .ended => 12
  | .top => 14

def Producer.weight : Producer E → Nat
  | .returned _ => 0
  | .left _ => 1
  | .joining => 2
  | .finishing => 4
  | .ended => 12
  | .reading => 13
  | .top => 14
  | .submitting _ next => next.weight + 7
  | .blocked _ next => next.weight + 6
  | .fetched _ => 22

def Worker.weight : Worker → Nat
  | .stopped => 0
  | .parked => 0
  | .checking => 1
  | .releasing _ => 3
  | .flagging _ => 4
  | .committing _ => 5

/-- What is left to do: the steps a read can still cause, those a queued batch can still cause,
and where the two threads stand. -/
def State.weight (state : State E) : Nat :=
  9 * state.reads.length + 5 * state.queue.length + state.producer.weight + state.worker.weight

theorem Worker.weight_notified (worker : Worker) : worker.notified.weight ≤ worker.weight + 1 := by
  cases worker <;> simp [notified, weight]

theorem Producer.weight_notified (producer : Producer E) :
    producer.notified.weight ≤ producer.weight + 1 := by
  cases producer <;> simp [notified, weight]

theorem Next.weight_producer (next : Next) : (next.producer : Producer E).weight = next.weight := by
  cases next <;> rfl

theorem weight_submitFull (state : State E) (after : Next) :
    (state.submitFull after).weight ≤ 9 * state.reads.length + 5 * state.queue.length +
      (after.weight + 7) + state.worker.weight := by
  rw [submitFull]
  split
  · exact Nat.le_refl _
  · simp only [weight, Next.weight_producer]
    omega

theorem weight_produces (made : Produces sha256 state next) : next.weight < state.weight := by
  have woken := state.worker.weight_notified
  cases made with
  | fetch place found =>
    simp only [weight, place, found, Producer.weight, length_cons]
    omega
  | look place =>
    simp only [weight, place, Producer.weight]
    omega
  | fail fails fewer =>
    rcases fails with ⟨_, place, _⟩ | ⟨_, _, place, _⟩ <;>
      simp only [weight, place, Producer.weight] <;> omega
  | @accept bytes reads after place =>
    have full := weight_submitFull (accept sha256 { state with reads := reads } bytes) after
    have bound : after.weight ≤ 14 := by
      cases after <;> simp [Next.weight]
    simp only [accept] at full
    rcases place with ⟨_, place, same⟩ | ⟨_, place, found⟩
    · simp only [weight, accept, place, Producer.weight, same] at full ⊢
      omega
    · simp only [weight, accept, place, found, Producer.weight,
        length_cons] at full ⊢
      omega
  | leave place fewer =>
    rcases place with place | ⟨_, place⟩ | place <;>
      simp only [weight, place, Producer.weight] <;> omega
  | block place full =>
    simp only [weight, place, Producer.weight]
    omega
  | @submit batch after place =>
    have here : state.producer.weight = after.weight + 7 := by
      rw [place]
      rfl
    simp only [weight, here, Next.weight_producer, length_append, length_singleton]
    omega
  | flush place =>
    simp only [weight, place, Producer.weight, Next.weight]
    omega
  | close place =>
    simp only [weight, place, Producer.weight]
    omega
  | finish place =>
    simp only [weight, place, Producer.weight]
    omega
  | join place finished =>
    simp only [weight, place, Producer.weight]
    omega
  | deliver place finished =>
    simp only [weight, place, Producer.weight]
    omega

theorem weight_works {outcome : Option E} (made : Works state outcome next) :
    next.weight < state.weight := by
  have woken := state.producer.weight_notified
  cases made with
  | pop place found =>
    simp only [weight, place, found, Worker.weight, length_cons]
    omega
  | retire place empty done =>
    simp only [weight, place, Worker.weight]
    omega
  | park place empty running =>
    simp only [weight, place, Worker.weight]
    omega
  | commit place ok =>
    simp only [weight, place, Worker.weight]
    omega
  | refuse place failed =>
    simp only [weight, place, Worker.weight]
    omega
  | flag place =>
    simp only [weight, place, Worker.weight]
    omega
  | release place =>
    simp only [weight, place, Worker.weight]
    omega

theorem weight_step {event : Event E} (made : step chunker sha256 budget state event = some next) :
    if event.idle then next.weight ≤ state.weight + 1 else next.weight < state.weight := by
  cases event with
  | produce => exact weight_produces (produces_of_produce made)
  | work outcome => exact weight_works (works_of_work made)
  | wakeProducer =>
    rw [step] at made
    split at made
    · rename_i batch after blocked
      cases made
      simp only [weight, blocked, Producer.weight, Event.idle, if_true]
      omega
    · cases made
  | wakeWorker =>
    rw [step] at made
    split at made
    · rename_i parked
      cases made
      simp only [weight, parked, Worker.weight, Event.idle, if_true]
      omega
    · cases made

/-! ## The two threads never wait for each other -/

/-- The producer has told the worker that no more batches come. -/
def Producer.isDone : Producer E → Bool
  | .joining => true
  | .left _ => true
  | .returned _ => true
  | _ => false

def Producer.isOut : Producer E → Bool
  | .left _ => true
  | .returned _ => true
  | _ => false

theorem Producer.not_isOut {producer : Producer E} (inside : producer.isDone = false) :
    producer.isOut = false := by
  cases producer <;> first | rfl | cases inside

def firstFailure (store : List (List LocallyHashedBlock × Option E)) : Option E :=
  store.findSome? Prod.snd

/-- A result that is an error as soon as there is one. -/
def report {α : Type} (error : Option E) (value : α) : Except E α :=
  match error with
  | some error => .error error
  | none => .ok value

/-- The first failed commit is kept, then reported by `finish`, then returned. -/
def Reports (state : State E) : Prop :=
  match state.producer with
  | .left result => result = report (firstFailure state.store) ()
  | .returned result => result = report (firstFailure state.store) state.blocks
  | _ => state.error = firstFailure state.store

/-- What holds while no read has failed: who waits for whom, and which error is kept. -/
structure Sound (state : State E) : Prop where
  told : state.producerDone = state.producer.isDone
  parked : state.worker = .parked → state.queue = [] ∧ state.producerDone = false
  stopped : state.worker = .stopped → state.producerDone = true
  blocked : ∀ batch after, state.producer = .blocked batch after →
    state.worker ≠ .parked ∧ (state.worker = .checking → state.queue ≠ [])
  finished : state.producer.isOut = true → state.worker = .stopped
  reports : Reports state

theorem reports_inside (inside : state.producer.isOut = false) :
    Reports state ↔ state.error = firstFailure state.store := by
  rw [Reports]
  split
  · rename_i result left
    rw [left] at inside
    cases inside
  · rename_i result returned
    rw [returned] at inside
    cases inside
  · exact Iff.rfl

theorem sound_start (reads : List (Except E (List UInt8))) : Sound (start reads) where
  told := rfl
  parked := nofun
  stopped := nofun
  blocked := nofun
  finished := nofun
  reports := rfl

/-- A step that only moves the producer inside the scope body, to a place where it does not
wait, keeps what holds. -/
theorem Sound.moved (sound : Sound state) (inside : state.producer.isDone = false)
    (still : next.producer.isDone = false)
    (runs : ∀ batch after, next.producer ≠ .blocked batch after)
    (same : next.worker = state.worker ∧ next.queue = state.queue ∧
      next.producerDone = state.producerDone ∧ next.error = state.error ∧
      next.store = state.store) : Sound next := by
  obtain ⟨worker, queue, producerDone, error, store⟩ := same
  exact {
    told := by rw [producerDone, still, sound.told, inside]
    parked := by rw [worker, queue, producerDone]; exact sound.parked
    stopped := by rw [worker, producerDone]; exact sound.stopped
    blocked := fun batch after blocked => absurd blocked (runs batch after)
    finished := by
      rw [Producer.not_isOut still]
      exact nofun
    reports := by
      rw [reports_inside (Producer.not_isOut still), error, store]
      exact (reports_inside (Producer.not_isOut inside)).mp sound.reports }

theorem Sound.not_stopped (sound : Sound state) (inside : state.producer.isDone = false) :
    state.worker ≠ .stopped := by
  intro stopped
  have done := sound.stopped stopped
  rw [sound.told, inside] at done
  cases done

theorem submitFull_producer (state : State E) (after : Next) :
    (state.submitFull after).producer.isDone = false ∧
      ∀ batch place, (state.submitFull after).producer ≠ .blocked batch place := by
  rw [submitFull]
  split
  · exact ⟨rfl, nofun⟩
  · cases after <;> exact ⟨rfl, nofun⟩

theorem submitFull_same (state : State E) (after : Next) :
    (state.submitFull after).worker = state.worker ∧ (state.submitFull after).queue = state.queue ∧
      (state.submitFull after).producerDone = state.producerDone ∧
      (state.submitFull after).error = state.error ∧
      (state.submitFull after).store = state.store := by
  rw [submitFull]
  split
  · exact ⟨rfl, rfl, rfl, rfl, rfl⟩
  · exact ⟨rfl, rfl, rfl, rfl, rfl⟩

theorem Worker.notified_ne_parked (worker : Worker) : worker.notified ≠ .parked := by
  cases worker <;> exact nofun

theorem Worker.eq_stopped_of_notified {worker : Worker} (stopped : worker.notified = .stopped) :
    worker = .stopped := by
  cases worker <;> first | rfl | cases stopped

theorem Sound.produces (sound : Sound state) (reads : ¬FailsRead state)
    (made : Produces sha256 state next) : Sound next := by
  have same : state.worker = state.worker ∧ state.queue = state.queue ∧
      state.producerDone = state.producerDone ∧ state.error = state.error ∧
      state.store = state.store := ⟨rfl, rfl, rfl, rfl, rfl⟩
  cases made with
  | fetch place found => exact sound.moved (by rw [place]; rfl) rfl nofun same
  | look place => exact sound.moved (by rw [place]; rfl) rfl nofun same
  | fail fails fewer => exact absurd fails reads
  | @accept bytes reads after place =>
    rcases submitFull_producer (accept sha256 { state with reads := reads } bytes) after
      with ⟨still, runs⟩
    apply sound.moved _ still runs (submitFull_same _ after)
    rcases place with ⟨_, place, _⟩ | ⟨_, place, _⟩ <;> rw [place] <;> rfl
  | leave place fewer =>
    have inside : state.producer.isDone = false := by
      rcases place with place | ⟨_, place⟩ | place <;> rw [place] <;> rfl
    exact sound.moved inside rfl nofun same
  | @block batch after place full =>
    have inside : state.producer.isDone = false := by
      rw [place]
      rfl
    exact {
      told := by rw [sound.told, inside]; rfl
      parked := sound.parked
      stopped := sound.stopped
      blocked := fun _ _ _ => ⟨fun parked => full (sound.parked parked).1, fun _ => full⟩
      finished := nofun
      reports := (reports_inside (Producer.not_isOut inside)).mp sound.reports }
  | @submit batch after place =>
    have inside : state.producer.isDone = false := by
      rw [place]
      rfl
    have still : (after.producer : Producer E).isDone = false := by
      cases after <;> rfl
    have awake := state.worker.notified_ne_parked
    exact {
      told := by rw [sound.told, inside, still]
      parked := fun parked => absurd parked awake
      stopped := fun stopped =>
        absurd (Worker.eq_stopped_of_notified stopped) (sound.not_stopped inside)
      blocked := by
        intro other place blocked
        cases after <;> cases blocked
      finished := by
        rw [Producer.not_isOut still]
        exact nofun
      reports := (reports_inside (Producer.not_isOut still)).mpr
        ((reports_inside (Producer.not_isOut inside)).mp sound.reports) }
  | flush place => exact sound.moved (by rw [place]; rfl) rfl nofun same
  | close place => exact sound.moved (by rw [place]; rfl) rfl nofun same
  | finish place =>
    have inside : state.producer.isDone = false := by
      rw [place]
      rfl
    exact {
      told := rfl
      parked := fun parked => absurd parked state.worker.notified_ne_parked
      stopped := fun _ => rfl
      blocked := nofun
      finished := nofun
      reports := (reports_inside (Producer.not_isOut inside)).mp sound.reports }
  | join place finished =>
    have kept : state.error = firstFailure state.store := by
      have reports := sound.reports
      rw [Reports, place] at reports
      exact reports
    exact {
      told := by rw [sound.told, place]; rfl
      parked := sound.parked
      stopped := sound.stopped
      blocked := nofun
      finished := fun _ => finished
      reports := by
        rw [Reports, ← kept]
        rfl }
  | @deliver result place finished =>
    have left : result = report (firstFailure state.store) () := by
      have reports := sound.reports
      rw [Reports, place] at reports
      exact reports
    exact {
      told := by rw [sound.told, place]; rfl
      parked := sound.parked
      stopped := sound.stopped
      blocked := nofun
      finished := fun _ => finished
      reports := by
        rw [Reports, left]
        dsimp only
        cases firstFailure state.store <;> rfl }

theorem firstFailure_append (store : List (List LocallyHashedBlock × Option E))
    (batch : List LocallyHashedBlock) (outcome : Option E) :
    firstFailure (store ++ [(batch, outcome)]) = (firstFailure store).or outcome := by
  rw [firstFailure, firstFailure, findSome?_append]
  cases outcome <;> rfl

theorem Sound.inside (sound : Sound state) (working : state.worker ≠ .stopped) :
    state.producer.isOut = false :=
  Bool.eq_false_iff.mpr fun out => working (sound.finished out)

theorem Producer.isDone_notified (producer : Producer E) :
    producer.notified.isDone = producer.isDone := by
  cases producer <;> rfl

theorem Producer.isOut_notified (producer : Producer E) :
    producer.notified.isOut = producer.isOut := by
  cases producer <;> rfl

theorem Producer.notified_ne_blocked (producer : Producer E) (batch : List LocallyHashedBlock)
    (after : Next) : producer.notified ≠ .blocked batch after := by
  cases producer <;> exact nofun

theorem Sound.works {outcome : Option E} (sound : Sound state) (made : Works state outcome next) :
    Sound next := by
  cases made with
  | pop place found =>
    have inside := sound.inside (by rw [place]; exact nofun)
    exact {
      told := sound.told
      parked := nofun
      stopped := nofun
      blocked := fun _ _ _ => ⟨nofun, nofun⟩
      finished := fun out => absurd (out.symm.trans inside) nofun
      reports := sound.reports }
  | retire place empty done =>
    exact {
      told := sound.told
      parked := nofun
      stopped := fun _ => done
      blocked := fun batch after blocked =>
        absurd empty ((sound.blocked batch after blocked).2 place)
      finished := fun _ => rfl
      reports := sound.reports }
  | park place empty running =>
    have inside := sound.inside (by rw [place]; exact nofun)
    exact {
      told := sound.told
      parked := fun _ => ⟨empty, running⟩
      stopped := nofun
      blocked := fun batch after blocked =>
        absurd empty ((sound.blocked batch after blocked).2 place)
      finished := fun out => absurd (out.symm.trans inside) nofun
      reports := sound.reports }
  | @commit batch place ok =>
    have inside := sound.inside (by rw [place]; exact nofun)
    exact {
      told := sound.told
      parked := nofun
      stopped := nofun
      blocked := fun _ _ _ => ⟨nofun, nofun⟩
      finished := fun out => absurd (out.symm.trans inside) nofun
      reports := by
        refine (reports_inside ?_).mpr ?_
        · exact inside
        rw [firstFailure_append, Option.or_none]
        exact (reports_inside inside).mp sound.reports }
  | @refuse batch error place failed =>
    have inside := sound.inside (by rw [place]; exact nofun)
    exact {
      told := sound.told
      parked := nofun
      stopped := nofun
      blocked := fun _ _ _ => ⟨nofun, nofun⟩
      finished := fun out => absurd (out.symm.trans inside) nofun
      reports := by
        refine (reports_inside ?_).mpr ?_
        · exact inside
        rw [firstFailure_append]
        dsimp only
        rw [(reports_inside inside).mp sound.reports] }
  | flag place =>
    have inside := sound.inside (by rw [place]; exact nofun)
    exact {
      told := sound.told
      parked := nofun
      stopped := nofun
      blocked := fun _ _ _ => ⟨nofun, nofun⟩
      finished := fun out => absurd (out.symm.trans inside) nofun
      reports := sound.reports }
  | release place =>
    have inside := sound.inside (by rw [place]; exact nofun)
    have still : state.producer.notified.isOut = false := by
      rw [Producer.isOut_notified]
      exact inside
    exact {
      told := by rw [sound.told, Producer.isDone_notified]
      parked := nofun
      stopped := nofun
      blocked := fun batch after blocked =>
        absurd blocked (state.producer.notified_ne_blocked batch after)
      finished := fun out => absurd (out.symm.trans still) nofun
      reports := (reports_inside still).mpr ((reports_inside inside).mp sound.reports) }

theorem Sound.step {event : Event E} (sound : Sound state) (reads : ReadsOn state event)
    (made : step chunker sha256 budget state event = some next) : Sound next := by
  cases event with
  | produce => exact sound.produces reads (produces_of_produce made)
  | work outcome => exact sound.works (works_of_work made)
  | wakeProducer =>
    rw [Chunking.step] at made
    split at made
    · rename_i batch after blocked
      cases made
      exact sound.moved (by rw [blocked]; rfl) rfl nofun ⟨rfl, rfl, rfl, rfl, rfl⟩
    · cases made
  | wakeWorker =>
    rw [Chunking.step] at made
    split at made
    · rename_i parked
      cases made
      have inside := sound.inside (by rw [parked]; exact nofun)
      exact {
        told := sound.told
        parked := nofun
        stopped := nofun
        blocked := fun batch after blocked => absurd parked (sound.blocked batch after blocked).1
        finished := fun out => absurd (out.symm.trans inside) nofun
        reports := sound.reports }
    · cases made

theorem isSome_work (outcome : Option E) (awake : state.worker ≠ .parked)
    (working : state.worker ≠ .stopped) : (state.work outcome).isSome := by
  unfold work
  split
  · split
    · rfl
    · split <;> rfl
  · contradiction
  · dsimp only
    split <;> rfl
  · rfl
  · rfl
  · contradiction

theorem isSome_produce (inside : state.producer.isDone = false)
    (runs : ∀ batch after, state.producer ≠ .blocked batch after) :
    (state.produce chunker sha256 budget).isSome := by
  unfold produce
  split
  case h_1 =>
      split
      · split <;> rfl
      · rfl
  case h_2 =>
      split
      · rfl
      · split <;> rfl
  case h_3 =>
      split
      · rfl
      · rfl
      · dsimp only
        split
        · rfl
        · split <;> rfl
  case h_4 => split <;> rfl
  case h_5 batch after blocked => exact absurd blocked (runs batch after)
  case h_6 => split <;> rfl
  case h_7 => rfl
  case h_8 place =>
      rw [place] at inside
      cases inside
  case h_9 place =>
      rw [place] at inside
      cases inside
  case h_10 place =>
      rw [place] at inside
      cases inside

/-- Where the two threads stand so, one of them has a step until the function has returned. -/
theorem Sound.progress (sound : Sound state) (unfinished : ¬Returned state) :
    ∃ event : Event E, event.idle = false ∧
      (Chunking.step chunker sha256 budget state event).isSome := by
  by_cases finished : state.worker = .stopped
  · -- The worker only stops once it is told to, so `finish` can go on.
    have done := sound.told.symm.trans (sound.stopped finished)
    refine ⟨.produce, rfl, ?_⟩
    rw [Chunking.step]
    unfold produce
    cases place : state.producer with
    | joining =>
      dsimp only
      rw [if_pos finished]
      rfl
    | left result =>
      dsimp only
      rw [if_pos finished]
      rfl
    | returned result => exact absurd ⟨result, place⟩ unfinished
    | _ =>
      rw [place] at done
      cases done
  · by_cases asleep : state.worker = .parked
    · -- The worker waits, so it was not told yet and the producer does not wait for it.
      have inside : state.producer.isDone = false := sound.told.symm.trans (sound.parked asleep).2
      exact ⟨.produce, rfl, isSome_produce inside fun batch after blocked =>
        (sound.blocked batch after blocked).1 asleep⟩
    · exact ⟨.work none, rfl, isSome_work none asleep finished⟩

/-! ## A failed read -/

/-- After a failed read: the producer is out, and nobody will ever tell the worker. -/
structure Abandoned (state : State E) : Prop where
  left : ∃ error, state.producer = .left (.error error)
  untold : state.producerDone = false
  running : state.worker ≠ .stopped

theorem Abandoned.step {event : Event E} (abandoned : Abandoned state)
    (made : Chunking.step chunker sha256 budget state event = some next) : Abandoned next := by
  obtain ⟨error, left⟩ := abandoned.left
  cases event with
  | produce =>
    rw [Chunking.step] at made
    unfold produce at made
    rw [left] at made
    dsimp only at made
    rw [if_neg abandoned.running] at made
    cases made
  | work outcome =>
    have kept : next.producer = state.producer ∧ next.producerDone = state.producerDone ∧
        next.worker ≠ .stopped := by
      cases works_of_work made with
      | pop => exact ⟨rfl, rfl, nofun⟩
      | retire place empty done => exact absurd (done.symm.trans abandoned.untold) nofun
      | park => exact ⟨rfl, rfl, nofun⟩
      | commit => exact ⟨rfl, rfl, nofun⟩
      | refuse => exact ⟨rfl, rfl, nofun⟩
      | flag => exact ⟨rfl, rfl, nofun⟩
      | release =>
        refine ⟨?_, rfl, nofun⟩
        dsimp only
        rw [left]
        rfl
    exact ⟨⟨error, kept.1.trans left⟩, kept.2.1.trans abandoned.untold, kept.2.2⟩
  | wakeProducer =>
    rw [Chunking.step, left] at made
    cases made
  | wakeWorker =>
    rw [Chunking.step] at made
    split at made
    · cases made
      exact ⟨⟨error, left⟩, abandoned.untold, nofun⟩
    · cases made

theorem Abandoned.not_returned (abandoned : Abandoned state) : ¬Returned state := by
  rintro ⟨result, returned⟩
  obtain ⟨error, left⟩ := abandoned.left
  rw [returned] at left
  cases left

theorem Sound.abandoned (sound : Sound state) (fails : FailsRead state)
    (made : state.produce chunker sha256 budget = some next) : Abandoned next := by
  have inside : state.producer.isDone = false := by
    rcases fails with ⟨_, place, _⟩ | ⟨_, _, place, _⟩ <;> rw [place] <;> rfl
  have untold : state.producerDone = false := sound.told.trans inside
  have running := sound.not_stopped inside
  unfold produce at made
  rcases fails with ⟨error, place, going⟩ | ⟨error, reads, place, found⟩
  · rw [place] at made
    dsimp only at made
    rw [going] at made
    cases made
    exact ⟨⟨error, rfl⟩, untold, running⟩
  · rw [place] at made
    dsimp only at made
    rw [found] at made
    cases made
    exact ⟨⟨error, rfl⟩, untold, running⟩

theorem Sound.abandoned_run {last : State E} {events : List (Event E)} (sound : Sound state)
    (failed : ¬Along (Chunking.step chunker sha256 budget) ReadsOn state events)
    (ran : run (Chunking.step chunker sha256 budget) state events = some last) :
    Abandoned last := by
  induction events generalizing state with
  | nil => exact absurd trivial failed
  | cons event events induction =>
    obtain ⟨middle, made, later⟩ := run_cons ran
    by_cases reads : ReadsOn state event
    · apply induction (sound.step reads made) _ later
      intro along
      apply failed
      refine ⟨reads, fun other taken => ?_⟩
      cases made.symm.trans taken
      exact along
    · cases event with
      | produce =>
        have fails : FailsRead state := by
          by_contra reading
          exact reads reading
        exact invariant_run_always (fun _ _ _ abandoned => abandoned.step)
          (sound.abandoned fails made) later
      | _ => exact absurd trivial reads

/-! ## Whole runs -/

/-- While no read fails, the producer never leaves a waiting worker behind, one of the threads
has a step until the function has returned, there are only so many steps to take apart from
needless wakeups, and what is returned is the first error of a commit if there was one. A run
that meets a failed read never returns. -/
theorem chunking_returns (chunker : Chunker) (sha256 : List UInt8 → List UInt8) (budget : Nat)
    (reads : List (Except E (List UInt8))) (events : List (Event E)) (last : State E)
    (ran : run (step chunker sha256 budget) (start reads) events = some last) :
    (Along (step chunker sha256 budget) ReadsOn (start reads) events → ¬Stranded last ∧
      (Returned last ∨
        ∃ event : Event E, event.idle = false ∧ (step chunker sha256 budget last event).isSome) ∧
      events.length ≤ 9 * reads.length + 15 + 2 * events.countP Event.idle ∧
      ∀ result, last.producer = .returned result →
        result = report (firstFailure last.store) last.blocks) ∧
    (¬Along (step chunker sha256 budget) ReadsOn (start reads) events →
      ∀ further final, run (step chunker sha256 budget) last further = some final →
        ¬Returned final) := by
  constructor
  · intro along
    have sound : Sound last :=
      invariant_run (fun _ _ _ holds allowed made => holds.step allowed made) (sound_start reads)
        along ran
    refine ⟨?_, ?_, ?_, ?_⟩
    · rintro ⟨⟨result, left⟩, parked, untold⟩
      have finished := sound.finished (by rw [left]; rfl)
      rw [parked] at finished
      cases finished
    · by_cases finished : Returned last
      · exact .inl finished
      · exact .inr (sound.progress finished)
    · have bound := @length_run_le _ _ (step chunker sha256 budget) State.weight Event.idle
        (fun _ _ _ made => weight_step made) _ _ _ ran
      have initial : (start reads).weight = 9 * reads.length + 15 := by
        simp only [start, State.weight, Producer.weight, Worker.weight, List.length_nil]
      omega
    · intro result returned
      have reports := sound.reports
      rw [Reports, returned] at reports
      exact reports
  · intro failed further final continued
    have abandoned := (sound_start reads).abandoned_run failed ran
    exact (invariant_run_always (fun _ _ _ abandoned => abandoned.step) abandoned
      continued).not_returned

/-- A file of one short block, committed while the producer waits in `finish`. -/
def shortRun : List (Event Unit) :=
  [.produce, .produce, .produce, .produce, .produce, .work none, .work none, .work none,
    .work none, .produce, .produce]

theorem chunking_returns_short_block :
    (run (step (.fixed 4) id 100) (start (E := Unit) [.ok [7]]) shortRun).map
        (fun last => last.producer matches .returned (.ok [_])) = some true ∧
      ∀ last, run (step (.fixed 4) id 100) (start (E := Unit) [.ok [7]]) shortRun = some last →
        ¬Stranded last := by
  refine ⟨rfl, fun last ran => ?_⟩
  exact ((chunking_returns (.fixed 4) id 100 [.ok [7]] shortRun last ran).1 (by decide)).1

/-- The worker waits for work, then the first read fails: with either chunker the producer
leaves the scope body and the worker waits on. -/
theorem failed_read_strands_worker : (¬∀ (sha256 : List UInt8 → List UInt8) (budget : Nat)
        (reads : List (Except Unit (List UInt8))) (events : List (Event Unit)) (last : State Unit),
      run (step .contentDefined sha256 budget) (start reads) events = some last → ¬Stranded last) ∧
    ¬∀ (blockSize : Nat) (sha256 : List UInt8 → List UInt8) (budget : Nat)
        (reads : List (Except Unit (List UInt8))) (events : List (Event Unit)) (last : State Unit),
      run (step (.fixed blockSize) sha256 budget) (start reads) events = some last →
        ¬Stranded last := by
  constructor
  · intro always
    exact always id 100 [.error ()] [.work none, .produce, .produce] _ rfl
      ⟨⟨_, rfl⟩, rfl, rfl⟩
  · intro always
    exact always 4 id 100 [.error ()] [.work none, .produce, .produce] _ rfl
      ⟨⟨_, rfl⟩, rfl, rfl⟩

end Yadorilink.Chunking
