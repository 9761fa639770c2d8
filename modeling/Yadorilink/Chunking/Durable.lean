import Yadorilink.Chunking.Returns

/-! What a streaming chunker reports is durable. Every block it has read is in one place: handed to
the store, with the worker, queued, on its way to the queue or waiting for the next batch. When the
chunker returns its blocks they are all with the store, and no batch has failed. -/

namespace Yadorilink.Chunking

open Machine List State

variable {E : Type} {chunker : Chunker} {sha256 : List UInt8 → List UInt8} {budget : Nat}
variable {reads : List (Except E (List UInt8))} {state next : State E}

/-! ## Where a block is -/

def Producer.batch : Producer E → List LocallyHashedBlock
  | .submitting batch _ => batch
  | .blocked batch _ => batch
  | _ => []

/-- What the producer has read and not yet looked at. -/
def Producer.inHand : Producer E → List UInt8
  | .fetched (.ok bytes) => bytes
  | _ => []

def Worker.batch : Worker → List LocallyHashedBlock
  | .committing batch => batch
  | _ => []

/-- Every block read so far, in order. -/
def State.accepted (state : State E) : List LocallyHashedBlock :=
  state.store.flatMap Prod.fst ++ (state.worker.batch ++ (state.queue.flatten ++
    (state.producer.batch ++ state.pending)))

/-- The blocks laid out one behind the other from `offset` on. -/
def layout (offset : Nat) : List LocallyHashedBlock → List BlockInfo
  | [] => []
  | block :: rest =>
    { hash := block.hash, offset := offset, size := block.bytes.length } ::
      layout (offset + block.bytes.length) rest

/-- The bytes the reads have given. -/
def bytesRead (reads : List (Except E (List UInt8))) : List UInt8 :=
  reads.flatMap fun outcome => match outcome with
    | .ok bytes => bytes
    | .error _ => []

theorem layout_append (offset : Nat) (first second : List LocallyHashedBlock) :
    layout offset (first ++ second) =
      layout offset first ++ layout (offset + batchBytes first) second := by
  induction first generalizing offset with
  | nil => rfl
  | cons block rest induction =>
    rw [cons_append, layout, layout, induction, cons_append]
    simp only [batchBytes, map_cons, sum_cons, Nat.add_assoc]

theorem batchBytes_append (first second : List LocallyHashedBlock) :
    batchBytes (first ++ second) = batchBytes first + batchBytes second := by
  rw [batchBytes, map_append, sum_append, batchBytes, batchBytes]

theorem bytesRead_append (first second : List (Except E (List UInt8))) :
    bytesRead (first ++ second) = bytesRead first ++ bytesRead second :=
  flatMap_append

/-- The producer is behind the loop and has taken its last blocks along. -/
def Producer.isLast : Producer E → Bool
  | .submitting _ .finishing => true
  | .blocked _ .finishing => true
  | .finishing => true
  | producer => producer.isDone

/-- What holds while no read has failed. A block that was read is dropped only when a batch has
failed. -/
structure Accounts (sha256 : List UInt8 → List UInt8) (reads : List (Except E (List UInt8)))
    (state : State E) : Prop where
  laidOut : state.blocks = layout 0 state.accepted
  reached : state.offset = batchBytes state.accepted
  hashed : ∀ block ∈ state.accepted, block.hash = sha256 block.bytes
  stops : state.stop = true → firstFailure state.store ≠ none
  flags : ∀ bytes, state.worker = .flagging bytes → firstFailure state.store ≠ none
  covered : firstFailure state.store = none → ∃ used, reads = used ++ state.reads ∧
    bytesRead used = state.accepted.flatMap LocallyHashedBlock.bytes ++ state.producer.inHand
  emptied : state.producer.isLast = true → state.pending = []
  drained : state.worker = .stopped → state.queue = []

theorem accounts_start (reads : List (Except E (List UInt8))) :
    Accounts sha256 reads (start reads) where
  laidOut := rfl
  reached := rfl
  hashed := fun _ member => absurd member not_mem_nil
  stops := fun stopped => absurd stopped Bool.false_ne_true
  flags := fun _ flagging => Worker.noConfusion flagging
  covered := fun _ => ⟨[], rfl, rfl⟩
  emptied := fun _ => rfl
  drained := fun _ => rfl

/-! ## The producer -/

section

variable (accounts : Accounts sha256 reads state)

include accounts

/-- A step that leaves every block where it counts and reads nothing. -/
theorem Accounts.moved
    (same : next.blocks = state.blocks ∧ next.offset = state.offset ∧
      next.accepted = state.accepted ∧ next.reads = state.reads ∧ next.stop = state.stop)
    (failure : firstFailure next.store = firstFailure state.store)
    (inHand : firstFailure state.store = none → next.producer.inHand = state.producer.inHand)
    (flagging : ∀ bytes, next.worker = .flagging bytes → state.worker = .flagging bytes)
    (emptied : next.producer.isLast = true → next.pending = [])
    (drained : next.worker = .stopped → next.queue = []) : Accounts sha256 reads next := by
  obtain ⟨blocks, offset, accepted, read, stop⟩ := same
  exact {
    laidOut := by rw [blocks, accepted, accounts.laidOut]
    reached := by rw [offset, accepted, accounts.reached]
    hashed := by rw [accepted]; exact accounts.hashed
    stops := by rw [stop, failure]; exact accounts.stops
    flags := fun bytes flags => by
      rw [failure]
      exact accounts.flags bytes (flagging bytes flags)
    covered := by
      rw [failure, accepted, read]
      intro none
      rw [inHand none]
      exact accounts.covered none
    emptied := emptied
    drained := drained }

/-- Reading on, with what was read in hand or with nothing to keep. -/
theorem Accounts.reading {outcome : Except E (List UInt8)} {rest : List (Except E (List UInt8))}
    {producer : Producer E}
    (found : state.reads = outcome :: rest) (idle : state.producer.inHand = [])
    (place : state.producer.batch = []) (inner : producer.isLast = false)
    (batch : producer.batch = []) (inHand : producer.inHand = bytesRead [outcome]) :
    Accounts sha256 reads { state with producer := producer, reads := rest } := by
  have accepted : accepted { state with producer := producer, reads := rest } =
      state.accepted := by
    simp only [accepted, batch, place]
  exact {
    laidOut := accounts.laidOut.trans (by rw [accepted])
    reached := accounts.reached.trans (by rw [accepted])
    hashed := by rw [accepted]; exact accounts.hashed
    stops := accounts.stops
    flags := accounts.flags
    covered := by
      intro none
      obtain ⟨used, whole, bytes⟩ := accounts.covered none
      refine ⟨used ++ [outcome], ?_, ?_⟩
      · rw [whole, found, append_assoc]
        rfl
      · rw [bytesRead_append, bytes, idle, append_nil, accepted]
        exact congrArg _ inHand.symm
    emptied := fun last => absurd (inner.symm.trans last) Bool.false_ne_true
    drained := accounts.drained }

theorem Accounts.accept {bytes : List UInt8} {rest : List (Except E (List UInt8))} {after : Next} (place : state.producer.batch = [])
    (goes : after ≠ .finishing)
    (covered : firstFailure state.store = none → ∃ used, reads = used ++ rest ∧
      bytesRead used = state.accepted.flatMap LocallyHashedBlock.bytes ++ bytes) :
    Accounts sha256 reads
      ((State.accept sha256 { state with reads := rest } bytes).submitFull after) := by
  generalize isNext : (State.accept sha256 { state with reads := rest } bytes).submitFull after =
    next
  have shape : next.blocks = state.blocks ++
        [{ hash := sha256 bytes, offset := state.offset, size := bytes.length }] ∧
      next.offset = state.offset + bytes.length ∧
      next.accepted = state.accepted ++ [{ hash := sha256 bytes, bytes := bytes }] ∧
      next.reads = rest ∧ next.stop = state.stop ∧ next.store = state.store ∧
      next.worker = state.worker ∧ next.queue = state.queue ∧ next.producer.inHand = [] ∧
      next.producer.isLast = false := by
    rw [← isNext, State.submitFull]
    split
    · refine ⟨rfl, rfl, ?_, rfl, rfl, rfl, rfl, rfl, rfl, ?_⟩
      · rw [State.accepted, State.accepted, place]
        simp [State.accept, Producer.batch]
      · cases after with
        | finishing => exact absurd rfl goes
        | top => rfl
        | ended => rfl
    · have outside : (after.producer : Producer E).batch = [] ∧
          (after.producer : Producer E).inHand = [] ∧
          (after.producer : Producer E).isLast = false := by
        cases after with
        | finishing => exact absurd rfl goes
        | top => exact ⟨rfl, rfl, rfl⟩
        | ended => exact ⟨rfl, rfl, rfl⟩
      refine ⟨rfl, rfl, ?_, rfl, rfl, rfl, rfl, rfl, outside.2.1, outside.2.2⟩
      simp [State.accepted, State.accept, outside.1, place]
  obtain ⟨blocks, offset, accepted, read, stop, store, worker, queue, inHand, inner⟩ := shape
  exact {
    laidOut := by
      rw [blocks, accepted, layout_append, accounts.laidOut, accounts.reached, Nat.zero_add]
      rfl
    reached := by
      rw [offset, accepted, batchBytes_append, accounts.reached]
      rfl
    hashed := by
      intro block member
      rw [accepted, mem_append, mem_singleton] at member
      rcases member with old | rfl
      · exact accounts.hashed block old
      · rfl
    stops := by rw [stop, store]; exact accounts.stops
    flags := by rw [worker, store]; exact accounts.flags
    covered := by
      rw [store, read, accepted, inHand, append_nil]
      simpa using covered
    emptied := fun last => absurd (inner.symm.trans last) Bool.false_ne_true
    drained := by rw [worker, queue]; exact accounts.drained }

theorem Accounts.produce (sound : Sound state)
    (going : ¬FailsRead state) (made : state.produce chunker sha256 budget = some next) :
    Accounts sha256 reads next := by
  have running := accounts.stops
  unfold State.produce at made
  split at made
  case h_1 top =>
      have leaves : ∀ {producer : Producer E}, producer.batch = [] → producer.inHand = [] →
          producer.isLast = false →
          Accounts sha256 reads { state with producer := producer } := by
        intro producer batch inHand inner
        refine accounts.moved ⟨rfl, rfl, ?_, rfl, rfl⟩ rfl (fun _ => ?_) (fun _ same => same)
          (fun last => absurd (inner.symm.trans last) Bool.false_ne_true) accounts.drained
        · rw [State.accepted, State.accepted, batch, top]
          rfl
        · rw [inHand, top]
          rfl
      split at made
      · split at made
        · cases made
          exact leaves rfl rfl rfl
        · rename_i outcome rest found
          cases made
          refine accounts.reading found (by rw [top]; rfl) (by rw [top]; rfl) rfl rfl ?_
          cases outcome <;> simp [Producer.inHand, bytesRead]
      · cases made
        split
        · exact leaves rfl rfl rfl
        · exact leaves rfl rfl rfl
  case h_2 outcome fetched =>
      split at made
      · rename_i stopped
        cases made
        refine accounts.moved ⟨rfl, rfl, ?_, rfl, rfl⟩ rfl
          (fun none => absurd none (running stopped)) (fun _ same => same)
          (fun last => absurd last Bool.false_ne_true) accounts.drained
        simp only [State.accepted, fetched, Producer.batch]
      · rename_i running
        split at made
        · rename_i error
          exact absurd (.inl ⟨error, fetched, Bool.eq_false_iff.mpr running⟩) going
        · rename_i bytes
          cases made
          have covered := accounts.covered
          rw [fetched] at covered
          exact accounts.accept (by rw [fetched]; rfl) (by decide) covered
  case h_3 reading =>
      have idle : state.producer.inHand = [] := by
        rw [reading]
        rfl
      have place : state.producer.batch = [] := by
        rw [reading]
        rfl
      split at made
      · cases made
        refine accounts.moved ⟨rfl, rfl, ?_, rfl, rfl⟩ rfl (fun _ => idle.symm) (fun _ same => same)
          (fun last => absurd last Bool.false_ne_true) accounts.drained
        rw [State.accepted, State.accepted, place]
        rfl
      · rename_i error rest found
        exact absurd (.inr ⟨error, rest, reading, found⟩) going
      · rename_i bytes rest found
        have covered : firstFailure state.store = none → ∃ used, reads = used ++ rest ∧
            bytesRead used = state.accepted.flatMap LocallyHashedBlock.bytes ++ bytes := by
          intro none
          obtain ⟨used, whole, given⟩ := accounts.covered none
          refine ⟨used ++ [.ok bytes], ?_, ?_⟩
          · rw [whole, found, append_assoc]
            rfl
          · rw [bytesRead_append, given, idle, append_nil]
            simp [bytesRead]
        dsimp only at made
        split at made
        · rename_i empty
          cases made
          refine accounts.reading found idle place rfl rfl ?_
          rw [isEmpty_iff.mp empty]
          rfl
        · split at made
          · cases made
            exact accounts.accept place (by decide) covered
          · cases made
            refine accounts.accept place ?_ covered
            split
            · decide
            · decide
  case h_4 batch after submitting =>
      split at made
      · cases made
        refine accounts.moved ⟨rfl, rfl, ?_, rfl, rfl⟩ rfl (fun _ => by rw [submitting]; rfl)
          (fun _ same => same) (fun last => accounts.emptied ?_) accounts.drained
        · simp only [State.accepted, submitting, Producer.batch]
        · rw [submitting]
          cases after <;> first | rfl | cases last
      · cases made
        have waits : state.worker ≠ .stopped := sound.not_stopped (by rw [submitting]; rfl)
        refine accounts.moved ⟨rfl, rfl, ?_, rfl, rfl⟩ rfl (fun _ => ?_) ?_
          (fun last => accounts.emptied ?_) ?_
        · have worker : state.worker.notified.batch = state.worker.batch := by
            cases state.worker <;> rfl
          have inner : (after.producer : Producer E).batch = [] := by cases after <;> rfl
          rw [State.accepted, State.accepted, submitting, inner, worker]
          simp [Producer.batch]
        · rw [submitting]
          cases after <;> rfl
        · intro bytes flagging
          cases worker : state.worker <;> rw [worker] at flagging <;> cases flagging
          rfl
        · rw [submitting]
          cases after <;> first | rfl | cases last
        · exact fun stopped => absurd (Worker.eq_stopped_of_notified stopped) waits
  case h_5 => cases made
  case h_6 ended =>
      split at made
      · rename_i empty
        cases made
        refine accounts.moved ⟨rfl, rfl, ?_, rfl, rfl⟩ rfl (fun _ => by rw [ended]; rfl)
          (fun _ same => same) (fun _ => isEmpty_iff.mp empty) accounts.drained
        simp only [State.accepted, ended, Producer.batch]
      · cases made
        refine accounts.moved ⟨rfl, rfl, ?_, rfl, rfl⟩ rfl (fun _ => by rw [ended]; rfl)
          (fun _ same => same) (fun _ => rfl) accounts.drained
        simp [State.accepted, ended, Producer.batch]
  case h_7 finishing =>
      cases made
      refine accounts.moved ⟨rfl, rfl, ?_, rfl, rfl⟩ rfl (fun _ => by rw [finishing]; rfl) ?_
        (fun _ => accounts.emptied (by rw [finishing]; rfl)) ?_
      · have worker : state.worker.notified.batch = state.worker.batch := by
          cases state.worker <;> rfl
        simp only [State.accepted, finishing, Producer.batch, worker]
      · intro bytes flagging
        cases worker : state.worker <;> rw [worker] at flagging <;> cases flagging
        rfl
      · exact fun stopped => accounts.drained (Worker.eq_stopped_of_notified stopped)
  case h_8 joining =>
      split at made
      · cases made
        refine accounts.moved ⟨rfl, rfl, ?_, rfl, rfl⟩ rfl (fun _ => by rw [joining]; rfl)
          (fun _ same => same) (fun _ => accounts.emptied (by rw [joining]; rfl)) accounts.drained
        simp only [State.accepted, joining, Producer.batch]
      · cases made
  case h_9 result left =>
      split at made
      · cases made
        refine accounts.moved ⟨rfl, rfl, ?_, rfl, rfl⟩ rfl (fun _ => by rw [left]; rfl)
          (fun _ same => same) (fun _ => accounts.emptied (by rw [left]; rfl)) accounts.drained
        simp only [State.accepted, left, Producer.batch]
      · cases made
  case h_10 => cases made

end

/-! ## The worker -/

theorem Accounts.works {outcome : Option E} (accounts : Accounts sha256 reads state)
    (made : Works state outcome next) : Accounts sha256 reads next := by
  have emptied := accounts.emptied
  cases made with
  | pop place found =>
    refine accounts.moved ⟨rfl, rfl, ?_, rfl, rfl⟩ rfl (fun _ => rfl)
      (fun _ flagging => Worker.noConfusion flagging) emptied
      (fun stopped => Worker.noConfusion stopped)
    simp [accepted, place, found, Worker.batch]
  | retire place empty done =>
    refine accounts.moved ⟨rfl, rfl, ?_, rfl, rfl⟩ rfl (fun _ => rfl)
      (fun _ flagging => Worker.noConfusion flagging) emptied (fun _ => empty)
    simp only [accepted, place, Worker.batch]
  | park place empty open_ =>
    refine accounts.moved ⟨rfl, rfl, ?_, rfl, rfl⟩ rfl (fun _ => rfl)
      (fun _ flagging => Worker.noConfusion flagging) emptied
      (fun stopped => Worker.noConfusion stopped)
    simp only [accepted, place, Worker.batch]
  | commit place ok =>
    refine accounts.moved ⟨rfl, rfl, ?_, rfl, rfl⟩ ?_ (fun _ => rfl)
      (fun _ flagging => Worker.noConfusion flagging) emptied
      (fun stopped => Worker.noConfusion stopped)
    · simp [accepted, place, Worker.batch]
    · rw [firstFailure_append, Option.or_none]
  | @refuse batch error place failed =>
    have fails : firstFailure (state.store ++ [(batch, some error)]) ≠ none := by
      rw [firstFailure_append]
      cases firstFailure state.store <;> simp
    have accepted : accepted { state with
        store := state.store ++ [(batch, some error)]
        error := state.error.or (some error)
        worker := .flagging (batchBytes batch) } = state.accepted := by
      simp [accepted, place, Worker.batch]
    exact {
      laidOut := accounts.laidOut.trans (by rw [accepted])
      reached := accounts.reached.trans (by rw [accepted])
      hashed := by rw [accepted]; exact accounts.hashed
      stops := fun _ => fails
      flags := fun _ _ => fails
      covered := fun none => absurd none fails
      emptied := emptied
      drained := fun stopped => Worker.noConfusion stopped }
  | @flag bytes place =>
    have fails := accounts.flags bytes place
    have accepted : accepted { state with stop := true, worker := .releasing bytes } =
        state.accepted := by
      simp only [accepted, place, Worker.batch]
    exact {
      laidOut := accounts.laidOut.trans (by rw [accepted])
      reached := accounts.reached.trans (by rw [accepted])
      hashed := by rw [accepted]; exact accounts.hashed
      stops := fun _ => fails
      flags := fun _ _ => fails
      covered := fun none => absurd none fails
      emptied := emptied
      drained := fun stopped => Worker.noConfusion stopped }
  | release place =>
    refine accounts.moved ⟨rfl, rfl, ?_, rfl, rfl⟩ rfl (fun _ => ?_)
      (fun _ flagging => Worker.noConfusion flagging) ?_
      (fun stopped => Worker.noConfusion stopped)
    · have batch : state.producer.notified.batch = state.producer.batch := by
        cases state.producer <;> rfl
      simp only [accepted, place, Worker.batch, batch]
    · dsimp only
      cases state.producer <;> rfl
    · intro last
      apply emptied
      dsimp only at last
      cases place : state.producer with
      | blocked batch after =>
        rw [place] at last
        cases after <;> first | rfl | cases last
      | _ => rw [place] at last; exact last

theorem Accounts.step {event : Event E} (accounts : Accounts sha256 reads state)
    (sound : Sound state) (going : ReadsOn state event)
    (made : Chunking.step chunker sha256 budget state event = some next) :
    Accounts sha256 reads next := by
  cases event with
  | produce => exact accounts.produce sound going made
  | work outcome => exact accounts.works (works_of_work made)
  | wakeProducer =>
    rw [Chunking.step] at made
    split at made
    · rename_i batch after blocked
      cases made
      refine accounts.moved ⟨rfl, rfl, ?_, rfl, rfl⟩ rfl (fun _ => by rw [blocked]; rfl)
        (fun _ same => same) (fun last => accounts.emptied ?_) accounts.drained
      · simp only [accepted, blocked, Producer.batch]
      · rw [blocked]
        cases after <;> first | rfl | cases last
    · cases made
  | wakeWorker =>
    rw [Chunking.step] at made
    split at made
    · rename_i parked
      cases made
      refine accounts.moved ⟨rfl, rfl, ?_, rfl, rfl⟩ rfl (fun _ => rfl)
        (fun _ flagging => Worker.noConfusion flagging) accounts.emptied
        (fun stopped => Worker.noConfusion stopped)
      simp only [accepted, parked, Worker.batch]
    · cases made

/-! ## What is reported -/

theorem firstFailure_eq_none_iff {store : List (List LocallyHashedBlock × Option E)} :
    firstFailure store = none ↔ ∀ entry ∈ store, entry.2 = none := by
  rw [firstFailure, findSome?_eq_none_iff]

/-- When a chunker returns its blocks, they lie one behind the other from the start of the file on,
they hold the bytes that were read, and each was in a batch whose commit succeeded. If any commit
has failed it returns an error. -/
theorem reported_blocks_durable (chunker : Chunker) (sha256 : List UInt8 → List UInt8)
    (budget : Nat) (reads : List (Except E (List UInt8))) (events : List (Event E))
    (last : State E) (ran : run (step chunker sha256 budget) (start reads) events = some last)
    (result : Except E (List BlockInfo)) (returned : last.producer = .returned result) :
    (∀ blocks, result = .ok blocks →
      ∃ accepted used, blocks = layout 0 accepted ∧ reads = used ++ last.reads ∧
        accepted.flatMap LocallyHashedBlock.bytes = bytesRead used ∧
        ∀ block ∈ accepted, block.hash = sha256 block.bytes ∧
          ∃ batch, (batch, none) ∈ last.store ∧ block ∈ batch) ∧
    ((∃ batch error, (batch, some error) ∈ last.store) → ∃ error, result = .error error) := by
  have along : Along (step chunker sha256 budget) ReadsOn (start reads) events := by
    by_contra failed
    exact ((sound_start reads).abandoned_run failed ran).not_returned ⟨result, returned⟩
  have both : Sound last ∧ Accounts sha256 reads last :=
    @invariant_run _ _ _ _ (fun state => Sound state ∧ Accounts sha256 reads state)
      (fun _ _ _ holds allowed made =>
        ⟨holds.1.step allowed made, holds.2.step holds.1 allowed made⟩) _ _ _
      ⟨sound_start reads, accounts_start reads⟩ along ran
  obtain ⟨sound, accounts⟩ := both
  have reports := sound.reports
  rw [Reports, returned] at reports
  have stopped := sound.finished (by rw [returned]; rfl)
  constructor
  · rintro blocks rfl
    have failed : firstFailure last.store = none := by
      cases found : firstFailure last.store with
      | none => rfl
      | some error =>
        rw [found] at reports
        cases reports
    rw [failed] at reports
    have handed : last.accepted = last.store.flatMap Prod.fst := by
      rw [State.accepted, stopped, accounts.drained stopped, returned,
        accounts.emptied (by rw [returned]; rfl)]
      simp [Worker.batch, Producer.batch]
    obtain ⟨used, whole, bytes⟩ := accounts.covered failed
    refine ⟨last.accepted, used, ?_, whole, ?_, ?_⟩
    · cases reports
      exact accounts.laidOut
    · rw [bytes, returned]
      exact (List.append_nil _).symm
    · intro block member
      refine ⟨accounts.hashed block member, ?_⟩
      rw [handed, List.mem_flatMap] at member
      obtain ⟨entry, stored, inBatch⟩ := member
      refine ⟨entry.1, ?_, inBatch⟩
      rw [← firstFailure_eq_none_iff.mp failed entry stored]
      exact stored
  · rintro ⟨batch, error, stored⟩
    cases found : firstFailure last.store with
    | none => cases firstFailure_eq_none_iff.mp found _ stored
    | some first =>
      rw [found] at reports
      exact ⟨first, reports⟩

theorem reported_blocks_durable_short_block :
    (run (step (.fixed 4) id 100) (start (E := Unit) [.ok [7]]) shortRun).map
        (fun last => last.producer matches .returned (.ok [_])) = some true ∧
      ∀ last blocks, run (step (.fixed 4) id 100) (start (E := Unit) [.ok [7]]) shortRun =
          some last → last.producer = .returned (.ok blocks) →
        ∃ accepted, blocks = layout 0 accepted ∧
          ∀ block ∈ accepted, ∃ batch, (batch, none) ∈ last.store ∧ block ∈ batch := by
  refine ⟨rfl, fun last blocks ran returned => ?_⟩
  obtain ⟨accepted, _, laidOut, _, _, durable⟩ :=
    (reported_blocks_durable (.fixed 4) id 100 [.ok [7]] shortRun last ran _ returned).1 blocks rfl
  exact ⟨accepted, laidOut, fun block member => (durable block member).2⟩

end Yadorilink.Chunking
