import Yadorilink.Store.Closure

/-! What the sweep of unservable holds drops. Dead positions are followed along a table that
shrinks, so the sweep ends, and whatever order the rows come in it drops the least set of holds
that the first dead position dooms. -/

namespace Yadorilink.Store

open Std List

/-- The holds that a dead position, or a hold dropped for it, dooms. -/
inductive Unservable (holds : List HoldRow) (start : AuthorId × Nat) : HoldRow → Prop
  | start {row : HoldRow} (held : row ∈ holds) (doomed : doomedBy start.1 start.2 row = true) :
    Unservable holds start row
  | follow {dropped row : HoldRow} (earlier : Unservable holds start dropped) (held : row ∈ holds)
    (doomed : doomedBy dropped.delta.author dropped.delta.seq row = true) :
    Unservable holds start row

/-- One turn of the sweep, with the doomed rows in any order they may be returned in. -/
inductive Turn (crypto : Crypto) : Store × DeadPositions → Store × DeadPositions → Prop
  | follow {store : Store} {dead : DeadPositions} {who : AuthorId} {since : Nat}
    {doomed : List HoldRow} (last : dead.queue.getLast? = some (who, since))
    (rows : doomed.Perm (store.holds.filter (doomedBy who since))) :
    Turn crypto (store, dead)
      (dropDoomed crypto doomed store { dead with queue := dead.queue.dropLast })

variable {crypto : Crypto} {store current : Store} {dead later : DeadPositions}
  {start : AuthorId × Nat} {doomed : List HoldRow} {row : HoldRow}

theorem Unservable.mem (unservable : Unservable store.holds start row) : row ∈ store.holds := by
  cases unservable with
  | start held => exact held
  | follow _ held => exact held

/-! ## One turn -/

theorem dropDoomed_store (crypto : Crypto) (doomed : List HoldRow) (store : Store)
    (dead : DeadPositions) :
    ∃ pending, (dropDoomed crypto doomed store dead).1 = { store with
      holds := store.holds.filter fun row => ∀ gone ∈ doomed, row.delta.dot ≠ gone.delta.dot
      pending := pending } := by
  induction doomed generalizing store dead with
  | nil => exact ⟨store.pending, by simp [dropDoomed]⟩
  | cons row rest induction =>
    rcases induction (store.dropHold crypto row) (dead.note row.delta.author row.delta.seq) with
      ⟨pending, left⟩
    refine ⟨pending, ?_⟩
    rw [dropDoomed, left]
    simp [dropHold, clearHold, Bool.and_comm]

/-- What noting dropped holds does to the dead positions. -/
structure Noted (dead : DeadPositions) (doomed : List HoldRow) (later : DeadPositions) : Prop where
  queue : ∃ added, later.queue = dead.queue ++ added ∧ added.length ≤ doomed.length ∧
    ∀ position ∈ added, ∃ row ∈ doomed, position = (row.delta.author, row.delta.seq)
  lowers : ∀ (who : AuthorId) (first : Nat), dead.first[who]? = some first →
    ∃ lower, later.first[who]? = some lower ∧ lower ≤ first
  reaches : ∀ row ∈ doomed, ∃ first, later.first[row.delta.author]? = some first ∧
    first ≤ row.delta.seq
  fresh : ∀ (who : AuthorId) (first : Nat), later.first[who]? = some first →
    (who, first) ∈ later.queue ∨ dead.first[who]? = some first

theorem noted_note (dead : DeadPositions) (row : HoldRow) :
    Noted dead [row] (dead.note row.delta.author row.delta.seq) := by
  unfold DeadPositions.note
  split
  · rename_i lowest
    constructor
    · exact ⟨[_], rfl, by simp, by simp⟩
    · intro who first known
      by_cases same : row.delta.author = who
      · subst same
        exact ⟨row.delta.seq, by simp, by simp [known] at lowest; omega⟩
      · exact ⟨first, by simp [same, known], Nat.le_refl _⟩
    · simp
    · intro who first known
      by_cases same : row.delta.author = who
      · subst same
        obtain rfl : row.delta.seq = first := by simpa using known
        simp
      · exact .inr (by simpa [same] using known)
  · rename_i reached
    constructor
    · exact ⟨[], by simp⟩
    · exact fun who first known => ⟨first, known, Nat.le_refl _⟩
    · cases known : dead.first[row.delta.author]? with
      | none => simp [known] at reached
      | some first => simpa [known] using reached
    · exact fun _ _ known => .inr known

theorem Noted.append {middle : DeadPositions} {rest : List HoldRow}
    (first : Noted dead doomed middle) (second : Noted middle rest later) :
    Noted dead (doomed ++ rest) later := by
  rcases first.queue with ⟨added, queued, short, named⟩
  rcases second.queue with ⟨more, queuedMore, shortMore, namedMore⟩
  constructor
  · refine ⟨added ++ more, by rw [queuedMore, queued, append_assoc], by simp; omega, ?_⟩
    grind
  · intro who known isKnown
    rcases first.lowers who known isKnown with ⟨lower, found, below⟩
    rcases second.lowers who lower found with ⟨lowest, last, least⟩
    exact ⟨lowest, last, by omega⟩
  · intro row member
    rcases mem_append.mp member with early | late
    · rcases first.reaches row early with ⟨known, found, below⟩
      rcases second.lowers _ known found with ⟨lowest, last, least⟩
      exact ⟨lowest, last, by omega⟩
    · exact second.reaches row late
  · intro who known found
    rcases second.fresh who known found with queued | before
    · exact .inl queued
    · rcases first.fresh who known before with queuedEarly | old
      · exact .inl (by rw [queuedMore]; exact mem_append_left _ queuedEarly)
      · exact .inr old

theorem noted_dropDoomed (crypto : Crypto) (doomed : List HoldRow) (store : Store)
    (dead : DeadPositions) : Noted dead doomed (dropDoomed crypto doomed store dead).2 := by
  induction doomed generalizing store dead with
  | nil =>
    exact ⟨⟨[], by simp [dropDoomed]⟩, fun _ first known => ⟨first, known, Nat.le_refl _⟩, by simp,
      fun _ _ known => .inr known⟩
  | cons row rest induction => exact (noted_note dead row).append (induction _ _)

/-! ## The sweep -/

/-- What holds between two turns of the sweep. -/
structure Sweep (store : Store) (start : AuthorId × Nat) (current : Store) (dead : DeadPositions) :
    Prop where
  frame : ∃ keeps pending,
    current = { store with holds := store.holds.filter keeps, pending := pending }
  dropped : ∀ row ∈ store.holds, row ∉ current.holds → Unservable store.holds start row
  queued : ∀ position ∈ dead.queue, position = start ∨ ∃ row,
    Unservable store.holds start row ∧ position = (row.delta.author, row.delta.seq)
  started : ∃ first, dead.first[start.1]? = some first ∧ first ≤ start.2
  reached : ∀ row ∈ store.holds, row ∉ current.holds →
    ∃ first, dead.first[row.delta.author]? = some first ∧ first ≤ row.delta.seq
  -- A position that left the queue has nothing left to doom.
  followed : ∀ (who : AuthorId) (first : Nat), dead.first[who]? = some first →
    (who, first) ∈ dead.queue ∨ ∀ row ∈ current.holds, doomedBy who first row = false

theorem sweep_start (store : Store) (start : AuthorId × Nat) :
    Sweep store start store ⟨ExtTreeMap.insert ∅ start.1 start.2, [start]⟩ where
  frame := ⟨fun _ => true, store.pending, by simp⟩
  dropped := fun _ member gone => absurd member gone
  queued := by simp
  started := by simp
  reached := fun _ member gone => absurd member gone
  followed := by
    intro who first known
    by_cases same : start.1 = who
    · subst same
      obtain rfl : start.2 = first := by simpa using known
      simp
    · simp [same] at known

theorem Sweep.turn {next : Store × DeadPositions} (sweep : Sweep store start current dead)
    (turn : Turn crypto (current, dead) next) : Sweep store start next.1 next.2 := by
  cases turn with
  | @follow _ _ who since doomed last rows =>
    have popped : (who, since) ∈ dead.queue := mem_of_getLast? last
    have split : dead.queue = dead.queue.dropLast ++ [(who, since)] :=
      (dropLast_append_getLast? _ last).symm
    have noted := noted_dropDoomed crypto doomed current { dead with queue := dead.queue.dropLast }
    rcases dropDoomed_store crypto doomed current { dead with queue := dead.queue.dropLast } with
      ⟨pending, left⟩
    generalize dropDoomed crypto doomed current { dead with queue := dead.queue.dropLast } = next
      at noted left
    rcases noted.queue with ⟨added, queue, -, named⟩
    rcases sweep.frame with ⟨keeps, _, framed⟩
    have doomedIff : ∀ row, row ∈ doomed ↔ row ∈ current.holds ∧ doomedBy who since row = true :=
      fun row => rows.mem_iff.trans mem_filter
    have remains : ∀ row, row ∈ next.1.holds ↔ row ∈ current.holds ∧
        ∀ gone ∈ doomed, row.delta.dot ≠ gone.delta.dot := by
      simp [left]
    have unservable : ∀ row ∈ doomed, Unservable store.holds start row := by
      intro row member
      rcases (doomedIff row).mp member with ⟨held, isDoomed⟩
      have among : row ∈ store.holds := by
        rw [framed] at held
        exact mem_of_mem_filter held
      rcases sweep.queued _ popped with same | ⟨earlier, gone, same⟩
      · exact .start among (by rw [← same]; exact isDoomed)
      · cases same
        exact .follow gone among isDoomed
    -- A row goes now only with the position of a doomed one.
    have goes : ∀ row ∈ store.holds, row ∉ next.1.holds → row ∉ current.holds ∨
        ∃ gone ∈ doomed, row.delta.author = gone.delta.author ∧ row.delta.seq = gone.delta.seq := by
      intro row _ gone
      by_cases held : row ∈ current.holds
      · simp only [remains, held, true_and, NativeDelta.dot] at gone
        push Not at gone
        exact .inr (by simpa using gone)
      · exact .inl held
    constructor
    · refine ⟨fun row => decide (∀ gone ∈ doomed, row.delta.dot ≠ gone.delta.dot) && keeps row,
        pending, ?_⟩
      rw [left, framed, filter_filter]
    · intro row among gone
      rcases goes row among gone with before | ⟨other, isDoomed, sameAuthor, sameSeq⟩
      · exact sweep.dropped row among before
      · exact .follow (unservable other isDoomed) among (by simp [doomedBy, sameAuthor, sameSeq])
    · intro position member
      rw [queue] at member
      rcases mem_append.mp member with old | new
      · exact sweep.queued position (mem_of_mem_dropLast old)
      · rcases named position new with ⟨row, isDoomed, same⟩
        exact .inr ⟨row, unservable row isDoomed, same⟩
    · rcases sweep.started with ⟨first, known, below⟩
      rcases noted.lowers _ first known with ⟨lower, found, least⟩
      exact ⟨lower, found, by omega⟩
    · intro row among gone
      rcases goes row among gone with before | ⟨other, isDoomed, sameAuthor, sameSeq⟩
      · rcases sweep.reached row among before with ⟨first, known, below⟩
        rcases noted.lowers _ first known with ⟨lower, found, least⟩
        exact ⟨lower, found, by omega⟩
      · rw [sameAuthor, sameSeq]
        exact noted.reaches other isDoomed
    · intro position first known
      rcases noted.fresh position first known with queued | before
      · exact .inl queued
      · rcases sweep.followed position first before with queued | followed
        · rw [split] at queued
          rcases mem_append.mp queued with still | now
          · exact .inl (by rw [queue]; exact mem_append_left _ still)
          · right
            intro row member
            cases mem_singleton.mp now
            by_contra isDoomed
            rw [remains] at member
            exact member.2 row ((doomedIff row).mpr ⟨member.1, by simpa using isDoomed⟩) rfl
        · exact .inr fun row member => followed row ((remains row).mp member).1

/-- With nothing left to follow, every unservable hold is gone. -/
theorem Sweep.not_mem (sweep : Sweep store start current dead) (done : dead.queue = [])
    (unservable : Unservable store.holds start row) : row ∉ current.holds := by
  have spared : ∀ (position : AuthorId × Nat) (row : HoldRow),
      (∃ first, dead.first[position.1]? = some first ∧ first ≤ position.2) →
      doomedBy position.1 position.2 row = true → row ∉ current.holds := by
    intro position row known isDoomed member
    rcases known with ⟨first, known, below⟩
    have later : doomedBy position.1 first row = true := by
      simp only [doomedBy, Bool.or_eq_true, Bool.and_eq_true, decide_eq_true_eq] at isDoomed ⊢
      rcases isDoomed with own | waits
      · exact .inl ⟨own.1, by omega⟩
      · exact .inr ⟨waits.1, by omega⟩
    rcases sweep.followed _ first known with queued | followed
    · simp [done] at queued
    · simp [followed row member] at later
  induction unservable with
  | start held isDoomed => exact spared start _ sweep.started isDoomed
  | @follow earlier row gone held isDoomed induction =>
    exact spared (earlier.delta.author, earlier.delta.seq) row
      (sweep.reached earlier gone.mem induction) isDoomed

theorem Sweep.run {finish : Store × DeadPositions} (sweep : Sweep store start current dead)
    (runs : Relation.ReflTransGen (Turn crypto) (current, dead) finish) :
    Sweep store start finish.1 finish.2 := by
  induction runs with
  | refl => exact sweep
  | tail _ turn induction => exact induction.turn turn

open Classical in
theorem Sweep.finished (sweep : Sweep store start current dead) (done : dead.queue = []) :
    ∃ pending, current = { store with
      holds := store.holds.filter fun row => ¬ Unservable store.holds start row
      pending := pending } := by
  rcases sweep.frame with ⟨keeps, pending, framed⟩
  have same : store.holds.filter keeps =
      store.holds.filter fun row => ¬ Unservable store.holds start row := by
    refine filter_congr fun row member => ?_
    have held : row ∈ current.holds ↔ keeps row = true := by simp [framed, member]
    rw [Bool.eq_iff_iff, ← held, decide_eq_true_eq]
    constructor
    · intro kept unservable
      exact sweep.not_mem done unservable kept
    · intro servable
      by_contra gone
      exact servable (sweep.dropped row member gone)
  exact ⟨pending, by rw [framed, same]⟩

/-! ## Termination -/

/-- A turn takes one position off the queue and adds at most one for each row it deletes. -/
theorem Turn.lt {state next : Store × DeadPositions} (turn : Turn crypto state next) :
    next.1.holds.length + next.2.queue.length < state.1.holds.length + state.2.queue.length := by
  cases turn with
  | @follow store dead who since doomed last rows =>
    have noted := noted_dropDoomed crypto doomed store { dead with queue := dead.queue.dropLast }
    rcases dropDoomed_store crypto doomed store { dead with queue := dead.queue.dropLast } with
      ⟨pending, left⟩
    rcases noted.queue with ⟨added, queue, short, -⟩
    have fewer : (store.holds.filter fun row => ∀ gone ∈ doomed,
        row.delta.dot ≠ gone.delta.dot).length ≤
          (store.holds.filter fun row => !doomedBy who since row).length := by
      rw [← countP_eq_length_filter, ← countP_eq_length_filter]
      refine countP_mono_left fun row member kept => ?_
      by_contra isDoomed
      have listed := rows.mem_iff.mpr (mem_filter.mpr ⟨member, by simpa using isDoomed⟩)
      exact of_decide_eq_true kept row listed rfl
    have all := length_eq_length_filter_add (doomedBy who since) (l := store.holds)
    have positive := length_pos_of_mem (mem_of_getLast? last)
    simp only [left, queue, length_append, length_dropLast, rows.length_eq] at *
    omega

theorem exists_turn (crypto : Crypto) {state : Store × DeadPositions}
    (waiting : state.2.queue ≠ []) : ∃ next, Turn crypto state next :=
  ⟨_, .follow (getLast?_eq_some_getLast waiting) (List.Perm.refl _)⟩

theorem length_turns_le {states : Nat → Store × DeadPositions} {turns : Nat}
    (run : ∀ turn < turns, Turn crypto (states turn) (states (turn + 1))) :
    turns ≤ (states 0).1.holds.length + (states 0).2.queue.length := by
  have counted : ∀ turn ≤ turns, turn + ((states turn).1.holds.length +
      (states turn).2.queue.length) ≤ (states 0).1.holds.length + (states 0).2.queue.length := by
    intro turn
    induction turn with
    | zero => simp
    | succ turn induction =>
      intro within
      have before := induction (by omega)
      have less := (run turn (by omega)).lt
      omega
  have last := counted turns (Nat.le_refl _)
  omega

theorem dropLoop_runs (crypto : Crypto) {turns : Nat}
    (enough : store.holds.length + dead.queue.length ≤ turns) :
    ∃ last, Relation.ReflTransGen (Turn crypto) (store, dead)
      (dropLoop crypto turns store dead, last) ∧ last.queue = [] := by
  induction turns generalizing store dead with
  | zero => exact ⟨dead, .refl, eq_nil_of_length_eq_zero (by omega)⟩
  | succ turns induction =>
    unfold dropLoop
    cases popped : dead.queue.getLast? with
    | none => exact ⟨dead, .refl, getLast?_eq_none_iff.mp popped⟩
    | some position =>
      have turn : Turn crypto (store, dead) _ := .follow popped (List.Perm.refl _)
      rcases induction (Nat.le_of_lt_succ (Nat.lt_of_lt_of_le turn.lt enough)) with
        ⟨last, runs, done⟩
      exact ⟨last, .head turn runs, done⟩

theorem dropUnservableHolds_runs (crypto : Crypto) (store : Store) (author : AuthorId)
    (since : Nat) : ∃ last, Relation.ReflTransGen (Turn crypto)
      (store, ⟨ExtTreeMap.insert ∅ author since, [(author, since)]⟩)
      (store.dropUnservableHolds crypto author since, last) ∧ last.queue = [] :=
  dropLoop_runs crypto (Nat.le_refl _)

open Classical in
/-- Whatever order the rows come in, the sweep ends within one turn for each hold and one more,
and drops the unservable holds and no others. -/
theorem dropUnservableHolds_exact (crypto : Crypto) (store : Store) (author : AuthorId)
    (since : Nat) :
    (∀ (states : Nat → Store × DeadPositions) (turns : Nat),
      states 0 = (store, ⟨ExtTreeMap.insert ∅ author since, [(author, since)]⟩) →
      (∀ turn < turns, Turn crypto (states turn) (states (turn + 1))) →
        turns ≤ store.holds.length + 1) ∧
    (∀ state, Relation.ReflTransGen (Turn crypto)
      (store, ⟨ExtTreeMap.insert ∅ author since, [(author, since)]⟩) state →
        (state.2.queue ≠ [] → ∃ next, Turn crypto state next) ∧
        (state.2.queue = [] → ∃ pending, state.1 = { store with
          holds := store.holds.filter fun row => ¬ Unservable store.holds (author, since) row
          pending := pending })) ∧
    ∃ pending, store.dropUnservableHolds crypto author since = { store with
      holds := store.holds.filter fun row => ¬ Unservable store.holds (author, since) row
      pending := pending } := by
  have begins := sweep_start store (author, since)
  refine ⟨?_, ?_, ?_⟩
  · intro states turns initial run
    have bound := length_turns_le run
    rw [initial] at bound
    exact bound
  · intro state runs
    exact ⟨exists_turn crypto, (begins.run runs).finished⟩
  · rcases dropUnservableHolds_runs crypto store author since with ⟨last, runs, done⟩
    exact (begins.run runs).finished done

theorem dropUnservableHolds_eq (crypto : Crypto) (store : Store) (author : AuthorId) (since : Nat) :
    ∃ holds pending, store.dropUnservableHolds crypto author since =
        { store with holds := holds, pending := pending } ∧ holds.Sublist store.holds := by
  rcases dropUnservableHolds_runs crypto store author since with ⟨last, runs, _⟩
  rcases ((sweep_start store (author, since)).run runs).frame with ⟨keeps, pending, framed⟩
  exact ⟨_, pending, framed, filter_sublist⟩

end Yadorilink.Store
