import Yadorilink.Admission.Runs
import Yadorilink.Store.UnservableHolds

/-! The release cascade in any group, closed authors and rebootstraps
included. An attempt can fail outright only on a delta that passed both gates
and is for another group or names a dot twice; where no such delta waits, the
cascade runs to its end. -/

namespace Yadorilink

open Std Transaction List

/-! ## Holds that are dropped -/

namespace Store

theorem clearHold_sublist (store : Store) (dot : Dot) :
    (store.clearHold dot).holds.Sublist store.holds := filter_sublist

theorem Consistent.withFewerHolds {store : Store} (consistent : store.Consistent)
    {holds : List HoldRow} (among : holds.Sublist store.holds)
    (pending : ExtTreeMap DeltaHash DeltaEvidence) :
    Consistent { store with holds := holds, pending := pending } :=
  ⟨consistent.logged, fun row member => consistent.held row (among.subset member),
    consistent.heldDistinct.sublist (List.Sublist.map _ among)⟩

end Store

/-! ## One turn of the cascade -/

/-- What a turn on `held` leaves: its row settled or pointed elsewhere, and
waiters to follow only when it was admitted. -/
structure TurnLeaves (held : NativeDelta) (store : Store) (turn : Released) (after : Store) :
    Prop where
  consistent : after.Consistent
  journal : after.journal = store.journal
  logGrows : ∀ (dot : Dot) hash, store.log[dot]? = some hash → after.log[dot]? = some hash
  holds : HoldsAfter held store.holds after.holds
  settled : (turn.waiters = [] ∧ after.holds.length ≤ store.holds.length) ∨
    (turn.waiters = after.waitersOf held.dot ∧ after.holds.length < store.holds.length)

theorem Store.holdExists_iff {store : Store} {dot : Dot} :
    store.holdExists dot = true ↔ ∃ row, row ∈ store.holds ∧ row.delta.dot = dot := by
  simp [Store.holdExists, Store.holdOf]

section Turn

variable {crypto : Crypto} {groupId : FolderGroupId} {keyFor : KeyFor} {now : Int}
  {held : NativeDelta} {store : Store}

theorem Attempt.turnLeaves {key : VerifyingKey} {step : Step} {after : Store}
    (consistent : store.Consistent) (decodes : held.decodable = true)
    (inHolds : ∃ row, row ∈ store.holds ∧ row.delta.dot = held.dot)
    (attempt : Attempt crypto groupId held key now store step after) :
    ∃ turn final, afterRetry crypto held step after = .ok turn final ∧
      TurnLeaves held store turn final := by
  have consistentAfter := attempt.consistent consistent decodes
  have noNewRow := attempt.holdsAfter.noNewRow inHolds
  cases dooms : step.dooms with
  | true =>
    rcases Store.dropUnservableHolds_eq crypto after held.author held.seq with
      ⟨holds, pending, dropped, among⟩
    refine ⟨⟨[], []⟩, _, afterRetry_dooms dooms after, ?_⟩
    rw [dropped]
    exact ⟨consistentAfter.withFewerHolds among pending, attempt.journal_eq,
      fun _ _ logged => attempt.log_mono logged, attempt.holdsAfter.fewer among,
      Or.inl ⟨rfl, among.length_le.trans noNewRow⟩⟩
  | false =>
    by_cases admits : ∃ dot, step = .admitted dot
    · rcases admits with ⟨dot, rfl⟩
      rcases attempt.admitted_eq rfl with ⟨rfl, _, installed, installs, left⟩
      refine ⟨_, _, afterRetry_admitted held.dot after, consistentAfter, attempt.journal_eq,
        fun _ _ logged => attempt.log_mono logged, attempt.holdsAfter, Or.inr ⟨rfl, ?_⟩⟩
      -- The row of the admitted delta is gone.
      rw [left, Store.clearHold, installs.holds_eq]
      rcases inHolds with ⟨row, member, own⟩
      exact length_filter_lt_length_iff_exists.mpr ⟨row, member, by simp [own]⟩
    · refine ⟨_, _, afterRetry_other (fun dot same => admits ⟨dot, same⟩) dooms after,
        consistentAfter, attempt.journal_eq, fun _ _ logged => attempt.log_mono logged,
        attempt.holdsAfter, Or.inl ⟨rfl, noNewRow⟩⟩

/-- A retry settles its delta, or fails because it cannot be applied in any
state of the group or the journal cannot be read. -/
theorem retryHeld_cases (consistent : store.Consistent) (decodes : held.decodable = true) :
    (∃ turn after, retryHeld crypto groupId keyFor now held store = .ok turn after ∧
        TurnLeaves held store turn after) ∨
      ∃ failure, retryHeld crypto groupId keyFor now held store = .error failure store ∧
        failure ≠ .fuel ∧ (Unappliable groupId held ∨
          checkFreeze store groupId held.author held.seq .remote = .error failure) := by
  have skipped : TurnLeaves held store ⟨[], []⟩ store :=
    ⟨consistent, rfl, fun _ _ logged => logged, HoldsAfter.sublist (List.Sublist.refl _),
      Or.inl ⟨rfl, Nat.le_refl _⟩⟩
  cases exists_ : store.holdExists held.dot with
  | false =>
    refine Or.inl ⟨⟨[], []⟩, store, ?_, skipped⟩
    simp [retryHeld, bind_apply, exists_]
  | true =>
    cases found : heldDeltaKey crypto store held keyFor with
    | none =>
      refine Or.inl ⟨⟨[], []⟩, store, ?_, skipped⟩
      simp [retryHeld, bind_apply, exists_, found]
    | some key =>
      have tried : retryHeld crypto groupId keyFor now held store =
          (applyOrHold crypto groupId held key now >>= afterRetry crypto held) store := by
        simp only [retryHeld, bind_apply, get_apply, exists_, found,
          Bool.not_true, Bool.false_eq_true, if_false]
      rw [tried, bind_apply]
      rcases applyOrHold_cases crypto groupId key now consistent decodes with
        ⟨step, after, ran, attempt⟩ | ⟨failure, ran, _, facts⟩
      · rcases attempt.turnLeaves consistent decodes (Store.holdExists_iff.mp exists_) with
          ⟨turn, final, finished, leaves⟩
        refine Or.inl ⟨turn, final, ?_, leaves⟩
        rw [ran]
        exact finished
      · refine Or.inr ⟨failure, ?_, facts⟩
        rw [ran]

end Turn

/-! ## The whole cascade -/

/-- The dots whose waiters an admission of `dot` can retry: the dot itself,
and that of every held delta that waits on such a dot. -/
inductive Store.ReleasedBy (store : Store) (dot : Dot) : Dot → Prop where
  | self : ReleasedBy store dot dot
  | waiter {row : HoldRow} (held : row ∈ store.holds)
      (waits : ReleasedBy store dot row.waitingOn) : ReleasedBy store dot row.delta.dot

theorem Store.ReleasedBy.mono {fewer store : Store} (among : fewer.holds ⊆ store.holds)
    {dot released : Dot} (reaches : fewer.ReleasedBy dot released) :
    store.ReleasedBy dot released := by
  induction reaches with
  | self => exact .self
  | waiter held _ induction => exact .waiter (among held) induction

/-- What a cascade that began at `start` has queued and left held: rows of
`start`, and those it queued or pointed elsewhere are ones it released. -/
structure CascadeFrom (start : Store) (dot : Dot) (queue : List NativeDelta)
    (holds : List HoldRow) : Prop where
  rows : ∀ row, row ∈ holds → ∃ old, old ∈ start.holds ∧ old.delta = row.delta ∧
    (old.waitingOn = row.waitingOn ∨ start.ReleasedBy dot old.waitingOn)
  queued : ∀ held, held ∈ queue → ∃ old, old ∈ start.holds ∧ old.delta = held ∧
    start.ReleasedBy dot old.waitingOn

namespace CascadeFrom

theorem first (start : Store) (dot : Dot) :
    CascadeFrom start dot (start.waitersOf dot) start.holds where
  rows := fun row member => ⟨row, member, rfl, Or.inl rfl⟩
  queued := by
    intro held member
    rcases mem_map.mp member with ⟨row, waits, rfl⟩
    rcases mem_filter.mp waits with ⟨inHolds, onDot⟩
    refine ⟨row, inHolds, rfl, ?_⟩
    rw [of_decide_eq_true onDot]
    exact .self

variable {start : Store} {dot : Dot} {queue : List NativeDelta} {held : NativeDelta}
  {store after : Store} {turn : Released}

theorem next (distinct : (start.holds.map fun row => row.delta.dot).Nodup)
    (cascade : CascadeFrom start dot queue store.holds) (member : held ∈ queue)
    (leaves : TurnLeaves held store turn after) :
    CascadeFrom start dot (queue.dropLast ++ turn.waiters) after.holds := by
  rcases cascade.queued held member with ⟨own, ownHeld, rfl, released⟩
  have rows : ∀ row, row ∈ after.holds → ∃ old, old ∈ start.holds ∧ old.delta = row.delta ∧
      (old.waitingOn = row.waitingOn ∨ start.ReleasedBy dot old.waitingOn) := by
    intro row inHolds
    rcases leaves.holds.rows row inHolds with untouched | ⟨sameDot, same | ⟨_, before, same⟩⟩
    · exact cascade.rows row untouched
    · exact ⟨own, ownHeld, same.symm, Or.inr released⟩
    · rcases cascade.rows _ before with ⟨old, oldHeld, sameDelta, _⟩
      -- The dots held at the start are distinct, so this is the queued row.
      have sameRow : old = own := inj_on_of_nodup_map distinct oldHeld ownHeld
        ((congrArg NativeDelta.dot (sameDelta.trans same)).trans sameDot)
      exact ⟨own, ownHeld, sameRow ▸ sameDelta.trans same, Or.inr released⟩
  refine ⟨rows, ?_⟩
  intro waiter inQueue
  rcases mem_append.mp inQueue with earlier | new
  · exact cascade.queued waiter ((dropLast_sublist queue).subset earlier)
  · rcases leaves.settled with ⟨none, _⟩ | ⟨those, _⟩
    · rw [none] at new
      cases new
    · rw [those] at new
      rcases mem_map.mp new with ⟨row, waits, rfl⟩
      rcases mem_filter.mp waits with ⟨inHolds, onHeld⟩
      rcases rows row inHolds with ⟨old, oldHeld, sameDelta, samePlace | already⟩
      · refine ⟨old, oldHeld, sameDelta, ?_⟩
        rw [samePlace, of_decide_eq_true onHeld]
        exact .waiter ownHeld released
      · exact ⟨old, oldHeld, sameDelta, already⟩

end CascadeFrom

section Cascade

variable {crypto : Crypto} {groupId : FolderGroupId} {keyFor : KeyFor} {now : Int}
  {start : Store} {dot : Dot}

/-- Turns that last until the queue is empty: every admission queues at most
as many deltas as there are rows, and takes one row away. -/
def EnoughTurns (bound turns : Nat) (queue : List NativeDelta) (store : Store) : Prop :=
  store.holds.length ≤ bound ∧ queue.length + store.holds.length * bound + 1 ≤ turns

theorem EnoughTurns.next {bound turns : Nat} {queue : List NativeDelta} {held : NativeDelta}
    {store after : Store} {turn : Released} (enough : EnoughTurns bound (turns + 1) queue store)
    (last : queue.getLast? = some held) (leaves : TurnLeaves held store turn after) :
    EnoughTurns bound turns (queue.dropLast ++ turn.waiters) after := by
  have nonempty : queue ≠ [] := by
    intro isEmpty
    rw [isEmpty] at last
    cases last
  have shorter : queue.dropLast.length + 1 = queue.length := by
    rw [length_dropLast]
    have positive := length_pos_iff.mpr nonempty
    omega
  rcases enough with ⟨within, lasts⟩
  rcases leaves.settled with ⟨none, noMore⟩ | ⟨those, fewer⟩
  · have rows := Nat.mul_le_mul_right bound noMore
    refine ⟨noMore.trans within, ?_⟩
    rw [none, append_nil]
    omega
  · have waiters : turn.waiters.length ≤ after.holds.length := by
      rw [those, Store.waitersOf, length_map]
      exact length_filter_le ..
    have rows : (after.holds.length + 1) * bound ≤ store.holds.length * bound :=
      Nat.mul_le_mul_right bound fewer
    rw [Nat.succ_mul] at rows
    refine ⟨by omega, ?_⟩
    rw [length_append]
    omega

theorem EnoughTurns.first (store : Store) (dot : Dot) :
    EnoughTurns store.holds.length (cascadeTurns store.holds.length) (store.waitersOf dot)
      store := by
  have waiters : (store.waitersOf dot).length ≤ store.holds.length := by
    rw [Store.waitersOf, length_map]
    exact length_filter_le ..
  refine ⟨Nat.le_refl _, ?_⟩
  rw [cascadeTurns, Nat.succ_mul, Nat.mul_succ]
  omega

/-- The cascade runs to its end, unless it releases a delta that cannot be
applied or the journal cannot be read. -/
theorem releaseLoop_cases {turns bound : Nat} {queue : List NativeDelta} {released : List Dot}
    {store : Store} (startConsistent : start.Consistent) (consistent : store.Consistent)
    (sameJournal : store.journal = start.journal)
    (cascade : CascadeFrom start dot queue store.holds)
    (enough : EnoughTurns bound turns queue store) :
    (∃ result after, releaseLoop crypto groupId keyFor now turns queue released store =
        .ok result after ∧
      ∀ (known : Dot) hash, store.log[known]? = some hash → after.log[known]? = some hash) ∨
    ∃ failure after, releaseLoop crypto groupId keyFor now turns queue released store =
        .error failure after ∧ failure ≠ .fuel ∧
      ((∃ row, row ∈ start.holds ∧ start.ReleasedBy dot row.waitingOn ∧
          Unappliable groupId row.delta) ∨
        ∃ author seq, checkFreeze start groupId author seq .remote = .error failure) := by
  induction turns generalizing queue released store with
  | zero =>
    have lasts := enough.2
    omega
  | succ turns induction =>
    unfold releaseLoop
    cases last : queue.getLast? with
    | none => exact Or.inl ⟨released, store, rfl, fun _ _ logged => logged⟩
    | some held =>
      have member := mem_of_getLast? last
      rcases cascade.queued held member with ⟨old, oldHeld, rfl, isReleased⟩
      dsimp only
      rw [bind_apply]
      rcases retryHeld_cases consistent (startConsistent.held old oldHeld) with
        ⟨turn, middle, ran, leaves⟩ | ⟨failure, ran, notFuel, unappliable | unreadable⟩
      · rw [ran]
        rcases induction leaves.consistent (leaves.journal.trans sameJournal)
            (cascade.next startConsistent.heldDistinct member leaves)
            (enough.next last leaves) with
          ⟨result, after, continued, grows⟩ | failed
        · exact Or.inl ⟨result, after, continued, fun known hash logged =>
            grows known hash (leaves.logGrows known hash logged)⟩
        · exact Or.inr failed
      · rw [ran]
        exact Or.inr ⟨failure, store, rfl, notFuel, Or.inl ⟨old, oldHeld, isReleased, unappliable⟩⟩
      · rw [ran]
        refine Or.inr ⟨failure, store, rfl, notFuel, Or.inr ⟨old.delta.author, old.delta.seq, ?_⟩⟩
        rw [checkFreeze, ← sameJournal]
        exact unreadable

theorem releaseWaiters_cases (consistent : start.Consistent) :
    (∃ result after, releaseWaiters crypto groupId keyFor now dot start = .ok result after ∧
      ∀ (known : Dot) hash, start.log[known]? = some hash → after.log[known]? = some hash) ∨
    ∃ failure after, releaseWaiters crypto groupId keyFor now dot start = .error failure after ∧
      failure ≠ .fuel ∧
      ((∃ row, row ∈ start.holds ∧ start.ReleasedBy dot row.waitingOn ∧
          Unappliable groupId row.delta) ∨
        ∃ author seq, checkFreeze start groupId author seq .remote = .error failure) :=
  releaseLoop_cases consistent consistent rfl (CascadeFrom.first start dot)
    (EnoughTurns.first start dot)

end Cascade

end Yadorilink
