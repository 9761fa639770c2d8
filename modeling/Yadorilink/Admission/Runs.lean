import Yadorilink.Admission.Attempts

/-! Runs of admissions. A property of stores that every attempt keeps is kept
by the release cascade, by a whole admission, and by any sequence of
admissions, each in a transaction of its own. -/

namespace Yadorilink

open Std Transaction List

/-- One call of the admission. -/
structure AdmissionCall where
  delta : NativeDelta
  keyFor : KeyFor
  now : Int

/-- The store a call leaves: a failed call is rolled back. -/
def admitOne (crypto : Crypto) (groupId : FolderGroupId) (store : Store) (call : AdmissionCall) :
    Store :=
  commit (admitNativeDelta crypto groupId call.delta call.keyFor call.now) store

def admitAll (crypto : Crypto) (groupId : FolderGroupId) (store : Store)
    (calls : List AdmissionCall) : Store :=
  calls.foldl (admitOne crypto groupId) store

/-! ## What the attempts keep, the calls keep -/

/-- A property of stores that every attempt with an allowed delta keeps, and
that holds only of stores whose held deltas are allowed. -/
structure AttemptInvariant (crypto : Crypto) (groupId : FolderGroupId)
    (allowed : NativeDelta → Prop) (kept : Store → Prop) : Prop where
  decodes : ∀ delta, allowed delta → delta.decodable = true
  consistent : ∀ store, kept store → store.Consistent
  held : ∀ store, kept store → ∀ row, row ∈ store.holds → allowed row.delta
  keeps : ∀ store delta key now step after, kept store → allowed delta →
    Attempt crypto groupId delta key now store step after → kept after
  /-- What is dropped behind a doomed delta may be dropped. -/
  dooms : ∀ store delta key now step after, kept store → allowed delta →
    Attempt crypto groupId delta key now store step after → step.dooms = true →
    kept (after.dropUnservableHolds crypto delta.author delta.seq)

theorem AttemptInvariant.ofSound {crypto : Crypto} {groupId : FolderGroupId}
    {allowed : NativeDelta → Prop} {kept : Store → Prop}
    (decodes : ∀ delta, allowed delta → delta.decodable = true)
    (sound : ∀ store, kept store → store.Sound crypto)
    (held : ∀ store, kept store → ∀ row, row ∈ store.holds → allowed row.delta)
    (keeps : ∀ store delta key now step after, kept store → allowed delta →
      Attempt crypto groupId delta key now store step after → kept after) :
    AttemptInvariant crypto groupId allowed kept where
  decodes := decodes
  consistent := fun store before => (sound store before).consistent
  held := held
  keeps := keeps
  dooms := fun store _ _ _ _ _ before _ attempt dooms => by
    rw [attempt.spares (sound store before).quiet] at dooms
    cases dooms

namespace AttemptInvariant

variable {crypto : Crypto} {groupId : FolderGroupId} {allowed : NativeDelta → Prop}
  {kept : Store → Prop} (invariant : AttemptInvariant crypto groupId allowed kept)
  {store after : Store} {delta : NativeDelta} {key : VerifyingKey} {now : Int} {keyFor : KeyFor}

include invariant

section

variable (before : kept store)

include before

theorem waiters {dot : Dot} {waiter : NativeDelta}
    (member : waiter ∈ store.waitersOf dot) : allowed waiter := by
  rcases mem_map.mp member with ⟨row, inHolds, rfl⟩
  exact invariant.held store before row (mem_filter.mp inHolds).1

theorem applyOrHold {step : Step} (isAllowed : allowed delta)
    (ran : Yadorilink.applyOrHold crypto groupId delta key now store = .ok step after) :
    kept after ∧ Attempt crypto groupId delta key now store step after := by
  rcases applyOrHold_cases crypto groupId key now (invariant.consistent store before)
    (invariant.decodes delta isAllowed) with ⟨_, _, reached, attempt⟩ | ⟨_, failed, _⟩
  · rw [ran] at reached
    cases reached
    exact ⟨invariant.keeps _ _ _ _ _ _ before isAllowed attempt, attempt⟩
  · rw [ran] at failed
    cases failed

theorem afterRetry {middle : Store} {step : Step} {turn : Released}
    (isAllowed : allowed delta) (stays : kept middle)
    (attempt : Attempt crypto groupId delta key now store step middle)
    (ran : Yadorilink.afterRetry crypto delta step middle = .ok turn after) :
    kept after ∧ ∀ waiter, waiter ∈ turn.waiters → allowed waiter := by
  have nothing : ∀ waiter, waiter ∈ ([] : List NativeDelta) → allowed waiter :=
    fun waiter member => absurd member not_mem_nil
  cases dooms : step.dooms with
  | true =>
    rw [afterRetry_dooms dooms] at ran
    cases ran
    exact ⟨invariant.dooms _ _ _ _ _ _ before isAllowed attempt dooms, nothing⟩
  | false =>
    by_cases admits : ∃ dot, step = .admitted dot
    · rcases admits with ⟨dot, rfl⟩
      rw [afterRetry_admitted] at ran
      cases ran
      exact ⟨stays, fun waiter member => invariant.waiters stays member⟩
    · rw [afterRetry_other (fun dot same => admits ⟨dot, same⟩) dooms] at ran
      cases ran
      exact ⟨stays, nothing⟩

theorem retryHeld {held : NativeDelta} {turn : Released}
    (isAllowed : allowed held)
    (ran : Yadorilink.retryHeld crypto groupId keyFor now held store = .ok turn after) :
    kept after ∧ ∀ waiter, waiter ∈ turn.waiters → allowed waiter := by
  simp only [Yadorilink.retryHeld, bind_apply, get_apply] at ran
  split at ran
  · cases ran
    exact ⟨before, fun waiter member => absurd member not_mem_nil⟩
  · cases found : heldDeltaKey crypto store held keyFor with
    | none =>
      simp only [found] at ran
      cases ran
      exact ⟨before, fun waiter member => absurd member not_mem_nil⟩
    | some key =>
      simp only [found] at ran
      rcases bind_eq_ok_iff.mp ran with ⟨step, middle, attempted, finished⟩
      rcases invariant.applyOrHold before isAllowed attempted with ⟨stays, attempt⟩
      exact invariant.afterRetry before isAllowed stays attempt finished

theorem releaseLoop {turns : Nat} {queue : List NativeDelta} {released result : List Dot} (areAllowed : ∀ held, held ∈ queue → allowed held)
    (ran : Yadorilink.releaseLoop crypto groupId keyFor now turns queue released store =
      .ok result after) : kept after := by
  induction turns generalizing queue released store with
  | zero => cases ran
  | succ turns induction =>
    unfold Yadorilink.releaseLoop at ran
    cases last : queue.getLast? with
    | none =>
      rw [last] at ran
      cases ran
      exact before
    | some held =>
      rw [last] at ran
      have member := mem_of_getLast? last
      rcases bind_eq_ok_iff.mp ran with ⟨turn, middle, retried, continued⟩
      rcases invariant.retryHeld before (areAllowed held member) retried with
        ⟨stays, waiters⟩
      refine induction stays ?_ continued
      intro other inQueue
      rcases mem_append.mp inQueue with earlier | waiter
      · exact areAllowed other ((dropLast_sublist queue).subset earlier)
      · exact waiters other waiter

theorem admitNativeDeltaWithKey {result : NativeAdmission}
    (isAllowed : allowed delta)
    (ran : Yadorilink.admitNativeDeltaWithKey crypto groupId delta key keyFor now store =
      .ok result after) : kept after := by
  rcases bind_eq_ok_iff.mp ran with ⟨step, middle, attempted, reported⟩
  rcases invariant.applyOrHold before isAllowed attempted with ⟨stays, _⟩
  cases step with
  | admitted dot =>
    rcases bind_eq_ok_iff.mp reported with ⟨released, final, cascade, finished⟩
    cases finished
    exact invariant.releaseLoop stays (fun held member => invariant.waiters stays member) cascade
  | _ =>
    cases reported
    exact stays

theorem admitNativeDelta {result : NativeAdmission}
    (isAllowed : allowed delta)
    (ran : Yadorilink.admitNativeDelta crypto groupId delta keyFor now store = .ok result after) :
    kept after := by
  unfold Yadorilink.admitNativeDelta at ran
  cases found : keyFor delta.author with
  | none =>
    simp only [found] at ran
    cases ran
    exact before
  | some key =>
    simp only [found] at ran
    exact invariant.admitNativeDeltaWithKey before isAllowed ran

theorem admitOne {call : AdmissionCall} (isAllowed : allowed call.delta) :
    kept (Yadorilink.admitOne crypto groupId store call) := by
  unfold Yadorilink.admitOne commit
  split
  · rename_i ran
    exact invariant.admitNativeDelta before isAllowed ran
  · exact before

theorem admitAll {calls : List AdmissionCall}
    (areAllowed : ∀ call, call ∈ calls → allowed call.delta) :
    kept (Yadorilink.admitAll crypto groupId store calls) := by
  induction calls generalizing store with
  | nil => exact before
  | cons call rest induction =>
    exact induction (invariant.admitOne before (areAllowed call (.head _)))
      fun other member => areAllowed other (.tail call member)

end

end AttemptInvariant

end Yadorilink
