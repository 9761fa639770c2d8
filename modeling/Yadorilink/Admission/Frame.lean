import Yadorilink.Admission.Convergence
import Yadorilink.Admission.Isolation

/-! What an admission leaves alone. A refusal writes nothing; an admission,
with everything it releases, writes only where the deltas it installed say. -/

namespace Yadorilink

open Std Transaction List

/-! ## One attempt -/

/-- What one attempt on `delta` did to the store. -/
inductive AttemptLeaves (crypto : Crypto) (delta : NativeDelta) (store : Store) :
    Step → Store → Prop where
  | refused {step : Step} (notAdmitted : ∀ dot, step ≠ .admitted dot)
      (notHeld : ∀ dot, step ≠ .held dot) : AttemptLeaves crypto delta store step store
  | held {dot : Dot} {holds : List HoldRow}
      (rows : ∀ row ∈ holds, row.delta = delta ∨ ∃ old ∈ store.holds, old.delta = row.delta) :
      AttemptLeaves crypto delta store (.held dot) { store with holds := holds }
  | admitted {installed : Store} (records : Records crypto delta store installed) :
      AttemptLeaves crypto delta store (.admitted delta.dot) (installed.clearHold delta.dot)

section Attempts

variable {crypto : Crypto} {groupId : FolderGroupId} {delta : NativeDelta} {key : VerifyingKey}
  {now : Int} {store after : Store} {step : Step}

theorem hold_leaves {waitingOn : Dot} {outcome : HoldOutcome}
    (ran : hold crypto delta waitingOn now store = .ok outcome after) :
    (outcome = .held ∧ ∃ holds, after = { store with holds := holds } ∧
      ∀ row ∈ holds, row.delta = delta ∨ ∃ old ∈ store.holds, old.delta = row.delta) ∨
    ((∃ evidence, outcome = .equivocation evidence) ∧ after = store) := by
  unfold hold at ran
  split at ran
  · split at ran
    · cases ran
      refine Or.inl ⟨rfl, _, rfl, ?_⟩
      intro row member
      rcases mem_map.mp member with ⟨old, inHolds, rfl⟩
      refine Or.inr ⟨old, inHolds, ?_⟩
      split <;> rfl
    · cases ran
      exact Or.inr ⟨⟨_, rfl⟩, rfl⟩
  · cases ran
    refine Or.inl ⟨rfl, _, rfl, ?_⟩
    intro row member
    rcases mem_append.mp member with kept | new
    · exact Or.inr ⟨row, makeRoom_subset delta.author store.holds kept, rfl⟩
    · rw [mem_singleton.mp new]
      exact Or.inl rfl

theorem holdFor_leaves {waitingOn : Dot}
    (ran : holdFor crypto delta waitingOn now store = .ok step after) :
    AttemptLeaves crypto delta store step after := by
  rcases bind_eq_ok_iff.mp ran with ⟨outcome, middle, held, finished⟩
  rcases hold_leaves held with ⟨rfl, holds, rfl, rows⟩ | ⟨⟨evidence, rfl⟩, rfl⟩
  · cases finished
    exact .held rows
  · cases finished
    exact .refused (by simp) (by simp)

theorem installAdmitted_leaves
    (ran : installAdmitted crypto groupId delta key store = .ok step after) :
    AttemptLeaves crypto delta store step after := by
  rcases bind_eq_ok_iff.mp ran with ⟨outcome, middle, installed, finished⟩
  rcases bind_eq_ok_iff.mp installed with ⟨result, written, reported, returned⟩
  cases returned
  rcases installVerifiedDeltaReporting_records reported with
    ⟨refused, rfl⟩ | ⟨isInstalled, _, records, _⟩
  · cases found : result.1 with
    | installed dot => exact absurd found (refused dot)
    | authorClosed cutoff =>
      rw [found] at finished
      cases finished
      exact .refused (by simp) (by simp)
    | closureFork seq =>
      rw [found] at finished
      cases finished
      exact .refused (by simp) (by simp)
    | groupFrozen =>
      rw [found] at finished
      cases finished
      exact .refused (by simp) (by simp)
    | wouldViolateInvariant violation =>
      rw [found] at finished
      cases finished
      exact .refused (by simp) (by simp)
  · rw [isInstalled] at finished
    cases finished
    exact .admitted records

theorem redelivered_refuses (atSeq : Nat) :
    (∀ dot, redelivered crypto store delta atSeq ≠ .admitted dot) ∧
      ∀ dot, redelivered crypto store delta atSeq ≠ .held dot := by
  unfold redelivered
  dsimp only
  split
  · split <;> simp
  · split <;> simp

theorem gateChain_leaves (ran : gateChain crypto groupId delta key now store = .ok step after) :
    AttemptLeaves crypto delta store step after := by
  simp only [gateChain, bind_apply, get_apply] at ran
  cases gate : classifyChainAdvance store.frontier[delta.author]? delta.prev delta.seq with
  | continues =>
    simp only [gate, gateContext, bind_apply, get_apply] at ran
    cases first : store.firstUnobserved delta with
    | some dot =>
      simp only [first] at ran
      split at ran
      · cases ran
        exact .refused (by simp) (by simp)
      · exact holdFor_leaves ran
    | none =>
      cases agrees : store.conflictingPartCount delta with
      | some recorded =>
        simp only [first, agrees] at ran
        cases ran
        exact .refused (by simp) (by simp)
      | none =>
        simp only [first, agrees] at ran
        exact installAdmitted_leaves ran
  | equivocation atSeq expectedPrev foundPrev =>
    simp only [gate] at ran
    cases ran
    exact .refused (by simp) (by simp)
  | needsPredecessor missing =>
    simp only [gate] at ran
    split at ran
    · cases ran
      exact .refused (by simp) (by simp)
    · exact holdFor_leaves ran
  | needsHistoryLookup atSeq =>
    simp only [gate] at ran
    cases ran
    exact .refused (redelivered_refuses atSeq).1 (redelivered_refuses atSeq).2
  | seqExhausted =>
    simp only [gate] at ran
    cases ran
    exact .refused (by simp) (by simp)

theorem applyOrHold_leaves (ran : applyOrHold crypto groupId delta key now store = .ok step after) :
    AttemptLeaves crypto delta store step after := by
  simp only [applyOrHold, bind_apply, get_apply] at ran
  split at ran
  · cases ran
    exact .refused (by simp) (by simp)
  · cases portable : pathRefusal delta with
    | some refusal =>
      simp only [portable] at ran
      cases ran
      exact .refused (by simp) (by simp)
    | none =>
      cases closure : store.closedVerdict crypto delta with
      | beyond cutoff =>
        simp only [portable, closure] at ran
        cases ran
        exact .refused (by simp) (by simp)
      | fork seq =>
        simp only [portable, closure] at ran
        cases ran
        exact .refused (by simp) (by simp)
      | open_ =>
        simp only [portable, closure] at ran
        exact gateChain_leaves ran

end Attempts

/-! ## A run of installs -/

/-- `after` is `start` with `deltas` installed, in the tables that make up the
group's state: nothing else differs, and none of them was logged before. -/
structure InstalledSince (crypto : Crypto) (start : Store) (deltas : List NativeDelta)
    (after : Store) : Prop where
  heads : ∀ key : HeadKey, (∀ delta ∈ deltas, ∀ op ∈ delta.ops, op.path ≠ key.path) →
    after.heads[key]? = start.heads[key]?
  context : ∀ author : AuthorId, (∀ delta ∈ deltas, delta.author ≠ author) →
    after.context[author]? = start.context[author]?
  frontier : ∀ author : AuthorId, (∀ delta ∈ deltas, delta.author ≠ author) →
    after.frontier[author]? = start.frontier[author]?
  fresh : ∀ delta ∈ deltas, start.log[delta.dot]? = none
  distinct : (deltas.map NativeDelta.dot).Nodup
  logged : ∀ delta ∈ deltas, after.log[delta.dot]? = some (delta.deltaHash crypto)
  log : ∀ dot : Dot, dot ∉ deltas.map NativeDelta.dot → after.log[dot]? = start.log[dot]?

namespace InstalledSince

variable {crypto : Crypto} {start store after : Store} {deltas : List NativeDelta}
  {delta : NativeDelta}

theorem none (crypto : Crypto) (start : Store) (holds : List HoldRow) :
    InstalledSince crypto start [] { start with holds := holds } :=
  ⟨fun _ _ => rfl, fun _ _ => rfl, fun _ _ => rfl, by simp, by simp, by simp, fun _ _ => rfl⟩

theorem withHolds (since : InstalledSince crypto start deltas store) (holds : List HoldRow)
    (pending : ExtTreeMap DeltaHash DeltaEvidence) :
    InstalledSince crypto start deltas { store with holds := holds, pending := pending } :=
  ⟨since.heads, since.context, since.frontier, since.fresh, since.distinct, since.logged, since.log⟩

theorem install (since : InstalledSince crypto start deltas store)
    (records : Records crypto delta store after) :
    InstalledSince crypto start (deltas ++ [delta]) after := by
  have unlisted : delta.dot ∉ deltas.map NativeDelta.dot := by
    intro listed
    rcases mem_map.mp listed with ⟨earlier, member, sameDot⟩
    have logged := since.logged earlier member
    rw [sameDot, records.unlogged] at logged
    cases logged
  have fresh : start.log[delta.dot]? = Option.none := by
    rw [← since.log delta.dot unlisted, records.unlogged]
  have lookup : ∀ dot : Dot, after.log[dot]? =
      if delta.dot = dot then some (delta.deltaHash crypto) else store.log[dot]? := by
    intro dot
    rw [records.log, OrderedMap.getElem?_insert_eq]
  refine ⟨?_, ?_, ?_, ?_, ?_, ?_, ?_⟩
  · intro key elsewhere
    rw [forall_mem_append, forall_mem_singleton] at elsewhere
    rw [records.heads key elsewhere.2, since.heads key elsewhere.1]
  · intro author others
    rw [forall_mem_append, forall_mem_singleton] at others
    rw [records.context, OrderedMap.getElem?_insert_eq, if_neg others.2,
      since.context author others.1]
  · intro author others
    rw [forall_mem_append, forall_mem_singleton] at others
    rw [records.frontier, OrderedMap.getElem?_insert_eq, if_neg others.2,
      since.frontier author others.1]
  · rw [forall_mem_append, forall_mem_singleton]
    exact ⟨since.fresh, fresh⟩
  · rw [map_append, nodup_append]
    refine ⟨since.distinct, by simp, ?_⟩
    intro earlier listed last isLast same
    rw [map_singleton, mem_singleton] at isLast
    rw [same, isLast] at listed
    exact unlisted listed
  · rw [forall_mem_append, forall_mem_singleton]
    refine ⟨fun earlier member => ?_, by rw [lookup, if_pos rfl]⟩
    have different : delta.dot ≠ earlier.dot := fun same =>
      unlisted (same ▸ mem_map_of_mem member)
    rw [lookup, if_neg different, since.logged earlier member]
  · intro dot unlistedNow
    rw [map_append, mem_append, map_singleton, mem_singleton, not_or]
      at unlistedNow
    rw [lookup, if_neg (Ne.symm unlistedNow.2), since.log dot unlistedNow.1]

end InstalledSince

/-! ## The cascade -/

/-- A cascade that began at `start` with `first`: what it has installed since,
under the dots it reports, and what it still has to retry all waited at
`start`. -/
structure CascadeSince (crypto : Crypto) (start : Store) (first : NativeDelta)
    (deltas : List NativeDelta) (released : List Dot) (queue : List NativeDelta)
    (store : Store) : Prop where
  installed : InstalledSince crypto start (first :: deltas) store
  reported : deltas.map NativeDelta.dot = released
  held : ∀ delta ∈ deltas, ∃ row ∈ start.holds, row.delta = delta
  rows : ∀ row ∈ store.holds, ∃ old ∈ start.holds, old.delta = row.delta
  queued : ∀ delta ∈ queue, ∃ row ∈ start.holds, row.delta = delta

section Cascade

variable {crypto : Crypto} {groupId : FolderGroupId} {keyFor : KeyFor} {now : Int}
  {start store after : Store} {first held : NativeDelta} {deltas queue : List NativeDelta}
  {released : List Dot} {turn : Released}

section

variable (cascade : CascadeSince crypto start first deltas released queue store)

include cascade

theorem CascadeSince.skip :
    CascadeSince crypto start first deltas (released ++ []) (queue.dropLast ++ []) store := by
  refine ⟨cascade.installed, ?_, cascade.held, cascade.rows, ?_⟩
  · rw [append_nil, cascade.reported]
  · rw [append_nil]
    exact fun delta member => cascade.queued delta ((dropLast_sublist queue).subset member)

theorem CascadeSince.retry {step : Step} {middle : Store}
    (member : held ∈ queue) (leaves : AttemptLeaves crypto held store step middle)
    (ran : afterRetry crypto held step middle = .ok turn after) :
    ∃ more, CascadeSince crypto start first (deltas ++ more) (released ++ turn.admitted)
      (queue.dropLast ++ turn.waiters) after := by
  have waited := cascade.queued held member
  cases leaves with
  | refused notAdmitted notHeld =>
    cases dooms : step.dooms with
    | true =>
      rw [afterRetry_dooms dooms] at ran
      cases ran
      rcases Store.dropUnservableHolds_eq crypto store held.author held.seq with
        ⟨holds, pending, dropped, among⟩
      rw [dropped]
      refine ⟨[], ?_⟩
      rw [append_nil]
      have skipped := cascade.skip
      exact ⟨skipped.installed.withHolds holds pending, skipped.reported, skipped.held,
        fun row inHolds => skipped.rows row (among.subset inHolds), skipped.queued⟩
    | false =>
      rw [afterRetry_other notAdmitted dooms] at ran
      cases ran
      refine ⟨[], ?_⟩
      rw [append_nil]
      exact cascade.skip
  | @held dot holds rows =>
    cases ran
    refine ⟨[], ?_⟩
    rw [append_nil]
    have skipped := cascade.skip
    refine ⟨skipped.installed.withHolds holds store.pending, skipped.reported, skipped.held,
      ?_, skipped.queued⟩
    intro row inHolds
    rcases rows row inHolds with same | ⟨old, inOld, same⟩
    · rw [same]
      exact waited
    · rw [← same]
      exact cascade.rows old inOld
  | @admitted installed records =>
    rw [afterRetry_admitted] at ran
    cases ran
    have rows : ∀ row ∈ (installed.clearHold held.dot).holds,
        ∃ old ∈ start.holds, old.delta = row.delta := by
      intro row inHolds
      have inStore := (Store.clearHold_sublist installed held.dot).subset inHolds
      rw [records.holds] at inStore
      exact cascade.rows row inStore
    refine ⟨[held], ?_, ?_, ?_, rows, ?_⟩
    · exact (cascade.installed.install records).withHolds _ installed.pending
    · rw [map_append, cascade.reported]
      rfl
    · rw [forall_mem_append, forall_mem_singleton]
      exact ⟨cascade.held, waited⟩
    · rw [forall_mem_append]
      refine ⟨fun delta inQueue => cascade.queued delta ((dropLast_sublist queue).subset inQueue), ?_⟩
      intro waiter isWaiter
      rcases mem_map.mp isWaiter with ⟨row, waits, rfl⟩
      exact rows row (mem_filter.mp waits).1

theorem CascadeSince.retryHeld
    (member : held ∈ queue)
    (ran : Yadorilink.retryHeld crypto groupId keyFor now held store = .ok turn after) :
    ∃ more, CascadeSince crypto start first (deltas ++ more) (released ++ turn.admitted)
      (queue.dropLast ++ turn.waiters) after := by
  simp only [Yadorilink.retryHeld, bind_apply, get_apply] at ran
  have skipped : ∃ more, CascadeSince crypto start first (deltas ++ more) (released ++ [])
      (queue.dropLast ++ []) store := by
    refine ⟨[], ?_⟩
    rw [append_nil]
    exact cascade.skip
  split at ran
  · cases ran
    exact skipped
  · cases found : heldDeltaKey crypto store held keyFor with
    | none =>
      simp only [found] at ran
      cases ran
      exact skipped
    | some key =>
      simp only [found] at ran
      rcases bind_eq_ok_iff.mp ran with ⟨step, middle, attempted, finished⟩
      exact cascade.retry member (applyOrHold_leaves attempted) finished

theorem CascadeSince.releaseLoop {turns : Nat} {result : List Dot}
    (ran : Yadorilink.releaseLoop crypto groupId keyFor now turns queue released store =
      .ok result after) :
    ∃ deltas, CascadeSince crypto start first deltas result [] after := by
  induction turns generalizing queue released deltas store with
  | zero => cases ran
  | succ turns induction =>
    unfold Yadorilink.releaseLoop at ran
    cases last : queue.getLast? with
    | none =>
      rw [last] at ran
      cases ran
      exact ⟨deltas, cascade.installed, cascade.reported, cascade.held, cascade.rows, by simp⟩
    | some held =>
      rw [last] at ran
      rcases bind_eq_ok_iff.mp ran with ⟨turn, middle, retried, continued⟩
      rcases cascade.retryHeld (mem_of_getLast? last) retried with ⟨more, next⟩
      exact induction next continued

end

end Cascade

/-! ## One admission -/

def VerdictLeaves (crypto : Crypto) (delta : NativeDelta) (store : Store) :
    NativeAdmission → Store → Prop
  | .admitted dot released, after =>
    dot = delta.dot ∧ ∃ deltas : List NativeDelta, deltas.map NativeDelta.dot = released ∧
      (∀ held ∈ deltas, ∃ row ∈ store.holds, row.delta = held) ∧
      InstalledSince crypto store (delta :: deltas) after
  | .held _, after => ∃ holds, after = { store with holds := holds }
  | _, after => after = store

theorem reportStep_leaves {crypto : Crypto} {groupId : FolderGroupId} {delta : NativeDelta}
    {keyFor : KeyFor} {now : Int} {store middle after : Store} {step : Step}
    {verdict : NativeAdmission} (leaves : AttemptLeaves crypto delta store step middle)
    (ran : reportStep crypto groupId delta keyFor now step middle = .ok verdict after) :
    VerdictLeaves crypto delta store verdict after := by
  cases leaves with
  | refused notAdmitted notHeld =>
    cases step with
    | admitted dot => exact absurd rfl (notAdmitted dot)
    | held dot => exact absurd rfl (notHeld dot)
    | _ =>
      cases ran
      rfl
  | held rows =>
    cases ran
    exact ⟨_, rfl⟩
  | @admitted installed records =>
    rcases bind_eq_ok_iff.mp ran with ⟨released, final, cascade, finished⟩
    cases finished
    have among : ∀ row ∈ (installed.clearHold delta.dot).holds,
        ∃ old ∈ store.holds, old.delta = row.delta := by
      intro row inHolds
      have inStore := (Store.clearHold_sublist installed delta.dot).subset inHolds
      rw [records.holds] at inStore
      exact ⟨row, inStore, rfl⟩
    have begun : CascadeSince crypto store delta [] []
        ((installed.clearHold delta.dot).waitersOf delta.dot)
        (installed.clearHold delta.dot) := by
      refine ⟨?_, rfl, by simp, among, ?_⟩
      · exact ((InstalledSince.none crypto store store.holds).install records).withHolds _
          installed.pending
      · intro waiter isWaiter
        rcases mem_map.mp isWaiter with ⟨row, waits, rfl⟩
        exact among row (mem_filter.mp waits).1
    rcases begun.releaseLoop cascade with ⟨deltas, ended⟩
    exact ⟨rfl, deltas, ended.reported, ended.held, ended.installed⟩

/-- A refused admission changes nothing, one that holds its delta changes the
holds alone, and one that installs it changes the group's state only as the
deltas it reports say. -/
theorem admission_frame (crypto : Crypto) (groupId : FolderGroupId) (delta : NativeDelta)
    (keyFor : KeyFor) (now : Int) (store after : Store) (verdict : NativeAdmission)
    (ran : admitNativeDelta crypto groupId delta keyFor now store = .ok verdict after) :
    VerdictLeaves crypto delta store verdict after := by
  unfold admitNativeDelta at ran
  cases found : keyFor delta.author with
  | none =>
    simp only [found] at ran
    cases ran
    rfl
  | some key =>
    simp only [found] at ran
    rcases bind_eq_ok_iff.mp ran with ⟨step, middle, attempted, reported⟩
    exact reportStep_leaves (applyOrHold_leaves attempted) reported

/-- The replacement waits; the head it replaces arrives and releases it. -/
theorem admission_frame_released :
    let store := admitAll Crypto.sample "group" Store.empty (sampleCalls [sampleSecond])
    VerdictLeaves Crypto.sample sampleFirst store (.admitted sampleFirst.dot [sampleSecond.dot])
      (commit
        (admitNativeDelta Crypto.sample "group" sampleFirst (fun _ => some 5) 1) store) :=
  admission_frame Crypto.sample "group" sampleFirst (fun _ => some 5) 1 _ _ _
    (outcome_eq_ok_iff.mp (by decide +kernel))

end Yadorilink
