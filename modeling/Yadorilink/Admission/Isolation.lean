import Yadorilink.Admission.Release
import Yadorilink.Store.Recording

/-! Whether what one author has waiting in the hold queue can keep another
author's delta out. An admission and the cascade it starts share one
transaction, so a held delta that fails hard takes the admission with it. -/

namespace Yadorilink

open Std Transaction

/-! ## Every store of a group -/

variable (crypto : Crypto) (groupId : FolderGroupId)

/-- The stores a group can come to. It starts empty or from a checkpoint, with
nothing logged and nothing held; deltas are admitted, and installed by their
own author. What the rest of the program does to a group in between (closures,
rebootstraps, evidence, bodies that are pruned) leaves the log and the frontier
alone and holds nothing new. -/
inductive ReachableStore : Store → Prop where
  | joined {store : Store} (unlogged : store.log = ∅) (noHolds : store.holds = []) :
      ReachableStore store
  | admits {store : Store} {call : AdmissionCall} (before : ReachableStore store)
      (decodes : call.delta.decodable = true) :
      ReachableStore (admitOne crypto groupId store call)
  | installs {store : Store} (delta : NativeDelta) (key : VerifyingKey) (admission : Admission)
      (before : ReachableStore store) :
      ReachableStore (commit
        (installVerifiedDeltaReporting crypto groupId delta key admission) store)
  | elsewhere {store after : Store} (before : ReachableStore store)
      (sameLog : after.log = store.log) (sameFrontier : after.frontier = store.frontier)
      (fewerHolds : after.holds.Sublist store.holds) : ReachableStore after

variable {crypto groupId}

theorem consistentInvariant : AttemptInvariant crypto groupId
    (fun delta => delta.decodable = true) Store.Consistent where
  decodes := fun _ decodes => decodes
  consistent := fun _ consistent => consistent
  held := fun _ consistent => consistent.held
  keeps := fun _ _ _ _ _ _ consistent decodes attempt => attempt.consistent consistent decodes
  dooms := fun _ delta _ _ _ after consistent decodes attempt _ => by
    rcases Store.dropUnservableHolds_eq crypto after delta.author delta.seq with
      ⟨holds, pending, dropped, among⟩
    rw [dropped]
    exact (attempt.consistent consistent decodes).withFewerHolds among pending

theorem ReachableStore.consistent {store : Store} (reachable : ReachableStore crypto groupId store) :
    store.Consistent := by
  induction reachable with
  | joined unlogged noHolds =>
    refine ⟨?_, ?_, ?_⟩
    · intro dot hash logged
      rw [unlogged, ExtTreeMap.getElem?_empty] at logged
      cases logged
    · intro row member
      rw [noHolds] at member
      cases member
    · rw [noHolds]
      exact List.nodup_nil
  | admits _ decodes induction => exact consistentInvariant.admitOne induction decodes
  | @installs store delta key admission _ induction =>
    unfold commit
    split
    · rename_i ran
      rcases installVerifiedDeltaReporting_records ran with ⟨_, same⟩ | ⟨_, chain, records, _⟩
      · exact same ▸ induction
      · exact induction.ofRecords chain records.holds records.frontier records.log
    · exact induction
  | elsewhere _ sameLog sameFrontier fewerHolds induction =>
    refine ⟨?_, fun row member => induction.held row (fewerHolds.subset member),
      induction.heldDistinct.sublist (List.Sublist.map _ fewerHolds)⟩
    rw [sameLog, sameFrontier]
    exact induction.logged

/-! ## One admission and what it releases -/

section Admission

variable {delta : NativeDelta} {key : VerifyingKey} {keyFor : KeyFor} {now : Int} {store : Store}

variable (now) in
theorem applyOrHold_of_admissible (consistent : store.Consistent) (decodes : delta.decodable = true)
    (admissible : Admissible crypto groupId delta key store) :
    ∃ installed, applyOrHold crypto groupId delta key now store =
        .ok (.admitted delta.dot) (installed.clearHold delta.dot) ∧
      Installs crypto delta store installed := by
  rw [applyOrHold_of_ready admissible.signed admissible.portable admissible.notClosed
    admissible.ready admissible.agrees, installAdmitted, bind_apply]
  rcases installVerifiedDeltaInner_of_distinct (NativeDelta.paths_nodup decodes)
      admissible.signed admissible.sameGroup admissible.unfrozen admissible.notClosed
      admissible.ready.chain admissible.distinct
      (consistent.unlogged_of_chain admissible.ready.chain) admissible.agrees with
    ⟨installed, ran, installs, _⟩ | ⟨violation, _, violates⟩
  · refine ⟨installed, ?_, installs⟩
    rw [ran]
    rfl
  · rw [admissible.valid] at violates
    cases violates

theorem admissible_of_admitted (consistent : store.Consistent) (decodes : delta.decodable = true)
    {dot : Dot} {released : List Dot} {after : Store}
    (ran : admitNativeDelta crypto groupId delta keyFor now store =
      .ok (.admitted dot released) after) :
    ∃ key, keyFor delta.author = some key ∧ dot = delta.dot ∧
      Admissible crypto groupId delta key store := by
  unfold admitNativeDelta at ran
  cases found : keyFor delta.author with
  | none =>
    simp only [found] at ran
    cases ran
  | some key =>
    simp only [found] at ran
    rcases bind_eq_ok_iff.mp ran with ⟨step, middle, attempted, reported⟩
    rcases consistentInvariant.applyOrHold consistent decodes attempted with ⟨_, attempt⟩
    cases step with
    | admitted admittedDot =>
      rcases attempt.admitted_eq rfl with ⟨same, admissible, _⟩
      rcases bind_eq_ok_iff.mp reported with ⟨_, _, _, finished⟩
      cases finished
      exact ⟨key, rfl, same, admissible⟩
    | _ => cases reported

theorem Admissible.withHolds (holds : List HoldRow)
    (admissible : Admissible crypto groupId delta key store) :
    Admissible crypto groupId delta key { store with holds := holds } :=
  ⟨admissible.signed, admissible.portable, admissible.notClosed,
    ⟨admissible.ready.chain, admissible.ready.observed⟩, admissible.agrees,
    admissible.sameGroup, admissible.unfrozen, admissible.distinct, admissible.valid⟩

/-- Every admission comes to an end: what it releases, and what that releases in
turn, is through within the turns that the holds leave the cascade. -/
theorem release_cascade_ends (reachable : ReachableStore crypto groupId store)
    (decodes : delta.decodable = true) (after : Store) :
    admitNativeDelta crypto groupId delta keyFor now store ≠ .error .fuel after := by
  have consistent := reachable.consistent
  unfold admitNativeDelta
  cases keyFor delta.author with
  | none => simp
  | some key =>
    dsimp only
    rw [admitNativeDeltaWithKey, bind_apply]
    rcases applyOrHold_cases crypto groupId key now consistent decodes with
      ⟨step, middle, ran, attempt⟩ | ⟨failure, ran, _, notFuel, _⟩
    · rw [ran]
      cases step with
      | admitted dot =>
        simp only [reportStep, bind_apply]
        rcases releaseWaiters_cases (attempt.consistent consistent decodes) with
          ⟨_, _, cascade, _⟩ | ⟨failure, _, cascade, notFuel, _⟩
        · rw [cascade]
          simp
        · rw [cascade]
          simp [notFuel]
      | _ => simp [reportStep]
    · rw [ran]
      simp [notFuel]

variable (crypto groupId) in
/-- What is held keeps a delta out of nothing: if the store would admit it with
no holds at all, it is admitted and installed with those there are. -/
def HeldCannotBlock (store : Store) (call : AdmissionCall) : Prop :=
  ∀ dot released,
    outcome (admitNativeDelta crypto groupId call.delta call.keyFor call.now)
      { store with holds := [] } = .ok (.admitted dot released) →
    ∃ nowReleased,
      outcome (admitNativeDelta crypto groupId call.delta call.keyFor call.now) store =
        .ok (.admitted dot nowReleased) ∧
      (admitOne crypto groupId store call).log[call.delta.dot]? = some (call.delta.deltaHash crypto)

end Admission

/-! ## Two authors -/

def sampleKeys : KeyFor := fun author => some (if author.device = "phone" then 6 else 5)

/-- Written on the phone: removes the head of `sampleFirst`, and names it as
often as given. -/
def sampleRemoval (times : Nat) : NativeDelta :=
  NativeDelta.signedBy Crypto.sample (Crypto.sampleSign 6)
    ⟨"group", ⟨"phone", 1⟩, 1, none,
      [⟨"notes", List.replicate times ⟨sampleFirst.dot, sampleFirst.deltaHash Crypto.sample⟩,
        none⟩], none, 0⟩

/-- A replica that got the phone's removal before what it removes. -/
def sampleHolding (times : Nat) : Store :=
  admitOne Crypto.sample "group" Store.empty ⟨sampleRemoval times, sampleKeys, 0⟩

theorem sampleHolding_reachable (times : Nat) (decodes : (sampleRemoval times).decodable = true) :
    ReachableStore Crypto.sample "group" (sampleHolding times) :=
  .admits (.joined rfl rfl) decodes

theorem release_cascade_ends_once :
    admitNativeDelta Crypto.sample "group" sampleFirst sampleKeys 1 (sampleHolding 1) ≠
      .error .fuel (sampleHolding 1) :=
  release_cascade_ends (sampleHolding_reachable 1 (by decide)) (by decide) _

end Yadorilink
