import Yadorilink.Admission.Convergence
import Yadorilink.Admission.Isolation

/-! What an author's position in a store stands for. A delta at a position that
is taken changes nothing, whenever it is delivered again; and the tip at a
position stands for the author's whole history up to it, so that two replicas
need compare no more than their frontiers. -/

namespace Yadorilink

open Std Transaction

variable {crypto : Crypto} {groupId : FolderGroupId}

/-! ## Taken positions -/

section Taken

variable {store after : Store} {delta : NativeDelta} {key : VerifyingKey} {now : Int} {step : Step}

theorem Attempt.eq_of_taken (attempt : Attempt crypto groupId delta key now store step after)
    (taken : delta.seq ≤ positionSeq store.frontier[delta.author]?) : after = store := by
  cases attempt with
  | held blocked ran => exact absurd blocked.ahead (Nat.not_lt.mpr taken)
  | admitted admissible installs =>
    have next := (checkChainAdvance_eq_ok_iff.mp admissible.ready.chain).1
    omega
  | _ => rfl

theorem takenInvariant (dot : Dot) (hash : DeltaHash) :
    AttemptInvariant crypto groupId (fun delta => delta.decodable = true)
      (fun store => store.Consistent ∧ store.log[dot]? = some hash) where
  decodes := fun _ decodes => decodes
  consistent := fun _ both => both.1
  held := fun _ both => both.1.held
  keeps := fun _ _ _ _ _ _ both decodes attempt =>
    ⟨attempt.consistent both.1 decodes, attempt.log_mono both.2⟩
  dooms := fun store delta key now step after both decodes attempt dooms => by
    refine ⟨consistentInvariant.dooms store delta key now step after both.1 decodes attempt dooms, ?_⟩
    rcases Store.dropUnservableHolds_eq crypto after delta.author delta.seq with
      ⟨holds, pending, dropped, _⟩
    rw [dropped]
    exact attempt.log_mono both.2

theorem admitOne_of_taken (consistent : store.Consistent) {call : AdmissionCall}
    (decodes : call.delta.decodable = true) {hash : DeltaHash}
    (taken : store.log[call.delta.dot]? = some hash) :
    admitOne crypto groupId store call = store := by
  unfold admitOne commit
  split
  · rename_i ran
    unfold admitNativeDelta at ran
    cases found : call.keyFor call.delta.author with
    | none =>
      simp only [found] at ran
      cases ran
      rfl
    | some key =>
      simp only [found] at ran
      rcases bind_eq_ok_iff.mp ran with ⟨step, middle, attempted, reported⟩
      rcases consistentInvariant.applyOrHold consistent decodes attempted with ⟨_, attempt⟩
      cases step with
      | admitted dot =>
        have chain := (attempt.admitted_eq rfl).2.1.ready.chain
        rw [consistent.unlogged_of_chain chain] at taken
        cases taken
      | _ =>
        cases reported
        exact attempt.eq_of_taken (consistent.logged _ _ taken)
  · rfl

/-- An installed delta takes effect once. Whatever is admitted after it, its
position keeps its hash; and any delta delivered for that position again, be it
the same one or one of an author that forked its chain, leaves the store as it
is. -/
theorem taken_positions_final (crypto : Crypto) (groupId : FolderGroupId) (store : Store)
    (reachable : ReachableStore crypto groupId store) (dot : Dot) (hash : DeltaHash)
    (taken : store.log[dot]? = some hash) (calls : List AdmissionCall)
    (decodes : ∀ call, call ∈ calls → call.delta.decodable = true) :
    (admitAll crypto groupId store calls).log[dot]? = some hash ∧
      ∀ again : AdmissionCall, again.delta.decodable = true → again.delta.dot = dot →
        admitOne crypto groupId (admitAll crypto groupId store calls) again =
          admitAll crypto groupId store calls := by
  rcases (takenInvariant dot hash).admitAll ⟨reachable.consistent, taken⟩ decodes with
    ⟨consistent, kept⟩
  refine ⟨kept, ?_⟩
  rintro again decodesAgain rfl
  exact admitOne_of_taken consistent decodesAgain kept

/-- The first delta is delivered again after the one that replaces what it wrote. -/
theorem taken_positions_final_twice :
    let installed := admitOne Crypto.sample "group" Store.empty ⟨sampleFirst, fun _ => some 5, 0⟩
    let replaced := admitAll Crypto.sample "group" installed [⟨sampleSecond, fun _ => some 5, 1⟩]
    admitOne Crypto.sample "group" replaced ⟨sampleFirst, fun _ => some 5, 2⟩ = replaced :=
  (taken_positions_final Crypto.sample "group" _ (.admits (.joined rfl rfl) (by decide))
    sampleFirst.dot (sampleFirst.deltaHash Crypto.sample) (by decide +kernel)
    [⟨sampleSecond, fun _ => some 5, 1⟩] (by decide)).2 _ (by decide) rfl

end Taken

/-! ## One tip, one history -/

section Tips

variable {first second : Store} {deltas : List NativeDelta}
  (sound : first.Sound crypto) (soundOther : second.Sound crypto)

theorem Store.Sound.unlogged {store : Store} (sound : store.Sound crypto) {dot : Dot}
    (outside : ¬(1 ≤ dot.seq ∧ dot.seq ≤ positionSeq store.frontier[dot.author]?)) :
    store.log[dot]? = none := by
  cases logged : store.log[dot]? with
  | none => rfl
  | some hash => exact absurd ((sound.logged dot).mp ⟨hash, logged⟩) outside

include sound soundOther

variable (fromFirst : ∀ delta, delta ∈ first.installedDeltas crypto → delta ∈ deltas)
  (fromSecond : ∀ delta, delta ∈ second.installedDeltas crypto → delta ∈ deltas)
  (collisionFree : HashCollisionFree crypto deltas)

include fromFirst fromSecond collisionFree

theorem Store.Sound.log_eq_of_tip {author : AuthorId} {tip : Nat}
    (within : tip ≤ positionSeq first.frontier[author]?)
    (same : first.log[(⟨author, tip⟩ : Dot)]? = second.log[(⟨author, tip⟩ : Dot)]?) {seq : Nat}
    (below : seq ≤ tip) :
    first.log[(⟨author, seq⟩ : Dot)]? = second.log[(⟨author, seq⟩ : Dot)]? := by
  induction tip with
  | zero =>
    cases Nat.le_zero.mp below
    exact same
  | succ tip induction =>
    rcases Nat.le_succ_iff.mp below with earlier | here
    · refine induction (by omega) ?_ earlier
      -- The delta at the tip names the one before it, and its hash is of both.
      rcases (sound.logged ⟨author, tip + 1⟩).mpr ⟨by simp, within⟩ with ⟨hash, logged⟩
      rcases sound.body _ _ logged with ⟨delta, member, atTip, hashed⟩
      rcases soundOther.body _ _ (same ▸ logged) with ⟨other, otherMember, otherTip, otherHashed⟩
      have unsigned := collisionFree delta (fromFirst delta member) other
        (fromSecond other otherMember) (hashed.trans otherHashed.symm)
      have prevs := congrArg NativeDelta.prev unsigned
      change delta.prev = other.prev at prevs
      have named := sound.prev delta member
      have otherNamed := soundOther.prev other otherMember
      rw [prevs, otherNamed] at named
      simp only [show delta.author = author from congrArg Dot.author atTip,
        show delta.seq = tip + 1 from congrArg Dot.seq atTip,
        show other.author = author from congrArg Dot.author otherTip,
        show other.seq = tip + 1 from congrArg Dot.seq otherTip] at named
      cases tip with
      | zero => rw [sound.unlogged (by simp), soundOther.unlogged (by simp)]
      | succ tip => simpa using named.symm
    · rw [here]
      exact same

theorem Store.Sound.log_eq_of_frontier (same : first.frontier = second.frontier) :
    first.log = second.log := by
  apply ExtTreeMap.ext_getElem?
  intro dot
  by_cases within : dot.seq ≤ positionSeq first.frontier[dot.author]?
  · refine sound.log_eq_of_tip soundOther fromFirst fromSecond collisionFree (Nat.le_refl _) ?_ within
    cases position : first.frontier[dot.author]? with
    | none => rw [sound.unlogged (by simp [positionSeq]), soundOther.unlogged (by simp [positionSeq])]
    | some entry =>
      exact (sound.tip _ entry position).trans (soundOther.tip _ entry (same ▸ position)).symm
  · rw [sound.unlogged fun inside => within inside.2,
      soundOther.unlogged fun inside => within (same ▸ inside.2)]

end Tips

/-- An author's tip stands for its history. Where another replica has logged the
tip at the same position, the two have the same log of that author up to it,
whatever each was sent and in whatever order; and replicas with the same
frontier have the same log and read the same. -/
theorem frontier_stands_for_history (crypto : Crypto) (groupId : FolderGroupId)
    (calls others : List AdmissionCall) (first second : Store)
    (ran : admitAll crypto groupId Store.empty calls = first)
    (ranOthers : admitAll crypto groupId Store.empty others = second)
    (decodes : ∀ call, call ∈ calls ++ others → call.delta.decodable = true)
    (collisionFree : HashCollisionFree crypto ((calls ++ others).map AdmissionCall.delta)) :
    (∀ (author : AuthorId) (entry : NativeAuthorFrontierEntry),
      first.frontier[author]? = some entry →
      second.log[(⟨author, entry.seq⟩ : Dot)]? = some entry.tip → ∀ seq, seq ≤ entry.seq →
        first.log[(⟨author, seq⟩ : Dot)]? = second.log[(⟨author, seq⟩ : Dot)]?) ∧
    (first.frontier = second.frontier → first.log = second.log ∧ SameReplica first second) := by
  have decodesCalls : ∀ call, call ∈ calls → call.delta.decodable = true :=
    fun call member => decodes call (List.mem_append_left others member)
  have decodesOthers : ∀ call, call ∈ others → call.delta.decodable = true :=
    fun call member => decodes call (List.mem_append_right calls member)
  subst ran ranOthers
  have sound := sound_admitAll crypto groupId calls decodesCalls
  have soundOther := sound_admitAll crypto groupId others decodesOthers
  have fromCalls := installed_delivered crypto groupId decodesCalls fun call member =>
    List.mem_map_of_mem (List.mem_append_left others member)
  have fromOthers := installed_delivered crypto groupId decodesOthers fun call member =>
    List.mem_map_of_mem (List.mem_append_right calls member)
  refine ⟨?_, ?_⟩
  · intro author entry position logged seq below
    refine sound.log_eq_of_tip soundOther fromCalls fromOthers collisionFree ?_ ?_ below
    · rw [position]
      exact Nat.le_refl _
    · rw [sound.tip author entry position, logged]
  · intro same
    have sameLog := sound.log_eq_of_frontier soundOther fromCalls fromOthers collisionFree same
    exact ⟨sameLog, sameReplica_of_covered sound soundOther
      (covered_of_log sound soundOther fromCalls fromOthers collisionFree sameLog)
      (covered_of_log soundOther sound fromOthers fromCalls collisionFree sameLog.symm)⟩

theorem frontier_stands_for_history_reversed :
    (admitAll Crypto.sample "group" Store.empty (sampleCalls [sampleFirst, sampleSecond])).log =
      (admitAll Crypto.sample "group" Store.empty (sampleCalls [sampleSecond, sampleFirst])).log :=
  ((frontier_stands_for_history Crypto.sample "group" (sampleCalls [sampleFirst, sampleSecond])
    (sampleCalls [sampleSecond, sampleFirst]) _ _ rfl rfl (by decide)
    (by unfold HashCollisionFree; decide +kernel)).2 (by decide +kernel)).1

end Yadorilink
