import Yadorilink.Admission.Admit
import Yadorilink.Store.Sound

/-! Everything one attempt can do in a group without closures or freeze. Each
verdict of `applyOrHold` is listed once with what caused it and what it left,
and the proofs about runs start from that list. -/

namespace Yadorilink

open Std Transaction Store List NativeDelta

/-! ## Gates -/

/-- What keeps a delta from being applied: the delta before it is missing, or
the first dot its removals name that was not observed. -/
inductive Blocked (store : Store) (delta : NativeDelta) : Dot → Prop where
  | predecessor (ahead : positionSeq store.frontier[delta.author]? + 2 ≤ delta.seq) :
      Blocked store delta ⟨delta.author, delta.seq - 1⟩
  | context {dot : Dot}
      (chain : checkChainAdvance store.frontier[delta.author]? delta.prev delta.seq = .ok ())
      (first : store.firstUnobserved delta = some dot) : Blocked store delta dot

/-- The delta continues its author's chain and every dot it names was
observed. -/
structure Ready (store : Store) (delta : NativeDelta) : Prop where
  chain : checkChainAdvance store.frontier[delta.author]? delta.prev delta.seq = .ok ()
  observed : ∀ dot, dot ∈ delta.namedDots → observedBy store.context dot = true

theorem Store.firstUnobserved_eq_none_iff {store : Store} {delta : NativeDelta} :
    store.firstUnobserved delta = none ↔
      ∀ dot, dot ∈ delta.namedDots → observedBy store.context dot = true := by
  simp [Store.firstUnobserved, find?_eq_none]

theorem Store.firstUnobserved_eq_some {store : Store} {delta : NativeDelta} {dot : Dot}
    (first : store.firstUnobserved delta = some dot) :
    dot ∈ delta.namedDots ∧ observedBy store.context dot = false := by
  refine ⟨mem_of_find?_eq_some first, ?_⟩
  simpa using find?_some first

namespace Blocked

variable {crypto : Crypto} {store : Store} {delta : NativeDelta} {dot : Dot}

theorem unobserved (sound : store.Sound crypto) (blocked : Blocked store delta dot) :
    observedBy store.context dot = false := by
  cases blocked with
  | predecessor ahead =>
    rw [← Bool.not_eq_true]
    intro observed
    have within := sound.observed_le observed
    simp only at within
    omega
  | context chain first => exact (firstUnobserved_eq_some first).2

theorem ahead (blocked : Blocked store delta dot) :
    positionSeq store.frontier[delta.author]? < delta.seq := by
  cases blocked with
  | predecessor ahead => omega
  | context chain first =>
    have next := (checkChainAdvance_eq_ok_iff.mp chain).1
    omega

theorem not_ready (blocked : Blocked store delta dot) : ¬Ready store delta := by
  intro ready
  cases blocked with
  | predecessor ahead =>
    have next := (checkChainAdvance_eq_ok_iff.mp ready.chain).1
    omega
  | context chain first =>
    have facts := firstUnobserved_eq_some first
    rw [ready.observed dot facts.1] at facts
    cases facts.2

end Blocked

/-- Everything an attempt checks before it installs a delta. None of it reads
the hold queue. -/
structure Admissible (crypto : Crypto) (groupId : FolderGroupId) (delta : NativeDelta)
    (key : VerifyingKey) (store : Store) : Prop where
  signed : delta.verifySignature crypto key = true
  portable : pathRefusal delta = none
  notClosed : store.closedVerdict crypto delta = .open_
  ready : Ready store delta
  agrees : store.conflictingPartCount delta = none
  sameGroup : delta.groupId = groupId
  unfrozen : checkFreeze store groupId delta.author delta.seq .remote = .ok .open_
  distinct : delta.RemovalsDistinct
  valid : (appliedState crypto delta store).checkInvariants = .ok ()

/-! ## The verdicts -/

section Verdicts

variable (crypto : Crypto) (groupId : FolderGroupId) (delta : NativeDelta) (key : VerifyingKey)
  (now : Int) (store : Store)

/-- One attempt's verdict and the store it leaves. -/
inductive Attempt : Step → Store → Prop where
  | badSignature (unsigned : delta.verifySignature crypto key = false) :
      Attempt .badSignature store
  | invalidPath {refusal : PathRefusal} (refused : pathRefusal delta = some refusal) :
      Attempt (.invalidPath refusal) store
  | authorClosed {cutoff : Option Nat} (closed : store.closedVerdict crypto delta = .beyond cutoff) :
      Attempt (.authorClosed cutoff) store
  | closureFork {seq : Nat} (forked : store.closedVerdict crypto delta = .fork seq) :
      Attempt (.closureFork seq) store
  | chainFork {evidence : Equivocation}
      (next : delta.seq = positionSeq store.frontier[delta.author]? + 1)
      (fork : delta.prev ≠ (store.frontier[delta.author]?).map NativeAuthorFrontierEntry.tip) :
      Attempt (.equivocation evidence) store
  | redelivered (known : delta.seq ≤ positionSeq store.frontier[delta.author]?) :
      Attempt (redelivered crypto store delta delta.seq) store
  | exhausted (last : AuthorSeq.max ≤ positionSeq store.frontier[delta.author]?) :
      Attempt (.malformed (.seqExhausted delta.author)) store
  | unservableDependency {dot : Dot} (blocked : Blocked store delta dot)
      (cut : (store.beyondCutoff dot.author dot.seq).isSome = true) :
      Attempt (.unservableDependency dot) store
  | held {dot : Dot} {after : Store} (blocked : Blocked store delta dot)
      (ran : hold crypto delta dot now store = .ok .held after) : Attempt (.held dot) after
  | heldFork {dot : Dot} {row : HoldRow} {evidence : Equivocation}
      (blocked : Blocked store delta dot) (existing : store.holdOf delta.dot = some row)
      (fork : row.delta.deltaHash crypto ≠ delta.deltaHash crypto) :
      Attempt (.equivocation evidence) store
  | partCount {reason : MalformedReason} {recorded : Nat} (ready : Ready store delta)
      (conflict : store.conflictingPartCount delta = some recorded) :
      Attempt (.malformed reason) store
  | groupFrozen (ready : Ready store delta)
      (frozen : checkFreeze store groupId delta.author delta.seq .remote = .ok .frozen) :
      Attempt .groupFrozen store
  | wouldViolateInvariant {violation : InvariantViolation} (ready : Ready store delta)
      (violates : (appliedState crypto delta store).checkInvariants = .error violation) :
      Attempt (.wouldViolateInvariant violation) store
  | admitted {after : Store} (admissible : Admissible crypto groupId delta key store)
      (installs : Installs crypto delta store after) :
      Attempt (.admitted delta.dot) (after.clearHold delta.dot)

/-- What an attempt cannot get past in any state of the group: a delta of
another group, or one that names a dot twice. -/
def Unappliable : Prop := delta.groupId ≠ groupId ∨ ¬delta.RemovalsDistinct

variable {crypto groupId delta key now store}

variable (crypto groupId key now) in
/-- Holding re-points the row of the same delta, refuses another delta at the
same position, or takes a new row. -/
theorem holdFor_cases {dot : Dot} (blocked : Blocked store delta dot) :
    ∃ step after, holdFor crypto delta dot now store = .ok step after ∧
      Attempt crypto groupId delta key now store step after := by
  cases ran : hold crypto delta dot now store with
  | error failure after =>
    unfold hold at ran
    split at ran
    · split at ran <;> cases ran
    · cases ran
  | ok outcome after =>
    cases outcome with
    | held =>
      refine ⟨.held dot, after, ?_, .held blocked ran⟩
      rw [holdFor, bind_apply, ran]
      rfl
    | equivocation evidence =>
      refine ⟨.equivocation evidence, after, ?_, ?_⟩
      · rw [holdFor, bind_apply, ran]
        rfl
      · unfold hold at ran
        split at ran
        · rename_i row existing
          split at ran
          · cases ran
          · rename_i fork
            cases ran
            exact .heldFork blocked existing fork
        · cases ran

theorem installAdmitted_cases (consistent : store.Consistent) (decodes : delta.decodable = true)
    (signed : delta.verifySignature crypto key = true) (portable : pathRefusal delta = none)
    (notClosed : store.closedVerdict crypto delta = .open_) (ready : Ready store delta)
    (agrees : store.conflictingPartCount delta = none) :
    (∃ step after, installAdmitted crypto groupId delta key store = .ok step after ∧
        Attempt crypto groupId delta key now store step after) ∨
      ∃ failure, installAdmitted crypto groupId delta key store = .error failure store ∧
        failure ≠ .fuel ∧ (Unappliable groupId delta ∨
          checkFreeze store groupId delta.author delta.seq .remote = .error failure) := by
  have paths := paths_nodup decodes
  by_cases sameGroup : delta.groupId = groupId
  swap
  · refine Or.inr ⟨.invalidInput (.otherGroup delta.groupId groupId), ?_, by simp,
      Or.inl (Or.inl sameGroup)⟩
    have ran : installVerifiedDeltaInner crypto groupId delta key store =
        .error (.invalidInput (.otherGroup delta.groupId groupId)) store := by
      simp only [installVerifiedDeltaInner, installVerifiedDeltaReporting, bind_apply,
        get_apply, signed, Bool.not_true, Bool.false_eq_true, if_false, ne_eq,
        sameGroup, not_false_eq_true, if_true, throw_apply]
    rw [installAdmitted, bind_apply, ran]
  rcases checkFreeze_remote_cases store groupId delta.author delta.seq with
    unfrozen | frozen | ⟨name, unreadable⟩
  · by_cases distinct : delta.RemovalsDistinct
    · rcases installVerifiedDeltaInner_of_distinct paths signed sameGroup unfrozen notClosed
          ready.chain distinct (consistent.unlogged_of_chain ready.chain) agrees with
        ⟨after, ran, installs, valid⟩ | ⟨violation, ran, violates⟩
      · refine Or.inl ⟨.admitted delta.dot, after.clearHold delta.dot, ?_,
          .admitted ⟨signed, portable, notClosed, ready, agrees, sameGroup, unfrozen, distinct,
            valid⟩ installs⟩
        rw [installAdmitted, bind_apply, ran]
        rfl
      · refine Or.inl ⟨.wouldViolateInvariant violation, store, ?_,
          .wouldViolateInvariant ready violates⟩
        rw [installAdmitted, bind_apply, ran]
        rfl
    · rcases installVerifiedDeltaInner_of_repeated paths signed sameGroup unfrozen notClosed
        ready.chain distinct with ⟨failure, ran⟩
      refine Or.inr ⟨.invalidInput (.malformed failure), ?_, by simp, Or.inl (Or.inr distinct)⟩
      rw [installAdmitted, bind_apply, ran]
  · refine Or.inl ⟨.groupFrozen, store, ?_, .groupFrozen ready frozen⟩
    simp [installAdmitted, installVerifiedDeltaInner, installVerifiedDeltaReporting,
      bind_apply, signed, sameGroup, frozen]
  · refine Or.inr ⟨.corruptState (.journalState name), ?_, by simp, Or.inr unreadable⟩
    simp only [installAdmitted, installVerifiedDeltaInner, installVerifiedDeltaReporting,
      bind_apply, get_apply, signed, Bool.not_true, Bool.false_eq_true,
      if_false, sameGroup, ne_eq, not_true_eq_false, unreadable, throw_apply]

theorem applyOrHold_of_ready (signed : delta.verifySignature crypto key = true)
    (portable : pathRefusal delta = none) (notClosed : store.closedVerdict crypto delta = .open_)
    (ready : Ready store delta) (agrees : store.conflictingPartCount delta = none) :
    applyOrHold crypto groupId delta key now store =
      installAdmitted crypto groupId delta key store := by
  have continues := classifyChainAdvance_continues.mpr ready.chain
  have observed := firstUnobserved_eq_none_iff.mpr ready.observed
  simp only [applyOrHold, gateChain, gateContext, bind_apply, get_apply,
    signed, portable, notClosed, continues, observed, agrees, Bool.not_true,
    Bool.false_eq_true, if_false]

variable (crypto groupId key now) in
/-- Every attempt ends in one of the listed verdicts, or fails on a delta
that passed both gates. -/
theorem applyOrHold_cases (consistent : store.Consistent) (decodes : delta.decodable = true) :
    (∃ step after, applyOrHold crypto groupId delta key now store = .ok step after ∧
        Attempt crypto groupId delta key now store step after) ∨
      ∃ failure, applyOrHold crypto groupId delta key now store = .error failure store ∧
        Ready store delta ∧ failure ≠ .fuel ∧ (Unappliable groupId delta ∨
          checkFreeze store groupId delta.author delta.seq .remote = .error failure) := by
  by_cases signed : delta.verifySignature crypto key = true
  swap
  · rw [Bool.not_eq_true] at signed
    refine Or.inl ⟨.badSignature, store, ?_, .badSignature signed⟩
    simp [applyOrHold, bind_apply, signed]
  cases portable : pathRefusal delta with
  | some refusal =>
    refine Or.inl ⟨.invalidPath refusal, store, ?_, .invalidPath portable⟩
    simp [applyOrHold, bind_apply, signed, portable]
  | none =>
    cases closure : store.closedVerdict crypto delta with
    | beyond cutoff =>
      refine Or.inl ⟨.authorClosed cutoff, store, ?_, .authorClosed closure⟩
      simp [applyOrHold, bind_apply, signed, portable, closure]
    | fork seq =>
      refine Or.inl ⟨.closureFork seq, store, ?_, .closureFork closure⟩
      simp [applyOrHold, bind_apply, signed, portable, closure]
    | open_ =>
      have toChain : applyOrHold crypto groupId delta key now store =
          gateChain crypto groupId delta key now store := by
        simp [applyOrHold, bind_apply, signed, portable, closure]
      have facts := @classifyChainAdvance_means store.frontier[delta.author]? delta.prev delta.seq
      cases gate : classifyChainAdvance store.frontier[delta.author]? delta.prev delta.seq with
      | equivocation atSeq expectedPrev foundPrev =>
        rw [gate] at facts
        refine Or.inl ⟨.equivocation ⟨delta.author, atSeq, expectedPrev.getD default,
          foundPrev.getD default⟩, store, ?_, .chainFork facts.1 facts.2⟩
        simp [toChain, gateChain, bind_apply, gate]
      | needsHistoryLookup atSeq =>
        rw [gate] at facts
        rcases facts with ⟨rfl, known⟩
        refine Or.inl ⟨redelivered crypto store delta delta.seq, store, ?_, .redelivered known⟩
        simp [toChain, gateChain, bind_apply, gate]
      | seqExhausted =>
        rw [gate] at facts
        refine Or.inl ⟨.malformed (.seqExhausted delta.author), store, ?_, .exhausted facts⟩
        simp [toChain, gateChain, bind_apply, gate]
      | needsPredecessor missing =>
        have positive := (seq_inRange decodes).1
        rw [gate] at facts
        rcases facts with ⟨rfl, ahead⟩
        have ahead := ahead positive
        have nonzero : delta.seq ≠ 0 := by omega
        rcases holdFor_cases crypto groupId key now (Blocked.predecessor ahead) with
          ⟨step, after, ran, attempt⟩
        refine Or.inl ⟨step, after, ?_, attempt⟩
        simp [toChain, gateChain, bind_apply, gate, nonzero, ran]
      | continues =>
        have chain := classifyChainAdvance_continues.mp gate
        cases first : store.firstUnobserved delta with
        | some dot =>
          have blocked := Blocked.context chain first
          by_cases cut : (store.beyondCutoff dot.author dot.seq).isSome = true
          · refine Or.inl ⟨.unservableDependency dot, store, ?_,
              .unservableDependency blocked cut⟩
            simp [toChain, gateChain, gateContext, bind_apply, gate, first, cut]
          · rcases holdFor_cases crypto groupId key now blocked with
              ⟨step, after, ran, attempt⟩
            refine Or.inl ⟨step, after, ?_, attempt⟩
            simp [toChain, gateChain, gateContext, bind_apply, gate, first, cut, ran]
        | none =>
          have ready : Ready store delta :=
            ⟨chain, firstUnobserved_eq_none_iff.mp first⟩
          cases agrees : store.conflictingPartCount delta with
          | some recorded =>
            refine Or.inl ⟨.malformed (.partCount delta.author
              ((delta.recursivePart.map RecursivePart.partCount).getD 0) recorded),
              store, ?_, .partCount ready agrees⟩
            simp [toChain, gateChain, gateContext, bind_apply, gate, first, agrees]
          | none =>
            rw [applyOrHold_of_ready signed portable closure ready agrees]
            rcases installAdmitted_cases consistent decodes signed portable closure
              ready agrees with ⟨step, after, ran, attempt⟩ | ⟨failure, ran, facts⟩
            · exact Or.inl ⟨step, after, ran, attempt⟩
            · exact Or.inr ⟨failure, ran, ready, facts⟩

/-! ## What every attempt leaves -/

/-- Holding re-points the delta's row or takes a new one, and no other row
changes or comes in. -/
theorem hold_held {dot : Dot} {after : Store}
    (ran : hold crypto delta dot now store = .ok .held after) :
    ∃ holds, after = { store with holds := holds } ∧
      ((∃ row, store.holdOf delta.dot = some row ∧ holds = store.holds.map fun row =>
          if row.delta.dot = delta.dot then { row with waitingOn := dot } else row) ∨
        (store.holdOf delta.dot = none ∧
          holds = makeRoom delta.author store.holds ++ [⟨delta, dot, now⟩])) := by
  unfold hold at ran
  cases found : store.holdOf delta.dot with
  | some existing =>
    simp only [found] at ran
    split at ran
    · cases ran
      exact ⟨_, rfl, Or.inl ⟨existing, rfl, rfl⟩⟩
    · cases ran
  | none =>
    simp only [found] at ran
    cases ran
    exact ⟨_, rfl, Or.inr ⟨rfl, rfl⟩⟩

theorem Store.ne_of_holdOf_none {dot : Dot} (found : store.holdOf dot = none) {row : HoldRow}
    (member : row ∈ store.holds) : row.delta.dot ≠ dot := by
  simpa using find?_eq_none.mp found row member

/-- What an attempt leaves of the hold queue: only its own delta's row is new
or points elsewhere than before. -/
structure HoldsAfter (delta : NativeDelta) (before after : List HoldRow) : Prop where
  rows : ∀ row, row ∈ after → row ∈ before ∨ (row.delta.dot = delta.dot ∧
    (row.delta = delta ∨ ∃ old, old ∈ before ∧ old.delta = row.delta))
  distinct : (before.map fun row => row.delta.dot).Nodup →
    (after.map fun row => row.delta.dot).Nodup
  noNewRow : (∃ row, row ∈ before ∧ row.delta.dot = delta.dot) → after.length ≤ before.length

theorem HoldsAfter.sublist {before after : List HoldRow} (among : after.Sublist before) :
    HoldsAfter delta before after where
  rows := fun _ member => Or.inl (among.subset member)
  distinct := fun nodup => nodup.sublist (List.Sublist.map _ among)
  noNewRow := fun _ => among.length_le

theorem HoldsAfter.fewer {before after fewer : List HoldRow}
    (left : HoldsAfter delta before after) (among : fewer.Sublist after) :
    HoldsAfter delta before fewer where
  rows := fun row member => left.rows row (among.subset member)
  distinct := fun nodup => (left.distinct nodup).sublist (List.Sublist.map _ among)
  noNewRow := fun own => among.length_le.trans (left.noNewRow own)

theorem HoldsAfter.delta_eq {before after : List HoldRow} (left : HoldsAfter delta before after)
    {row : HoldRow} (member : row ∈ after) :
    row.delta = delta ∨ ∃ old, old ∈ before ∧ old.delta = row.delta := by
  rcases left.rows row member with old | ⟨_, own⟩
  · exact Or.inr ⟨row, old, rfl⟩
  · exact own

private theorem holdsAfter_repoint (dot : Dot) (holds : List HoldRow) :
    HoldsAfter delta holds (holds.map fun row =>
      if row.delta.dot = delta.dot then { row with waitingOn := dot } else row) := by
  have sameDelta : ∀ row : HoldRow,
      (if row.delta.dot = delta.dot then { row with waitingOn := dot } else row).delta =
        row.delta := by
    intro row
    split
    · rfl
    · rfl
  refine ⟨?_, ?_, fun _ => Nat.le_of_eq (length_map ..)⟩
  · intro row member
    rcases mem_map.mp member with ⟨old, inHolds, rfl⟩
    by_cases own : old.delta.dot = delta.dot
    · rw [sameDelta]
      exact Or.inr ⟨own, Or.inr ⟨old, inHolds, rfl⟩⟩
    · rw [if_neg own]
      exact Or.inl inHolds
  · intro nodup
    have dots : (holds.map fun row => if row.delta.dot = delta.dot
        then { row with waitingOn := dot } else row).map (fun row => row.delta.dot) =
          holds.map fun row => row.delta.dot := by
      rw [map_map]
      exact map_congr_left fun row _ => congrArg NativeDelta.dot (sameDelta row)
    rw [dots]
    exact nodup

private theorem holdsAfter_new {dot : Dot} (found : store.holdOf delta.dot = none) :
    HoldsAfter delta store.holds (makeRoom delta.author store.holds ++ [⟨delta, dot, now⟩]) := by
  refine ⟨?_, ?_, ?_⟩
  · intro row member
    rcases mem_append.mp member with kept | new
    · exact Or.inl (makeRoom_subset delta.author store.holds kept)
    · rw [mem_singleton] at new
      subst new
      exact Or.inr ⟨rfl, Or.inl rfl⟩
  · intro nodup
    have kept := nodup.sublist
      (List.Sublist.map (fun row => row.delta.dot) (makeRoom_sublist delta.author store.holds))
    rw [map_append, nodup_append]
    refine ⟨kept, nodup_singleton _, ?_⟩
    intro first inKept second inNew same
    rcases mem_map.mp inKept with ⟨row, kept, rfl⟩
    simp only [map_cons, map_nil, mem_singleton] at inNew
    exact ne_of_holdOf_none found (makeRoom_subset delta.author store.holds kept)
      (same.trans inNew)
  · rintro ⟨row, member, own⟩
    exact absurd own (ne_of_holdOf_none found member)

theorem holdsAfter_of_held {dot : Dot} {after : Store}
    (ran : hold crypto delta dot now store = .ok .held after) :
    ∃ holds, after = { store with holds := holds } ∧ HoldsAfter delta store.holds holds := by
  rcases hold_held ran with ⟨holds, left, ⟨_, _, repointed⟩ | ⟨found, taken⟩⟩
  · exact ⟨holds, left, repointed ▸ holdsAfter_repoint dot store.holds⟩
  · exact ⟨holds, left, taken ▸ holdsAfter_new found⟩

namespace Attempt

variable {step : Step} {after : Store}
  (attempt : Attempt crypto groupId delta key now store step after)

include attempt

/-- An attempt changes the holds, or installs its delta. -/
theorem effect : (∃ holds, after = { store with holds := holds } ∧
      HoldsAfter delta store.holds holds) ∨
    ∃ installed, Admissible crypto groupId delta key store ∧
      Installs crypto delta store installed ∧ after = installed.clearHold delta.dot := by
  cases attempt with
  | held blocked ran => exact .inl (holdsAfter_of_held ran)
  | admitted admissible installs => exact .inr ⟨_, admissible, installs, rfl⟩
  | _ => exact .inl ⟨store.holds, rfl, HoldsAfter.sublist (List.Sublist.refl _)⟩

theorem holdsAfter : HoldsAfter delta store.holds after.holds := by
  rcases attempt.effect with ⟨holds, rfl, left⟩ | ⟨installed, _, installs, rfl⟩
  · exact left
  · rw [← installs.holds_eq]
    exact HoldsAfter.sublist filter_sublist

theorem log_mono {dot : Dot} {hash : DeltaHash} (logged : store.log[dot]? = some hash) :
    after.log[dot]? = some hash := by
  rcases attempt.effect with ⟨holds, rfl, _⟩ | ⟨installed, _, installs, rfl⟩
  · exact logged
  · exact installs.log_mono logged

theorem journal_eq : after.journal = store.journal := by
  rcases attempt.effect with ⟨holds, rfl, _⟩ | ⟨installed, _, installs, rfl⟩
  · rfl
  · rcases installs.written with ⟨heads, closed, rfl, _⟩
    rfl

theorem held_decodes (held : ∀ row, row ∈ store.holds → row.delta.decodable = true)
    (decodes : delta.decodable = true) :
    ∀ row, row ∈ after.holds → row.delta.decodable = true := by
  intro row member
  rcases attempt.holdsAfter.delta_eq member with same | ⟨old, inHolds, same⟩
  · exact same ▸ decodes
  · exact same ▸ held old inHolds

theorem consistent (consistent : store.Consistent) (decodes : delta.decodable = true) :
    after.Consistent := by
  refine ⟨?_, attempt.held_decodes consistent.held decodes,
    attempt.holdsAfter.distinct consistent.heldDistinct⟩
  rcases attempt.effect with ⟨holds, rfl, _⟩ | ⟨installed, _, installs, rfl⟩
  · exact consistent.logged
  · exact (consistent.ofRecords installs.chain installs.holds_eq installs.frontier_eq
      installs.log_eq).logged

theorem sound (sound : store.Sound crypto) (decodes : delta.decodable = true) :
    after.Sound crypto := by
  have held := attempt.held_decodes sound.held decodes
  have distinct := attempt.holdsAfter.distinct sound.heldDistinct
  rcases attempt.effect with ⟨holds, rfl, _⟩ | ⟨installed, admissible, installs, rfl⟩
  · exact sound.withHolds held distinct
  · exact (installs.sound_after sound decodes admissible.ready.observed).withHolds held distinct

theorem installed_mono (sound : store.Sound crypto) {other : NativeDelta}
    (member : other ∈ store.installedDeltas crypto) : other ∈ after.installedDeltas crypto := by
  rcases attempt.effect with ⟨holds, rfl, _⟩ | ⟨installed, _, installs, rfl⟩
  · exact member
  · change other ∈ installed.installedDeltas crypto
    rw [installs.installedDeltas_eq sound]
    exact Set.mem_insert_of_mem delta member

theorem installed_of_mem (sound : store.Sound crypto) {other : NativeDelta}
    (member : other ∈ after.installedDeltas crypto) :
    other = delta ∨ other ∈ store.installedDeltas crypto := by
  rcases attempt.effect with ⟨holds, rfl, _⟩ | ⟨installed, _, installs, rfl⟩
  · exact Or.inr member
  · have installedMember : other ∈ installed.installedDeltas crypto := member
    rw [installs.installedDeltas_eq sound] at installedMember
    exact Set.mem_insert_iff.mp installedMember

end Attempt

/-! ## Redelivery -/

theorem redelivered_ne_admitted (crypto : Crypto) (store : Store) (delta : NativeDelta)
    (atSeq : Nat) (dot : Dot) : redelivered crypto store delta atSeq ≠ .admitted dot := by
  unfold redelivered
  dsimp only
  split
  · split <;> simp
  · split <;> simp

theorem redelivered_eq (sound : store.Sound crypto) (decodes : delta.decodable = true)
    (known : delta.seq ≤ positionSeq store.frontier[delta.author]?) :
    ∃ hash, store.log[delta.dot]? = some hash ∧ redelivered crypto store delta delta.seq =
        if hash = delta.deltaHash crypto then .duplicate
        else .equivocation ⟨delta.author, delta.seq, hash, delta.deltaHash crypto⟩ := by
  have positive := (seq_inRange decodes).1
  rcases (sound.logged delta.dot).mpr ⟨positive, known⟩ with ⟨hash, logged⟩
  refine ⟨hash, logged, ?_⟩
  rw [dot] at logged
  simp only [redelivered, logged]

/-! ## What a retry does to the cascade -/

/-- The verdicts after which nothing that waits behind the delta can ever be
released. -/
def Step.dooms : Step → Bool
  | .authorClosed _ | .closureFork _ | .unservableDependency _ => true
  | _ => false

theorem afterRetry_admitted (dot : Dot) (after : Store) :
    afterRetry crypto delta (.admitted dot) after = .ok ⟨[dot], after.waitersOf dot⟩ after := rfl

theorem afterRetry_dooms {step : Step} (dooms : step.dooms = true) (after : Store) :
    afterRetry crypto delta step after =
      .ok ⟨[], []⟩ (after.dropUnservableHolds crypto delta.author delta.seq) := by
  cases step with
  | authorClosed cutoff => rfl
  | closureFork seq => rfl
  | unservableDependency dependency => rfl
  | _ => cases dooms

theorem afterRetry_other {step : Step} (notAdmitted : ∀ dot, step ≠ .admitted dot)
    (spares : step.dooms = false) (after : Store) :
    afterRetry crypto delta step after = .ok ⟨[], []⟩ after := by
  cases step with
  | admitted dot => exact absurd rfl (notAdmitted dot)
  | authorClosed cutoff => cases spares
  | closureFork seq => cases spares
  | unservableDependency dependency => cases spares
  | _ => rfl

theorem redelivered_spares (crypto : Crypto) (store : Store) (delta : NativeDelta) (atSeq : Nat) :
    (redelivered crypto store delta atSeq).dooms = false := by
  unfold redelivered
  dsimp only
  split
  · split <;> rfl
  · split <;> rfl

theorem Attempt.spares {step : Step} {after : Store} (quiet : store.Quiet)
    (attempt : Attempt crypto groupId delta key now store step after) : step.dooms = false := by
  cases attempt with
  | authorClosed closed =>
    rw [quiet.closedVerdict] at closed
    cases closed
  | closureFork forked =>
    rw [quiet.closedVerdict] at forked
    cases forked
  | unservableDependency blocked cut =>
    rw [quiet.beyondCutoff] at cut
    cases cut
  | redelivered known => exact redelivered_spares ..
  | _ => rfl

theorem Attempt.admitted_eq {step : Step} {after : Store}
    (attempt : Attempt crypto groupId delta key now store step after) {dot : Dot}
    (isAdmitted : step = .admitted dot) :
    dot = delta.dot ∧ Admissible crypto groupId delta key store ∧
      ∃ installed, Installs crypto delta store installed ∧
        after = installed.clearHold delta.dot := by
  cases attempt with
  | admitted admissible installs =>
    cases isAdmitted
    exact ⟨rfl, admissible, _, installs, rfl⟩
  | redelivered known => exact absurd isAdmitted (redelivered_ne_admitted crypto store delta delta.seq dot)
  | _ => cases isAdmitted

end Verdicts

end Yadorilink
