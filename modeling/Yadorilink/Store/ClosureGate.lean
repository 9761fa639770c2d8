import Yadorilink.Foundation.Lists
import Yadorilink.Store.Install

/-! How the closure gate changes as closures arrive. What the gate says depends
only on which cutoffs are known, and a refusal survives every further closure
except one that disagrees about the tip at the refused sequence. -/

namespace Yadorilink

open List

/-! ## The strictest cutoff -/

/-- What the fold in `strictest` knows about the cutoffs it has seen. -/
structure StrictestOf (seen : List (Option NativeAuthorFrontierEntry))
    (held : Option NativeAuthorFrontierEntry) (fork : Bool) : Prop where
  member : held ∈ seen
  lowest : ∀ cutoff ∈ seen, joinCutoffs cutoff held ≠ .lower
  forks : fork = true ↔ ∃ cutoff ∈ seen, joinCutoffs cutoff held = .fork

variable {held : Option NativeAuthorFrontierEntry}

theorem joinCutoffs_above {cutoff lower : Option NativeAuthorFrontierEntry}
    (atLeast : joinCutoffs cutoff held ≠ .lower) (below : joinCutoffs lower held = .lower) :
    joinCutoffs cutoff lower = .higher := by
  cases cutoff <;> cases held <;> cases lower <;> simp_all [joinCutoffs]
  grind

theorem joinCutoffs_self (cutoff : Option NativeAuthorFrontierEntry) :
    joinCutoffs cutoff cutoff = .identical := by
  cases cutoff <;> simp [joinCutoffs]

def strictestStep (best : Option (Option NativeAuthorFrontierEntry × Bool))
    (cutoff : Option NativeAuthorFrontierEntry) :
    Option (Option NativeAuthorFrontierEntry × Bool) :=
  match best with
  | none => some (cutoff, false)
  | some (held, fork) =>
    match joinCutoffs cutoff held with
    | .lower => some (cutoff, false)
    | .higher | .identical => some (held, fork)
    | .fork => some (held, true)

variable {seen : List (Option NativeAuthorFrontierEntry)} {fork : Bool}

theorem StrictestOf.lowest_append {cutoff : Option NativeAuthorFrontierEntry}
    (known : StrictestOf seen held fork) (atLeast : joinCutoffs cutoff held ≠ .lower) :
    ∀ other ∈ seen ++ [cutoff], joinCutoffs other held ≠ .lower := by
  exact forall_mem_concat known.lowest atLeast

theorem strictestStep_spec (known : StrictestOf seen held fork)
    (cutoff : Option NativeAuthorFrontierEntry) :
    ∃ next nextFork, strictestStep (some (held, fork)) cutoff = some (next, nextFork) ∧
      StrictestOf (seen ++ [cutoff]) next nextFork := by
  simp only [strictestStep]
  have kept : held ∈ seen ++ [cutoff] := mem_append_left _ known.member
  cases joined : joinCutoffs cutoff held with
  | lower =>
    -- Everything seen so far lies above the new cutoff, so none of it forks there.
    have above : ∀ other ∈ seen ++ [cutoff],
        joinCutoffs other cutoff = .higher ∨ joinCutoffs other cutoff = .identical := by
      intro other member
      rcases mem_append.mp member with old | new
      · exact .inl (joinCutoffs_above (known.lowest other old) joined)
      · rw [mem_singleton.mp new]
        exact .inr (joinCutoffs_self cutoff)
    refine ⟨cutoff, false, rfl, by simp, ?_, ?_⟩
    · intro other member
      rcases above other member with higher | identical
      · simp [higher]
      · simp [identical]
    · simp only [Bool.false_eq_true, false_iff]
      intro forked
      obtain ⟨other, member, forks⟩ := forked
      rcases above other member with higher | identical
      · simp [higher] at forks
      · simp [identical] at forks
  | higher =>
    exact ⟨held, fork, rfl, kept, known.lowest_append (by simp [joined]),
      by simp [known.forks, joined]⟩
  | identical =>
    exact ⟨held, fork, rfl, kept, known.lowest_append (by simp [joined]),
      by simp [known.forks, joined]⟩
  | fork =>
    exact ⟨held, true, rfl, kept, known.lowest_append (by simp [joined]),
      by simp [joined]⟩

theorem strictest_fold (known : StrictestOf seen held fork)
    (cutoffs : List (Option NativeAuthorFrontierEntry)) :
    ∃ last lastFork, cutoffs.foldl strictestStep (some (held, fork)) = some (last, lastFork) ∧
      StrictestOf (seen ++ cutoffs) last lastFork := by
  induction cutoffs generalizing seen held fork with
  | nil => exact ⟨held, fork, rfl, by simpa using known⟩
  | cons cutoff rest induction =>
    obtain ⟨next, nextFork, stepped, spec⟩ := strictestStep_spec known cutoff
    obtain ⟨last, lastFork, folded, lastSpec⟩ := induction spec
    refine ⟨last, lastFork, ?_, by simpa using lastSpec⟩
    rw [foldl_cons, stepped, folded]

theorem strictest_eq_fold (cutoffs : List (Option NativeAuthorFrontierEntry)) :
    strictest cutoffs = (cutoffs.foldl strictestStep none).map fun found => {
      seq := found.1.map NativeAuthorFrontierEntry.seq
      tip := found.1.map NativeAuthorFrontierEntry.tip
      fork := found.2 } := rfl

/-- The strictest cutoff is one of the cutoffs, lowest among them, and forks
exactly when another one disagrees with it. -/
theorem strictest_spec (cutoff : Option NativeAuthorFrontierEntry)
    (rest : List (Option NativeAuthorFrontierEntry)) :
    ∃ held fork, StrictestOf (cutoff :: rest) held fork ∧ strictest (cutoff :: rest) = some {
        seq := held.map NativeAuthorFrontierEntry.seq
        tip := held.map NativeAuthorFrontierEntry.tip
        fork := fork } := by
  have first : StrictestOf [cutoff] cutoff false :=
    ⟨by simp, by simp [joinCutoffs_self], by simp [joinCutoffs_self]⟩
  obtain ⟨held, fork, folded, spec⟩ := strictest_fold first rest
  refine ⟨held, fork, spec, ?_⟩
  rw [strictest_eq_fold, foldl_cons]
  simp only [strictestStep, folded, Option.map_some]

/-! ## The gate -/

/-- What the gate says of one delta, given every cutoff known of its author. -/
def gateVerdict (cutoffs : List (Option NativeAuthorFrontierEntry)) (seq : Nat)
    (hash : DeltaHash) : ClosedVerdict :=
  match strictest cutoffs with
  | none => .open_
  | some cutoff => cutoff.verdict seq hash

theorem Store.closedVerdict_eq_gateVerdict (crypto : Crypto) (store : Store) (delta : NativeDelta) :
    store.closedVerdict crypto delta =
      gateVerdict (store.closureCutoffs delta.author ++ store.closed[delta.author]?.toList)
        delta.seq (delta.deltaHash crypto) := rfl

def CutBelow (cutoffs : List (Option NativeAuthorFrontierEntry)) (seq : Nat) : Prop :=
  ∃ cutoff ∈ cutoffs, beyondClosedCutoff (cutoff.map NativeAuthorFrontierEntry.seq) seq = true

def OneTipAt (cutoffs : List (Option NativeAuthorFrontierEntry)) (seq : Nat) : Prop :=
  ∀ tip other, some ⟨seq, tip⟩ ∈ cutoffs → some ⟨seq, other⟩ ∈ cutoffs → tip = other

section Strictest

variable {cutoffs : List (Option NativeAuthorFrontierEntry)} {seq : Nat} {hash : DeltaHash}
  {entry : NativeAuthorFrontierEntry}

theorem cutBelow_of_strictest_none (spec : StrictestOf cutoffs none fork) (seq : Nat) :
    CutBelow cutoffs seq :=
  ⟨none, spec.member, rfl⟩

theorem StrictestOf.cutBelow_iff (spec : StrictestOf cutoffs (some entry) fork) :
    CutBelow cutoffs seq ↔ entry.seq < seq := by
  constructor
  · intro below
    obtain ⟨cutoff, member, beyond⟩ := below
    have atLeast := spec.lowest cutoff member
    cases cutoff with
    | none => simp [joinCutoffs] at atLeast
    | some other =>
      have notLower : ¬ other.seq < entry.seq := fun lower =>
        atLeast (by simp [joinCutoffs, lower])
      have beyondOther : other.seq < seq := by simpa [beyondClosedCutoff] using beyond
      omega
  · intro below
    exact ⟨some entry, spec.member, by simpa [beyondClosedCutoff] using below⟩

theorem StrictestOf.oneTipAt_iff (spec : StrictestOf cutoffs (some entry) fork) :
    OneTipAt cutoffs entry.seq ↔ fork = false := by
  rw [← Bool.not_eq_true, spec.forks]
  constructor
  · intro agreed forked
    obtain ⟨cutoff, member, forks⟩ := forked
    cases cutoff with
    | none => simp [joinCutoffs] at forks
    | some other =>
      have same : other.seq = entry.seq ∧ other.tip ≠ entry.tip := by
        simp only [joinCutoffs] at forks
        grind
      obtain ⟨otherSeq, otherTip⟩ := other
      obtain ⟨rfl, different⟩ := same
      exact different (agreed otherTip entry.tip member spec.member)
  · intro noFork tip other first second
    have named : ∀ tip, some ⟨entry.seq, tip⟩ ∈ cutoffs → tip = entry.tip := by
      intro tip member
      by_contra different
      exact noFork ⟨_, member, by simp [joinCutoffs, different]⟩
    rw [named tip first, named other second]

/-- Only the strictest sequence can be one that the cutoffs agree to cut at
another delta. -/
theorem StrictestOf.otherTip_iff (spec : StrictestOf cutoffs (some entry) fork)
    (reached : ¬ entry.seq < seq) :
    (OneTipAt cutoffs seq ∧ ∃ tip, some ⟨seq, tip⟩ ∈ cutoffs ∧ tip ≠ hash) ↔
      fork = false ∧ entry.seq = seq ∧ entry.tip ≠ hash := by
  constructor
  · intro cut
    obtain ⟨agreed, tip, member, different⟩ := cut
    have notLower : ¬ seq < entry.seq := fun lower =>
      spec.lowest _ member (by simp [joinCutoffs, lower])
    obtain rfl : entry.seq = seq := by omega
    have named : tip = entry.tip := agreed tip entry.tip member spec.member
    exact ⟨spec.oneTipAt_iff.mp agreed, rfl, by rwa [← named]⟩
  · intro cut
    obtain ⟨noFork, rfl, different⟩ := cut
    exact ⟨spec.oneTipAt_iff.mpr noFork, entry.tip, spec.member, different⟩

/-- The gate refuses what lies above a known cutoff, and at a cutoff sequence
that every cutoff there agrees on, every delta but the one they name. -/
theorem gateVerdict_refuses_iff : gateVerdict cutoffs seq hash ≠ .open_ ↔ CutBelow cutoffs seq ∨
        (OneTipAt cutoffs seq ∧ ∃ tip, some ⟨seq, tip⟩ ∈ cutoffs ∧ tip ≠ hash) := by
  cases cutoffs with
  | nil => simp [gateVerdict, strictest, CutBelow]
  | cons first rest =>
    obtain ⟨held, fork, spec, found⟩ := strictest_spec first rest
    simp only [gateVerdict, found, EffectiveCutoff.verdict]
    cases held with
    | none =>
      simp [beyondClosedCutoff, cutBelow_of_strictest_none spec seq]
    | some entry =>
      rw [spec.cutBelow_iff]
      by_cases below : entry.seq < seq
      · simp [beyondClosedCutoff, below]
      · rw [spec.otherTip_iff below]
        simp [beyondClosedCutoff, below]

/-! ## The order of arrival -/

/-- Two effective cutoffs that no delta can tell apart. -/
structure EffectiveCutoff.Agrees (cutoff other : EffectiveCutoff) : Prop where
  seq : cutoff.seq = other.seq
  fork : cutoff.fork = other.fork
  tip : cutoff.fork = false → cutoff.tip = other.tip

theorem EffectiveCutoff.Agrees.verdict {cutoff other : EffectiveCutoff}
    (agrees : cutoff.Agrees other) (seq : Nat) (hash : DeltaHash) :
    cutoff.verdict seq hash = other.verdict seq hash := by
  cases forked : cutoff.fork with
  | true => simp [EffectiveCutoff.verdict, ← agrees.seq, ← agrees.fork, forked]
  | false => simp [EffectiveCutoff.verdict, ← agrees.seq, ← agrees.fork, agrees.tip forked]

theorem StrictestOf.seq_le (spec : StrictestOf cutoffs held fork) :
    ∀ cutoff ∈ cutoffs, held.map NativeAuthorFrontierEntry.seq ≤
      cutoff.map NativeAuthorFrontierEntry.seq := by
  intro cutoff member
  have atLeast := spec.lowest cutoff member
  cases held with
  | none => simp
  | some entry =>
    cases cutoff with
    | none => simp [joinCutoffs] at atLeast
    | some other =>
      have notLower : ¬ other.seq < entry.seq := fun lower =>
        atLeast (by simp [joinCutoffs, lower])
      simpa using notLower

/-- The fork flag reads the two entries it was set for back off the cutoffs. -/
theorem StrictestOf.fork_iff (spec : StrictestOf cutoffs held fork) :
    fork = true ↔ ∃ entry other, some entry ∈ cutoffs ∧ some other ∈ cutoffs ∧
      some entry.seq = held.map NativeAuthorFrontierEntry.seq ∧ other.seq = entry.seq ∧
      other.tip ≠ entry.tip := by
  cases held with
  | none =>
    rw [spec.forks]
    constructor
    · intro forked
      obtain ⟨cutoff, -, forks⟩ := forked
      cases cutoff <;> simp [joinCutoffs] at forks
    · simp
  | some lowest =>
    rw [← Bool.not_eq_false, ← spec.oneTipAt_iff, OneTipAt]
    constructor
    · intro differ
      push Not at differ
      obtain ⟨tip, other, first, second, different⟩ := differ
      exact ⟨_, _, first, second, by simp, rfl, different.symm⟩
    · intro differ agreed
      obtain ⟨⟨seq, tip⟩, ⟨otherSeq, other⟩, first, second, sameSeq, otherSame, different⟩ :=
        differ
      obtain rfl : seq = lowest.seq := by simpa using sameSeq
      obtain rfl : otherSeq = lowest.seq := otherSame
      exact different (agreed other tip second first)

theorem StrictestOf.unique {other : Option NativeAuthorFrontierEntry} {otherFork : Bool}
    (spec : StrictestOf cutoffs held fork) (again : StrictestOf cutoffs other otherFork) :
    EffectiveCutoff.Agrees
      ⟨held.map NativeAuthorFrontierEntry.seq, held.map NativeAuthorFrontierEntry.tip, fork⟩
      ⟨other.map NativeAuthorFrontierEntry.seq, other.map NativeAuthorFrontierEntry.tip,
        otherFork⟩ := by
  have below := spec.seq_le other again.member
  have above := again.seq_le held spec.member
  have sameSeq : held.map NativeAuthorFrontierEntry.seq =
      other.map NativeAuthorFrontierEntry.seq := by
    cases held <;> cases other <;> simp at below above ⊢
    omega
  refine ⟨sameSeq, ?_, ?_⟩
  · rw [Bool.eq_iff_iff, spec.fork_iff, again.fork_iff, sameSeq]
  · intro noFork
    by_contra different
    cases held <;> cases other <;> simp at sameSeq different
    have forked := spec.fork_iff.mpr
      ⟨_, _, spec.member, again.member, rfl, sameSeq.symm, fun same => different same.symm⟩
    exact absurd forked (by simpa using noFork)

/-- Whatever the order and however often each cutoff arrives, the strictest one
is the same as far as the gate can see: the least sequence, and a fork exactly
when two cutoffs name different tips there. -/
theorem strictest_independent_of_arrival (cutoffs arrived : List (Option NativeAuthorFrontierEntry))
    (same : ∀ cutoff, cutoff ∈ arrived ↔ cutoff ∈ cutoffs) :
    Option.Rel EffectiveCutoff.Agrees (strictest arrived) (strictest cutoffs) ∧
      (∀ seq hash, gateVerdict arrived seq hash = gateVerdict cutoffs seq hash) ∧
      (strictest cutoffs = none ↔ cutoffs = []) ∧
      ∀ found, strictest cutoffs = some found →
        (∃ cutoff ∈ cutoffs, found.seq = cutoff.map NativeAuthorFrontierEntry.seq) ∧
        (∀ cutoff ∈ cutoffs, found.seq ≤ cutoff.map NativeAuthorFrontierEntry.seq) ∧
        (found.fork = true ↔ ∃ entry other, some entry ∈ cutoffs ∧ some other ∈ cutoffs ∧
          some entry.seq = found.seq ∧ other.seq = entry.seq ∧ other.tip ≠ entry.tip) := by
  cases cutoffs with
  | nil =>
    obtain rfl : arrived = [] := List.eq_nil_iff_forall_not_mem.mpr (by simpa using same)
    exact ⟨.none, by simp, by simp [strictest], by simp [strictest]⟩
  | cons first rest =>
    obtain ⟨held, fork, spec, found⟩ := strictest_spec first rest
    cases arrived with
    | nil => simpa using same first
    | cons early later =>
      obtain ⟨other, otherFork, otherSpec, otherFound⟩ := strictest_spec early later
      have carried : StrictestOf (first :: rest) other otherFork :=
        ⟨(same _).mp otherSpec.member, by simpa only [same] using otherSpec.lowest,
          by simpa only [same] using otherSpec.forks⟩
      have agrees := carried.unique spec
      refine ⟨?_, ?_, by simp [found], ?_⟩
      · rw [found, otherFound]
        exact .some agrees
      · intro seq hash
        simp only [gateVerdict, found, otherFound]
        exact agrees.verdict seq hash
      · rw [found]
        intro effective isFound
        obtain rfl := Option.some.inj isFound
        exact ⟨⟨held, spec.member, rfl⟩, spec.seq_le, spec.fork_iff⟩

/-- Two closures that disagree at their least sequence, in either order. -/
theorem strictest_independent_of_arrival_fork :
    gateVerdict [some ⟨1, ⟨2⟩⟩, some ⟨3, ⟨3⟩⟩, some ⟨1, ⟨1⟩⟩, some ⟨1, ⟨2⟩⟩] 1 ⟨3⟩ =
      gateVerdict [some ⟨1, ⟨1⟩⟩, some ⟨1, ⟨2⟩⟩, some ⟨3, ⟨3⟩⟩] 1 ⟨3⟩ :=
  (strictest_independent_of_arrival [some ⟨1, ⟨1⟩⟩, some ⟨1, ⟨2⟩⟩, some ⟨3, ⟨3⟩⟩]
    [some ⟨1, ⟨2⟩⟩, some ⟨3, ⟨3⟩⟩, some ⟨1, ⟨1⟩⟩, some ⟨1, ⟨2⟩⟩] (by grind)).2.1 1 ⟨3⟩

end Strictest

/-! ## Later closures -/

/-- A delta some cutoffs refuse is refused by every larger set of cutoffs as
well, unless two of those cut at its sequence with different tips and none cuts
below it. -/
theorem closure_refusal_stays_iff (crypto : Crypto) (delta : NativeDelta)
    (cutoffs later : List (Option NativeAuthorFrontierEntry)) (grown : cutoffs ⊆ later)
    (refused : gateVerdict cutoffs delta.seq (delta.deltaHash crypto) ≠ .open_) :
    gateVerdict later delta.seq (delta.deltaHash crypto) ≠ .open_ ↔
      CutBelow later delta.seq ∨ OneTipAt later delta.seq := by
  rw [gateVerdict_refuses_iff] at refused ⊢
  constructor
  · intro stays
    rcases stays with below | cut
    · exact .inl below
    · exact .inr cut.1
  · intro condition
    rcases refused with below | cut
    · obtain ⟨cutoff, member, beyond⟩ := below
      exact .inl ⟨cutoff, grown member, beyond⟩
    · rcases condition with below | agreed
      · exact .inl below
      · obtain ⟨tip, member, different⟩ := cut.2
        exact .inr ⟨agreed, tip, grown member, different⟩

set_option maxRecDepth 8192 in
/-- Two closures that agree with each other keep refusing a third delta at their
sequence. -/
theorem closure_refusal_stays_agreed :
    gateVerdict [some ⟨1, ⟨1⟩⟩, some ⟨1, ⟨1⟩⟩, some ⟨2, ⟨2⟩⟩] sampleFirst.seq
      (sampleFirst.deltaHash Crypto.sample) ≠ .open_ :=
  (closure_refusal_stays_iff Crypto.sample sampleFirst [some ⟨1, ⟨1⟩⟩]
    [some ⟨1, ⟨1⟩⟩, some ⟨1, ⟨1⟩⟩, some ⟨2, ⟨2⟩⟩] (by simp) (by decide)).mpr
      (.inr (by
        have position : sampleFirst.seq = 1 := rfl
        intro tip other first second
        rw [position] at first second
        simp at first second
        rw [first, second]))

set_option maxRecDepth 8192 in
/-- A second closure that names yet another tip opens the gate again. -/
theorem closure_refusal_lifted :
    ¬∀ (delta : NativeDelta) (cutoffs later : List (Option NativeAuthorFrontierEntry)),
      cutoffs ⊆ later →
      gateVerdict cutoffs delta.seq (delta.deltaHash Crypto.sample) ≠ .open_ →
      gateVerdict later delta.seq (delta.deltaHash Crypto.sample) ≠ .open_ := by
  intro final
  have refused := final sampleFirst [some ⟨1, ⟨1⟩⟩] [some ⟨1, ⟨1⟩⟩, some ⟨1, ⟨2⟩⟩] (by simp)
    (by decide)
  revert refused
  decide

end Yadorilink
