import Yadorilink.Foundation.Machine

/-! The token bucket that transfers draw their bytes from. Calls of `acquire` share one balance;
each refills it, clamps it to a capacity of its own, and takes its bytes or waits and tries again.
Times and balances are elements of an ordered field, so nothing is rounded. -/

namespace Yadorilink.Bandwidth

open List

variable {K : Type} [LinearOrder K]

structure BucketState (K : Type) where
  available : K
  lastRefill : K

/-- A bucket with the grants it has made: when, to which call, and how many bytes. -/
structure Limiter (K : Type) where
  bucket : BucketState K
  grants : List (K × Nat × Nat)

/-- One iteration of the loop of a call. -/
structure Iteration (K : Type) where
  call : Nat
  now : K

namespace Limiter

/-! ## What was granted -/

/-- The bytes of the grants made at times of an interval, the earlier end left out. -/
def grantedIn (grants : List (K × Nat × Nat)) (start finish : K) : Nat :=
  ((grants.filter fun grant => decide (start < grant.1 ∧ grant.1 ≤ finish)).map (·.2.2)).sum

def grantedBy (grants : List (K × Nat × Nat)) (finish : K) : Nat :=
  ((grants.filter fun grant => decide (grant.1 ≤ finish)).map (·.2.2)).sum

def granted (grants : List (K × Nat × Nat)) : Nat :=
  (grants.map (·.2.2)).sum

theorem grantedIn_append (grants : List (K × Nat × Nat)) (start finish now : K) (call bytes : Nat) :
    grantedIn (grants ++ [(now, call, bytes)]) start finish =
      grantedIn grants start finish + if start < now ∧ now ≤ finish then bytes else 0 := by
  rw [grantedIn, grantedIn, filter_append, map_append, sum_append]
  by_cases inside : start < now ∧ now ≤ finish
  · simp [inside]
  · simp [inside]

theorem grantedBy_append (grants : List (K × Nat × Nat)) (finish now : K) (call bytes : Nat) :
    grantedBy (grants ++ [(now, call, bytes)]) finish =
      grantedBy grants finish + if now ≤ finish then bytes else 0 := by
  rw [grantedBy, grantedBy, filter_append, map_append, sum_append]
  by_cases inside : now ≤ finish
  · simp [inside]
  · simp [inside]

omit [LinearOrder K] in
theorem granted_append (grants : List (K × Nat × Nat)) (now : K) (call bytes : Nat) :
    granted (grants ++ [(now, call, bytes)]) = granted grants + bytes := by
  rw [granted, granted, map_append, sum_append]
  rfl

/-! ## The loop of a call -/

variable [Field K] (rate : K) (calls : List Nat)

def new : Limiter K :=
  ⟨⟨rate, 0⟩, []⟩

def isGranted (limiter : Limiter K) (call : Nat) : Bool :=
  limiter.grants.any fun grant => grant.2.1 == call

/-- The tokens there would be at a time, if no call had a capacity. -/
def balanceAt (limiter : Limiter K) (now : K) : K :=
  limiter.bucket.available + (now - limiter.bucket.lastRefill) * rate

/-- One second of the rate, or one oversized request. -/
def capacity (bytes : Nat) : K :=
  max rate bytes

/-- The balance once an iteration for `bytes` has refilled and clamped it. -/
def refilled (limiter : Limiter K) (now : K) (bytes : Nat) : K :=
  min (limiter.balanceAt rate now) (capacity rate bytes)

/-- An iteration of a call that is not granted yet, at a time that does not go back. A call for
no bytes returns before the loop. -/
def step (limiter : Limiter K) (iteration : Iteration K) : Option (Limiter K) :=
  match calls[iteration.call]? with
  | none => none
  | some bytes =>
    if bytes = 0 ∨ limiter.isGranted iteration.call ∨
        iteration.now < limiter.bucket.lastRefill then
      none
    else
      let available := limiter.refilled rate iteration.now bytes
      if (bytes : K) ≤ available then
        some ⟨⟨available - bytes, iteration.now⟩,
          limiter.grants ++ [(iteration.now, iteration.call, bytes)]⟩
      else
        some ⟨⟨available, iteration.now⟩, limiter.grants⟩

/-! ## One iteration -/

variable {rate calls} {limiter : Limiter K} {iteration : Iteration K}

/-- What an iteration does: time goes on, and the refilled balance is kept or pays for a grant. -/
theorem step_cases {next : Limiter K} (stepped : limiter.step rate calls iteration = some next) :
    ∃ bytes, calls[iteration.call]? = some bytes ∧ bytes ≠ 0 ∧
      limiter.isGranted iteration.call = false ∧
      limiter.bucket.lastRefill ≤ iteration.now ∧
      next.bucket.lastRefill = iteration.now ∧
      ((bytes : K) ≤ limiter.refilled rate iteration.now bytes ∧
          next.bucket.available = limiter.refilled rate iteration.now bytes - bytes ∧
          next.grants = limiter.grants ++ [(iteration.now, iteration.call, bytes)] ∨
        limiter.refilled rate iteration.now bytes < bytes ∧
          next.bucket.available = limiter.refilled rate iteration.now bytes ∧
          next.grants = limiter.grants) := by
  rw [step] at stepped
  split at stepped
  · cases stepped
  · rename_i bytes found
    split at stepped
    · cases stepped
    · rename_i allowed
      rw [not_or, not_or, Bool.not_eq_true, not_lt] at allowed
      refine ⟨bytes, found, allowed.1, allowed.2.1, allowed.2.2, ?_⟩
      dsimp only at stepped
      split at stepped
      · rename_i enough
        cases stepped
        exact ⟨rfl, .inl ⟨enough, rfl, rfl⟩⟩
      · rename_i short
        cases stepped
        exact ⟨rfl, .inr ⟨lt_of_not_ge short, rfl, rfl⟩⟩

/-! ## Windows -/

theorem refilled_le (rate : K) (limiter : Limiter K) (now : K) (bytes : Nat) :
    limiter.refilled rate now bytes ≤
      limiter.bucket.available + rate * (now - limiter.bucket.lastRefill) := by
  rw [mul_comm]
  exact min_le_left _ _

variable [IsStrictOrderedRing K]

theorem refilled_nonneg {now : K} {bytes : Nat} (positive : 0 < rate)
    (balance : 0 ≤ limiter.bucket.available) (later : limiter.bucket.lastRefill ≤ now) :
    0 ≤ limiter.refilled rate now bytes := by
  apply le_min
  · exact add_nonneg balance (mul_nonneg (sub_nonneg.mpr later) positive.le)
  · exact positive.le.trans (le_max_left _ _)

theorem step_account {next : Limiter K} (positive : 0 < rate)
    (balance : 0 ≤ limiter.bucket.available)
    (stepped : limiter.step rate calls iteration = some next) :
    ∃ bytes spent : Nat, calls[iteration.call]? = some bytes ∧
      limiter.bucket.lastRefill ≤ iteration.now ∧ next.bucket.lastRefill = iteration.now ∧
      (spent : K) ≤ limiter.refilled rate iteration.now bytes ∧
      next.bucket.available = limiter.refilled rate iteration.now bytes - spent ∧
      granted next.grants = granted limiter.grants + spent ∧
      (∀ finish, grantedBy next.grants finish =
        grantedBy limiter.grants finish + if iteration.now ≤ finish then spent else 0) ∧
      ∀ start finish, grantedIn next.grants start finish = grantedIn limiter.grants start finish +
        if start < iteration.now ∧ iteration.now ≤ finish then spent else 0 := by
  rcases step_cases stepped with ⟨bytes, found, _, _, later, clock, paid | waits⟩
  · rcases paid with ⟨fits, available, grants⟩
    refine ⟨bytes, bytes, found, later, clock, fits, available, ?_, ?_, ?_⟩
    · rw [grants, granted_append]
    · intro finish
      rw [grants, grantedBy_append]
    · intro start finish
      rw [grants, grantedIn_append]
  · rcases waits with ⟨short, available, grants⟩
    refine ⟨bytes, 0, found, later, clock, ?_, ?_, ?_, ?_, ?_⟩
    · rw [Nat.cast_zero]
      exact refilled_nonneg positive balance later
    · rw [available, Nat.cast_zero, sub_zero]
    · rw [grants, Nat.add_zero]
    · intro finish
      rw [grants, ite_self, Nat.add_zero]
    · intro start finish
      rw [grants, ite_self, Nat.add_zero]

/-- Where the grants of a window stand once the clock has reached `lastRefill`: none before the
window, within the bound less the balance inside it, and within the bound after it. -/
structure Within (rate burst start finish : K) (limiter : Limiter K) : Prop where
  balance : 0 ≤ limiter.bucket.available
  before : limiter.bucket.lastRefill ≤ start → grantedIn limiter.grants start finish = 0
  inside : start < limiter.bucket.lastRefill → limiter.bucket.lastRefill ≤ finish →
    grantedIn limiter.grants start finish + limiter.bucket.available ≤
      burst + rate * (limiter.bucket.lastRefill - start)
  after : finish < limiter.bucket.lastRefill →
    (grantedIn limiter.grants start finish : K) ≤ burst + rate * (finish - start)

/-- Where all grants by a time stand. -/
structure Paid (rate finish : K) (limiter : Limiter K) : Prop where
  balance : 0 ≤ limiter.bucket.available
  inside : limiter.bucket.lastRefill ≤ finish →
    grantedBy limiter.grants finish + limiter.bucket.available ≤
      rate + rate * limiter.bucket.lastRefill
  after : finish < limiter.bucket.lastRefill →
    (grantedBy limiter.grants finish : K) ≤ rate + rate * finish

theorem Paid.step {finish : K} {next : Limiter K} (positive : 0 < rate)
    (paid : Paid rate finish limiter) (stepped : limiter.step rate calls iteration = some next) :
    Paid rate finish next := by
  rcases step_account positive paid.balance stepped with
    ⟨bytes, spent, _, later, clock, fits, available, _, grantsBy, _⟩
  have refill := refilled_le rate limiter iteration.now bytes
  have balance := paid.balance
  constructor
  · rw [available]
    exact sub_nonneg.mpr fits
  · intro inside
    rw [clock] at inside ⊢
    rw [grantsBy, if_pos inside, available]
    have earlier := paid.inside (later.trans inside)
    push_cast
    linarith
  · intro past
    rw [clock] at past
    rw [grantsBy, if_neg (not_le.mpr past), Nat.add_zero]
    rcases le_or_gt limiter.bucket.lastRefill finish with within | gone
    · have earlier := paid.inside within
      have grown := mul_le_mul_of_nonneg_left within positive.le
      linarith
    · exact paid.after gone

theorem Within.step {burst start finish : K} {next : Limiter K} (positive : 0 < rate)
    (window : start ≤ finish)
    (capped : ∀ bytes, calls[iteration.call]? = some bytes → capacity rate bytes ≤ burst)
    (within : Within rate burst start finish limiter)
    (stepped : limiter.step rate calls iteration = some next) :
    Within rate burst start finish next := by
  rcases step_account positive within.balance stepped with
    ⟨bytes, spent, found, later, clock, fits, available, _, _, grantsIn⟩
  have refill := refilled_le rate limiter iteration.now bytes
  have clamp : limiter.refilled rate iteration.now bytes ≤ burst :=
    (min_le_right _ _).trans (capped bytes found)
  have balance := within.balance
  constructor
  · rw [available]
    exact sub_nonneg.mpr fits
  · intro early
    rw [clock] at early
    rw [grantsIn, if_neg fun inside => absurd inside.1 (not_lt.mpr early), Nat.add_zero]
    exact within.before (later.trans early)
  · intro begun inside
    rw [clock] at begun inside ⊢
    rw [grantsIn, if_pos ⟨begun, inside⟩, available]
    push_cast
    rcases le_or_gt limiter.bucket.lastRefill start with early | running
    · -- The first iteration of the window: whatever the idle time, the balance is clamped.
      rw [within.before early]
      have grown := mul_nonneg positive.le (sub_nonneg.mpr begun.le)
      push_cast
      linarith
    · have earlier := within.inside running (later.trans inside)
      linarith
  · intro past
    rw [clock] at past
    rw [grantsIn, if_neg fun inside => absurd inside.2 (not_le.mpr past), Nat.add_zero]
    have widened := mul_nonneg positive.le (sub_nonneg.mpr window)
    have ample : 0 ≤ burst := positive.le.trans ((le_max_left _ _).trans (capped bytes found))
    rcases le_or_gt limiter.bucket.lastRefill start with early | running
    · rw [within.before early]
      push_cast
      linarith
    · rcases le_or_gt limiter.bucket.lastRefill finish with inside | gone
      · have earlier := within.inside running inside
        have grown := mul_le_mul_of_nonneg_left inside positive.le
        linarith
      · exact within.after gone

/-- In any interval no more is granted than a burst and the rate over its length, in all no more
than one second of the rate and the rate since the bucket was made; the balance never goes
negative. -/
theorem grants_within_rate (rate : K) (positive : 0 < rate) (calls : List Nat) (most : Nat)
    (sizes : ∀ bytes ∈ calls, bytes ≤ most) (iterations : List (Iteration K))
    (limiter : Limiter K)
    (ran : Machine.run (step rate calls) (new rate) iterations = some limiter) :
    (∀ start finish, start ≤ finish →
      (grantedIn limiter.grants start finish : K) ≤ max rate most + rate * (finish - start)) ∧
    (∀ finish, 0 ≤ finish → (grantedBy limiter.grants finish : K) ≤ rate + rate * finish) ∧
    0 ≤ limiter.bucket.available := by
  have capped (iteration : Iteration K) (bytes : Nat)
      (found : calls[iteration.call]? = some bytes) : capacity rate bytes ≤ max rate most :=
    max_le_max le_rfl (Nat.cast_le.mpr (sizes bytes (List.mem_of_getElem? found)))
  have paid (finish : K) (nonneg : 0 ≤ finish) : Paid rate finish limiter := by
    refine Machine.invariant_run_always (fun _ _ _ paid stepped => Paid.step positive paid stepped)
      ⟨positive.le, ?_, ?_⟩ ran
    · intro _
      simp [grantedBy, new]
    · intro past
      exact absurd past (not_lt.mpr nonneg)
  refine ⟨?_, ?_, (paid 0 le_rfl).balance⟩
  · intro start finish window
    have bounded : Within rate (max rate most) start finish limiter := by
      refine Machine.invariant_run_always (fun _ iteration _ within stepped =>
        Within.step positive window (capped iteration) within stepped) ⟨positive.le, ?_, ?_, ?_⟩ ran
      · intro _
        rfl
      · intro begun _
        have grown := mul_nonneg positive.le (sub_nonneg.mpr begun.le)
        have burst : rate ≤ max rate (most : K) := le_max_left _ _
        simp only [grantedIn, new, List.filter_nil, List.map_nil, List.sum_nil, Nat.cast_zero] at *
        linarith
      · intro _
        have grown := mul_nonneg positive.le (sub_nonneg.mpr window)
        have burst : rate ≤ max rate (most : K) := le_max_left _ _
        simp only [grantedIn, new, List.filter_nil, List.map_nil, List.sum_nil, Nat.cast_zero] at *
        linarith
    have widened := mul_nonneg positive.le (sub_nonneg.mpr window)
    have burst : rate ≤ max rate (most : K) := le_max_left _ _
    rcases le_or_gt limiter.bucket.lastRefill start with early | running
    · rw [bounded.before early, Nat.cast_zero]
      linarith
    · rcases le_or_gt limiter.bucket.lastRefill finish with inside | gone
      · have within := bounded.inside running inside
        have balance := bounded.balance
        have grown := mul_le_mul_of_nonneg_left inside positive.le
        linarith
      · exact bounded.after gone
  · intro finish nonneg
    have all := paid finish nonneg
    rcases le_or_gt limiter.bucket.lastRefill finish with inside | gone
    · have within := all.inside inside
      have balance := all.balance
      have grown := mul_le_mul_of_nonneg_left inside positive.le
      linarith
    · exact all.after gone

/-- Four seconds of three transfers under a rate of ten, one of them larger than a second. -/
def threeTransfers : List (Iteration ℚ) :=
  [⟨0, 0⟩, ⟨1, 0⟩, ⟨2, 1⟩, ⟨1, 2⟩, ⟨1, 4⟩]

theorem threeTransfers_within_rate :
    ∃ limiter, Machine.run (step 10 [10, 30, 4]) (new (10 : ℚ)) threeTransfers = some limiter ∧
      limiter.grants.map (·.2) = [(0, 10), (2, 4), (1, 30)] ∧
      (grantedIn limiter.grants (1 / 2) 4 : ℚ) ≤ max 10 (30 : Nat) + 10 * (4 - 1 / 2) := by
  have told : (Machine.run (step 10 [10, 30, 4]) (new (10 : ℚ)) threeTransfers).map
      (fun limiter => limiter.grants.map (·.2)) = some [(0, 10), (2, 4), (1, 30)] := by
    with_unfolding_all decide
  rcases Option.map_eq_some_iff.mp told with ⟨limiter, ran, grants⟩
  refine ⟨limiter, ran, grants, ?_⟩
  exact (grants_within_rate 10 (by norm_num) [10, 30, 4] 30 (by decide) threeTransfers limiter
    ran).1 (1 / 2) 4 (by norm_num)

/-! ## Waiting for tokens -/

section Waiting

variable (rate : K) (calls : List Nat) (waiting : Nat)

/-- An iteration of another call discards no token: the refilled balance fits its capacity. -/
def Unclamped (limiter : Limiter K) (iteration : Iteration K) : Prop :=
  iteration.call = waiting ∨ (calls[iteration.call]?).all (fun bytes =>
    decide (limiter.balanceAt rate iteration.now ≤ capacity rate bytes)) = true

instance (limiter : Limiter K) (iteration : Iteration K) :
    Decidable (limiter.Unclamped rate calls waiting iteration) :=
  inferInstanceAs (Decidable (_ ∨ _))

end Waiting

variable {waiting : Nat}

omit [IsStrictOrderedRing K] in
theorem balanceAt_step {next : Limiter K} {bytes : Nat} (asks : calls[waiting]? = some bytes)
    (unclamped : limiter.Unclamped rate calls waiting iteration)
    (stepped : limiter.step rate calls iteration = some next) :
    next.isGranted waiting = true ∨ ∀ time, next.balanceAt rate time + granted next.grants =
        limiter.balanceAt rate time + granted limiter.grants := by
  rcases step_cases stepped with ⟨own, found, _, _, _, clock, outcome⟩
  have whole (all : limiter.refilled rate iteration.now own = limiter.balanceAt rate iteration.now)
      (time : K) : next.balanceAt rate time + granted next.grants =
        limiter.balanceAt rate time + granted limiter.grants := by
    rcases outcome with ⟨_, available, grants⟩ | ⟨_, available, grants⟩
    · rw [balanceAt, available, clock, all, grants, granted_append, balanceAt, balanceAt]
      push_cast
      ring
    · rw [balanceAt, available, clock, all, grants, balanceAt, balanceAt]
      ring
  rcases unclamped with same | fits
  · rw [same, asks] at found
    cases found
    rcases outcome with ⟨_, _, grants⟩ | ⟨short, _, _⟩
    · left
      rw [isGranted, grants, any_append, Bool.or_eq_true]
      right
      rw [any_cons, same, beq_self_eq_true, Bool.true_or]
    · -- A balance clamped to this capacity would have been enough.
      refine .inr (whole ?_)
      apply min_eq_left
      by_contra clamped
      rw [refilled, min_eq_right (not_le.mp clamped).le] at short
      exact absurd short (not_lt.mpr (le_max_right _ _))
  · rw [found, Option.all_some, decide_eq_true_iff] at fits
    exact .inr (whole (min_eq_left fits))

omit [IsStrictOrderedRing K] in
theorem isGranted_step {next : Limiter K} (earlier : limiter.isGranted waiting = true)
    (stepped : limiter.step rate calls iteration = some next) : next.isGranted waiting = true := by
  rcases step_cases stepped with ⟨_, _, _, _, _, _, ⟨_, _, grants⟩ | ⟨_, _, grants⟩⟩
  · rw [isGranted, grants, any_append, Bool.or_eq_true]
    exact .inl earlier
  · rw [isGranted, grants]
    exact earlier

omit [IsStrictOrderedRing K] in
theorem balanceAt_run {start : Limiter K} {bytes : Nat} {iterations : List (Iteration K)}
    (asks : calls[waiting]? = some bytes)
    (along : Machine.Along (step rate calls) (Unclamped rate calls waiting) start iterations)
    (ran : Machine.run (step rate calls) start iterations = some limiter) :
    limiter.isGranted waiting = true ∨ ∀ time,
      limiter.balanceAt rate time + granted limiter.grants =
        start.balanceAt rate time + granted start.grants := by
  induction iterations generalizing start with
  | nil =>
    cases ran
    exact .inr fun _ => rfl
  | cons iteration iterations induction =>
    rcases Machine.run_cons ran with ⟨next, stepped, later⟩
    rcases balanceAt_step asks along.1 stepped with done | same
    · left
      exact Machine.invariant_run_always
        (fun _ _ _ earlier stepped => isGranted_step earlier stepped) done later
    · rcases induction (along.2 next stepped) later with done | rest
      · exact .inl done
      · exact .inr fun time => (rest time).trans (same time)

/-- While no other call's capacity discards a token: once the time has passed that the missing
tokens and the bytes granted meanwhile take at the rate, the next iteration of a waiting call is
granted. -/
theorem waiting_call_served (rate : K) (positive : 0 < rate) (calls : List Nat)
    (waiting bytes : Nat) (asks : calls[waiting]? = some bytes) (start limiter next : Limiter K)
    (since lacking now : K) (lacks : (bytes : K) ≤ start.balanceAt rate since + lacking)
    (iterations : List (Iteration K))
    (along : Machine.Along (step rate calls) (Unclamped rate calls waiting) start iterations)
    (ran : Machine.run (step rate calls) start iterations = some limiter)
    (due : since + (lacking + (granted limiter.grants - granted start.grants)) / rate ≤ now)
    (stepped : limiter.step rate calls ⟨waiting, now⟩ = some next) :
    next.isGranted waiting = true := by
  rcases step_cases stepped with ⟨own, found, _, waits, _, _, outcome⟩
  rw [asks] at found
  cases found
  rcases outcome with ⟨_, _, grants⟩ | ⟨short, _, _⟩
  · rw [isGranted, grants, List.any_append, Bool.or_eq_true]
    right
    rw [List.any_cons, beq_self_eq_true, Bool.true_or]
  · -- Otherwise the refilled balance would be below the bytes, but it is not.
    exfalso
    rcases balanceAt_run asks along ran with done | balanced
    · rw [done] at waits
      cases waits
    · have waited : lacking + (granted limiter.grants - granted start.grants) ≤
          (now - since) * rate := by
        rw [← div_le_iff₀ positive]
        linarith
      have balance : limiter.balanceAt rate now = start.balanceAt rate since +
          (now - since) * rate - (granted limiter.grants - granted start.grants) := by
        have here := balanced now
        rw [balanceAt, balanceAt] at here ⊢
        linarith
      have enough : (bytes : K) ≤ limiter.refilled rate now bytes := by
        apply le_min
        · rw [balance]
          linarith
        · exact le_max_right _ _
      exact absurd short (not_lt.mpr enough)

/-- An oversized call waits alone, then beside a small one that takes its bytes early. -/
def patient : List (Iteration ℚ) :=
  [⟨0, 0⟩, ⟨1, 0⟩, ⟨0, 4⟩]

theorem patient_call_served :
    ∃ limiter next, Machine.run (step 10 [100, 1]) (new (10 : ℚ)) patient = some limiter ∧
      limiter.step 10 [100, 1] ⟨0, 91 / 10⟩ = some next ∧ next.isGranted 0 = true := by
  have told : (Machine.run (step 10 [100, 1]) (new (10 : ℚ)) patient).map (fun limiter =>
      (granted limiter.grants, (limiter.step 10 [100, 1] ⟨0, 91 / 10⟩).isSome)) =
      some (1, true) := by
    with_unfolding_all decide
  rcases Option.map_eq_some_iff.mp told with ⟨limiter, ran, facts⟩
  rcases Prod.mk.inj facts with ⟨spent, steps⟩
  rcases Option.isSome_iff_exists.mp steps with ⟨next, stepped⟩
  refine ⟨limiter, next, ran, stepped, ?_⟩
  apply waiting_call_served 10 (by norm_num) [100, 1] 0 100 rfl (new 10) limiter next 0 90
    (91 / 10) _ patient _ ran _ stepped
  · norm_num [new, balanceAt]
  · with_unfolding_all decide
  · rw [spent]
    norm_num [new, granted]

/-- The oversized call lacks 90 bytes at time 0, and the small one takes one byte at 8.5 seconds;
its own capacity discards what had gathered, and at 9.1 seconds the oversized call still waits. -/
theorem small_call_discards_tokens :
    ∃ limiter next, Machine.run (step 10 [100, 1]) (new (10 : ℚ)) [⟨0, 0⟩, ⟨0, 8⟩, ⟨1, 17 / 2⟩] =
        some limiter ∧
      (100 : ℚ) ≤ (new (10 : ℚ)).balanceAt 10 0 + 90 ∧ granted limiter.grants = 1 ∧
      (0 : ℚ) + (90 + granted limiter.grants) / 10 ≤ 91 / 10 ∧
      limiter.step 10 [100, 1] ⟨0, 91 / 10⟩ = some next ∧ next.isGranted 0 = false := by
  have told : (Machine.run (step 10 [100, 1]) (new (10 : ℚ))
      [⟨0, 0⟩, ⟨0, 8⟩, ⟨1, 17 / 2⟩]).map (fun limiter => (granted limiter.grants,
        (limiter.step 10 [100, 1] ⟨0, 91 / 10⟩).map (·.isGranted 0))) = some (1, some false) := by
    with_unfolding_all decide
  rcases Option.map_eq_some_iff.mp told with ⟨limiter, ran, facts⟩
  rcases Prod.mk.inj facts with ⟨spent, steps⟩
  rcases Option.map_eq_some_iff.mp steps with ⟨next, stepped, waits⟩
  refine ⟨limiter, next, ran, ?_, spent, ?_, stepped, waits⟩
  · norm_num [new, balanceAt]
  · rw [spent]
    norm_num

end Limiter

end Yadorilink.Bandwidth
