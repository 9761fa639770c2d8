import Yadorilink.Serve.DispatchRuns

/-! How far the bytes granted to two keys that both wait can drift apart. The choice goes by what a
key was granted over the whole past, so the difference of the two counters at the start of an
interval has to be made up within it. -/

namespace Yadorilink.FairDispatch

open KeyedQueues Machine List

/-! ## Counters -/

section Counters

variable {bytesGranted : List (ServeKey × Nat)} {key other : ServeKey} {bytes : Nat}

def hasEntry (bytesGranted : List (ServeKey × Nat)) (key : ServeKey) : Bool :=
  bytesGranted.any fun entry => entry.1 = key

theorem grantedTo_cons (entry : ServeKey × Nat) (rest : List (ServeKey × Nat)) :
    grantedTo (entry :: rest) key = if entry.1 = key then entry.2 else grantedTo rest key := by
  rw [grantedTo, find?_cons]
  by_cases same : entry.1 = key
  · simp [same]
  · simp [same, grantedTo]

theorem hasEntry_cons (entry : ServeKey × Nat) (rest : List (ServeKey × Nat)) :
    hasEntry (entry :: rest) key = (decide (entry.1 = key) || hasEntry rest key) :=
  any_cons

theorem grantedTo_map (change : ServeKey × Nat → ServeKey × Nat)
    (keys : ∀ entry, (change entry).1 = entry.1) (present : hasEntry bytesGranted key = true) :
    grantedTo (bytesGranted.map change) key = (change (key, grantedTo bytesGranted key)).2 := by
  induction bytesGranted with
  | nil => cases present
  | cons entry rest induction =>
    rw [map_cons, grantedTo_cons, grantedTo_cons, keys]
    by_cases same : entry.1 = key
    · rw [if_pos same, if_pos same, ← same]
    · rw [if_neg same, if_neg same]
      rw [hasEntry_cons, decide_eq_false same, Bool.false_or] at present
      exact induction present

theorem hasEntry_map (change : ServeKey × Nat → ServeKey × Nat)
    (keys : ∀ entry, (change entry).1 = entry.1) :
    hasEntry (bytesGranted.map change) key = hasEntry bytesGranted key := by
  rw [hasEntry, hasEntry, any_map]
  congr 1
  funext entry
  rw [Function.comp, keys]

theorem grantedTo_charge (present : hasEntry bytesGranted other = true) :
    grantedTo (charge bytesGranted key bytes) other =
      grantedTo bytesGranted other + if key = other then bytes else 0 := by
  rw [charge]
  split
  · rw [grantedTo_map _ (fun entry => by split <;> rfl) present]
    dsimp only
    by_cases same : other = key
    · rw [if_pos same, if_pos same.symm]
    · rw [if_neg same, if_neg (Ne.symm same), Nat.add_zero]
  · rename_i absent
    have apart : ¬key = other := by
      rintro rfl
      exact absent present
    rw [if_neg apart, Nat.add_zero, grantedTo, grantedTo]
    rcases any_eq_true.mp present with ⟨entry, member, same⟩
    have found : (bytesGranted.find? fun entry => entry.1 = other).isSome :=
      find?_isSome.mpr ⟨entry, member, same⟩
    rw [find?_append, Option.or_of_isSome found]

theorem hasEntry_charge (present : hasEntry bytesGranted other = true) :
    hasEntry (charge bytesGranted key bytes) other = true := by
  rw [charge]
  split
  · rw [hasEntry_map _ fun entry => by split <;> rfl]
    exact present
  · rw [hasEntry, any_append, Bool.or_eq_true]
    exact .inl present

theorem exists_entry (present : hasEntry bytesGranted key = true) :
    (key, grantedTo bytesGranted key) ∈ bytesGranted := by
  induction bytesGranted with
  | nil => cases present
  | cons entry rest induction =>
    rw [grantedTo_cons]
    by_cases same : entry.1 = key
    · rw [if_pos same, ← same]
      exact .head _
    · rw [if_neg same]
      rw [hasEntry_cons, decide_eq_false same, Bool.false_or] at present
      exact .tail _ (induction present)

theorem exists_rebase (bytesGranted : List (ServeKey × Nat)) :
    ∃ least, ∀ key, hasEntry bytesGranted key = true → hasEntry (rebase bytesGranted) key = true ∧
      grantedTo bytesGranted key = grantedTo (rebase bytesGranted) key + least := by
  rw [rebase]
  cases isLeast : (bytesGranted.map Prod.snd).min? with
  | none => exact ⟨0, fun key present => ⟨present, rfl⟩⟩
  | some least =>
    dsimp only
    split
    · refine ⟨least, ?_⟩
      intro key present
      refine ⟨?_, ?_⟩
      · rw [hasEntry_map (fun entry => (entry.1, entry.2 - least)) fun entry => rfl]
        exact present
      · rw [grantedTo_map (fun entry => (entry.1, entry.2 - least)) (fun entry => rfl) present]
        have below : least ≤ grantedTo bytesGranted key := by
          apply (min?_eq_some_iff.mp isLeast).2
          exact mem_map.mpr ⟨_, exists_entry present, rfl⟩
        dsimp only
        omega
    · exact ⟨0, fun key present => ⟨present, rfl⟩⟩

theorem difference_grant (one : hasEntry bytesGranted key = true)
    (two : hasEntry bytesGranted other = true) {granted : ServeKey} :
    (grantedTo (rebase (charge bytesGranted granted bytes)) key : Int) -
        grantedTo (rebase (charge bytesGranted granted bytes)) other =
      (grantedTo bytesGranted key : Int) - grantedTo bytesGranted other +
        (if granted = key then bytes else 0 : Nat) - (if granted = other then bytes else 0 : Nat) := by
  rcases exists_rebase (charge bytesGranted granted bytes) with ⟨least, rebased⟩
  have first := (rebased key (hasEntry_charge one)).2
  have second := (rebased other (hasEntry_charge two)).2
  rw [grantedTo_charge one] at first
  rw [grantedTo_charge two] at second
  omega

theorem hasEntry_grant {granted : ServeKey} (present : hasEntry bytesGranted key = true) :
    hasEntry (rebase (charge bytesGranted granted bytes)) key = true := by
  rcases exists_rebase (charge bytesGranted granted bytes) with ⟨least, rebased⟩
  exact (rebased key (hasEntry_charge present)).1

end Counters

/-! ## What a step does to the counters -/

section Effects

variable {limits : Limits} {world next : World} {event : Event} {number : Nat} {call : Call}

/-- What a step can do to the queues, the counters and what was granted from the queue. -/
inductive Effect (limits : Limits) (world : World) (event : Event) (next : World) : Prop where
  /-- A call gets a slot at once. -/
  | free (free : world.fair.active < limits.maxActive)
      (queues : next.fair.waiters = world.fair.waiters) (grants : next.grants = world.grants)
  /-- Nothing is granted from the queue. -/
  | quiet (grants : next.grants = world.grants)
      (counters : next.fair.bytesGranted = world.fair.bytesGranted)
      (queues : ∀ key, ∀ waiter ∈ queueAt next.fair.waiters key,
        waiter ∈ queueAt world.fair.waiters key ∨ event = .acquire key waiter.cost)
  | grant (key : ServeKey) (waiter : DispatchWaiter)
      (queued : waiter ∈ queueAt world.fair.waiters key)
      (grants : next.grants = world.grants ++ [(key, waiter)])
      (counters : next.fair.bytesGranted =
        rebase (charge world.fair.bytesGranted key (max waiter.cost 1)))
      (least : ∀ other, other ≠ key → queueAt next.fair.waiters other ≠ [] →
        grantedTo world.fair.bytesGranted key ≤ grantedTo world.fair.bytesGranted other)
      (queues : ∀ other, ∀ third ∈ queueAt next.fair.waiters other,
        third ∈ queueAt world.fair.waiters other)

theorem effect_acquire {key : ServeKey} {cost : Nat} (sound : Sound limits world)
    (acquired : acquire limits world key cost = .ok next) :
    Effect limits world (.acquire key cost) next := by
  rw [acquire] at acquired
  split at acquired
  · rename_i free
    cases acquired
    exact .free free rfl rfl
  · split at acquired
    · cases acquired
    · cases acquired
      refine .quiet rfl rfl ?_
      intro other waiter member
      dsimp only at member
      rw [queueAt_setQueue sound.counted.wellFormed] at member
      split at member
      · rename_i same
        subst same
        rcases mem_append.mp member with before | last
        · exact .inl before
        · rw [mem_singleton.mp last]
          exact .inr rfl
      · exact .inl member

theorem effect_setStage {stage : CallStage} :
    Effect limits world event (world.setStage number call stage) :=
  .quiet rfl rfl fun _ _ member => .inl member

theorem effect_unregister {stage : CallStage} (sound : Sound limits world) :
    Effect limits world event ((world.unregister call).setStage number call stage) := by
  rw [World.unregister]
  cases call.id with
  | none => exact effect_setStage
  | some id =>
    dsimp only
    cases cancelled : cancelWaiter world.fair call.key id with
    | none => exact .quiet rfl rfl fun _ _ member => .inl member
    | some fair =>
      rw [cancelWaiter] at cancelled
      split at cancelled
      · split at cancelled
        · cases cancelled
        · cases cancelled
          refine .quiet rfl rfl ?_
          intro key waiter member
          dsimp only [World.setStage] at member
          rw [queueAt_setQueue sound.counted.wellFormed] at member
          split at member
          · rename_i same
            subst same
            exact .inl (mem_of_mem_eraseP member)
          · exact .inl member
      · cases cancelled
        exact .quiet rfl rfl fun _ _ member => .inl member

theorem Drained.mem_queueAt {calls : List Call} {before after : FairDispatchState}
    (drained : Drained calls before after) {key : ServeKey} {waiter : DispatchWaiter}
    (member : waiter ∈ queueAt after.waiters key) : waiter ∈ queueAt before.waiters key := by
  rcases drained.queues key with ⟨gone, split, _⟩
  rw [split]
  exact mem_append_right _ member

theorem effect_release {stage : CallStage} {order : List ServeKey} (sound : Sound limits world)
    (found : world.calls[number]? = some call) (had : call.hasGuard = true)
    (leaves : stage = .ended ∨ stage = .closing)
    (listed : order.Perm (world.fair.waiters.map Prod.fst)) :
    Effect limits world event (releaseAndWakeNext (world.setStage number call stage) order) := by
  rcases releaseAndWakeNext_spec (sound.freeing found had leaves) listed with
    ⟨middle, drained, ⟨empty, result⟩ | ⟨key, waiter, rest, held, chosen, _, _, result⟩⟩
  · rw [result]
    exact .quiet rfl drained.bytesGranted fun _ _ member => .inl (drained.mem_queueAt member)
  · rw [result]
    have queues : ∀ other, queueAt (setQueue middle.waiters key rest) other =
        if key = other then rest else queueAt middle.waiters other :=
      fun other => queueAt_setQueue drained.wellFormed
    have counters : middle.bytesGranted = world.fair.bytesGranted := drained.bytesGranted
    apply Effect.grant key waiter
    · apply drained.mem_queueAt
      rw [chosen.front]
      exact .head _
    · rfl
    · dsimp only [World.setStage, FairDispatchState.serve]
      rw [counters]
    · intro other apart queued
      dsimp only [World.setStage, FairDispatchState.serve] at queued
      rw [queues, if_neg (Ne.symm apart)] at queued
      rw [← counters]
      exact chosen.least other queued
    · intro other third member
      dsimp only [World.setStage, FairDispatchState.serve] at member
      rw [queues] at member
      apply drained.mem_queueAt
      split at member
      · rename_i same
        subst same
        rw [chosen.front]
        exact .tail _ member
      · exact member

theorem effect_stepCall (sound : Sound limits world) (found : world.calls[number]? = some call)
    (stepped : stepCall world number call event = some next) : Effect limits world event next := by
  rcases sound.stepCall_cases found stepped with rfl | ⟨_, rfl, _⟩ | ⟨_, rfl⟩ |
    ⟨_, _, listed, had, leaves, rfl⟩
  · exact .quiet rfl rfl fun _ _ member => .inl member
  · exact effect_setStage
  · exact effect_unregister sound
  · exact effect_release sound found had leaves listed

theorem effect_step (sound : Sound limits world) (stepped : step limits world event = some next) :
    Effect limits world event next := by
  rcases step_cases stepped with rfl | ⟨key, cost, rfl, acquired⟩ | ⟨number, call, found, moved⟩
  · exact .quiet rfl rfl fun _ _ member => .inl member
  · exact effect_acquire sound acquired
  · exact effect_stepCall sound found moved

end Effects

/-! ## Costs -/

section Costs

variable {limits : Limits} {world next last : World} {event : Event} {events : List Event} {m : Nat}

def Priced (m : Nat) (world : World) : Prop :=
  ∀ key, ∀ waiter ∈ queueAt world.fair.waiters key, 1 ≤ waiter.cost ∧ waiter.cost ≤ m

theorem Priced.step (priced : Priced m world) (sound : Sound limits world)
    (costs : ∀ key cost, event = .acquire key cost → 1 ≤ cost ∧ cost ≤ m)
    (stepped : step limits world event = some next) : Priced m next := by
  intro key waiter member
  cases effect_step sound stepped with
  | free _ queues _ =>
    rw [queues] at member
    exact priced key waiter member
  | quiet _ _ queues =>
    rcases queues key waiter member with before | acquired
    · exact priced key waiter before
    · exact costs key waiter.cost acquired
  | grant _ _ _ _ _ _ queues => exact priced key waiter (queues key waiter member)

theorem Priced.run (priced : Priced m world) (sound : Sound limits world)
    (costs : ∀ key cost, .acquire key cost ∈ events → 1 ≤ cost ∧ cost ≤ m)
    (ran : run (FairDispatch.step limits) world events = some last) : Priced m last := by
  induction events generalizing world with
  | nil =>
    cases ran
    exact priced
  | cons event events induction =>
    rcases run_cons ran with ⟨next, stepped, later⟩
    apply induction (priced.step sound _ stepped) (sound.step stepped) _ later
    · rintro key cost rfl
      exact costs key cost mem_cons_self
    · intro key cost member
      exact costs key cost (.tail _ member)

end Costs

/-! ## An interval in which two keys wait -/

section Interval

variable {limits : Limits} {world next last : World} {event : Event} {events : List Event} {m : Nat}
  {one two : ServeKey}

def BothWait (one two : ServeKey) (world : World) : Prop :=
  queueAt world.fair.waiters one ≠ [] ∧ queueAt world.fair.waiters two ≠ []

instance BothWait.decidable (one two : ServeKey) : DecidablePred (BothWait one two) :=
  fun world => inferInstanceAs (Decidable
    (queueAt world.fair.waiters one ≠ [] ∧ queueAt world.fair.waiters two ≠ []))

def Throughout (limits : Limits) (world : World) (interval : List Event) (holds : World → Prop) :
    Prop :=
  ∀ taken, taken <+: interval → ∀ middle, run (step limits) world taken = some middle → holds middle

theorem throughout_of_inits {interval : List Event} {holds : World → Prop} [DecidablePred holds]
    (checked : interval.inits.all (fun taken =>
      (run (step limits) world taken).all fun middle => decide (holds middle)) = true) :
    Throughout limits world interval holds := by
  intro taken prefixed middle reached
  have here := all_eq_true.mp checked taken ((mem_inits taken interval).mpr prefixed)
  rw [reached] at here
  exact of_decide_eq_true here

/-- How far the counter of one key is ahead of the other's. -/
def lead (world : World) (one two : ServeKey) : Int :=
  (grantedTo world.fair.bytesGranted one : Int) - grantedTo world.fair.bytesGranted two

def costOf (grants : List (ServeKey × DispatchWaiter)) (key : ServeKey) : Nat :=
  ((grants.filter fun grant => grant.1 = key).map fun grant => grant.2.cost).sum

theorem costOf_cons (grant : ServeKey × DispatchWaiter)
    (grants : List (ServeKey × DispatchWaiter)) (key : ServeKey) :
    costOf (grant :: grants) key =
      (if grant.1 = key then grant.2.cost else 0) + costOf grants key := by
  rw [costOf, filter_cons]
  by_cases same : grant.1 = key
  · simp [same, costOf]
  · simp [same, costOf]

/-- One step in which both keys wait: the lead moves by what is granted, and toward zero unless it
stays within `m`. -/
theorem lead_step (sound : Sound limits world) (priced : Priced m world) (apart : one ≠ two)
    (first : hasEntry world.fair.bytesGranted one = true)
    (second : hasEntry world.fair.bytesGranted two = true) (before : BothWait one two world)
    (after : BothWait one two next) (stepped : step limits world event = some next) :
    hasEntry next.fair.bytesGranted one = true ∧ hasEntry next.fair.bytesGranted two = true ∧
      (∃ granted, next.grants = world.grants ++ granted ∧
        lead next one two = lead world one two + costOf granted one - costOf granted two) ∧
      lead next one two ≤ max (lead world one two) m ∧
      min (lead world one two) (-m) ≤ lead next one two := by
  cases effect_step sound stepped with
  | free free _ _ =>
    have full : world.fair.active = limits.maxActive := by
      apply sound.counted.busy
      intro none
      rw [BothWait, none] at before
      exact before.1 rfl
    omega
  | quiet grants counters _ =>
    have same : lead next one two = lead world one two := by
      rw [lead, lead, counters]
    rw [counters, same]
    refine ⟨first, second, ⟨[], ?_, ?_⟩, le_max_left _ _, min_le_left _ _⟩
    · rw [grants, append_nil]
    · simp [costOf]
  | grant key waiter queued grants counters least _ =>
    rcases priced key waiter queued with ⟨positive, bounded⟩
    have charged : max waiter.cost 1 = waiter.cost := Nat.max_eq_left positive
    have moved := @difference_grant world.fair.bytesGranted one two (max waiter.cost 1) first
      second key
    rw [← counters, charged] at moved
    have costs : ∀ other, costOf [(key, waiter)] other =
        if key = other then waiter.cost else 0 := by
      intro other
      rw [costOf_cons]
      rfl
    refine ⟨?_, ?_, ⟨[(key, waiter)], grants, ?_⟩, ?_⟩
    · rw [counters]
      exact hasEntry_grant first
    · rw [counters]
      exact hasEntry_grant second
    · rw [costs, costs]
      exact moved
    · rw [lead, lead, moved]
      by_cases isOne : key = one
      · subst isOne
        have behind := least two (Ne.symm apart) after.2
        rw [if_pos rfl, if_neg apart]
        omega
      · rw [if_neg isOne]
        by_cases isTwo : key = two
        · subst isTwo
          have behind := least one apart after.1
          rw [if_pos rfl]
          omega
        · rw [if_neg isTwo]
          omega

theorem grants_run (ran : run (step limits) world events = some last)
    (sound : Sound limits world) : ∃ granted, last.grants = world.grants ++ granted := by
  induction events generalizing world with
  | nil =>
    cases ran
    exact ⟨[], (append_nil _).symm⟩
  | cons event events induction =>
    rcases run_cons ran with ⟨next, stepped, later⟩
    rcases induction later (sound.step stepped) with ⟨granted, grants⟩
    rw [grants]
    cases effect_step sound stepped with
    | free _ _ same => exact ⟨granted, by rw [same]⟩
    | quiet same _ _ => exact ⟨granted, by rw [same]⟩
    | grant key waiter _ more _ _ _ => exact ⟨(key, waiter) :: granted, by simp [more]⟩

theorem lead_run (sound : Sound limits world) (priced : Priced m world) (apart : one ≠ two)
    (costs : ∀ key cost, .acquire key cost ∈ events → 1 ≤ cost ∧ cost ≤ m)
    (first : hasEntry world.fair.bytesGranted one = true)
    (second : hasEntry world.fair.bytesGranted two = true)
    (wait : Throughout limits world events (BothWait one two))
    (ran : run (step limits) world events = some last) :
    (∃ granted, last.grants = world.grants ++ granted ∧
        lead last one two = lead world one two + costOf granted one - costOf granted two) ∧
      lead last one two ≤ max (lead world one two) m ∧
      min (lead world one two) (-m) ≤ lead last one two := by
  induction events generalizing world with
  | nil =>
    cases ran
    refine ⟨⟨[], ?_, ?_⟩, le_max_left _ _, min_le_left _ _⟩
    · rw [append_nil]
    · simp [costOf]
  | cons event events induction =>
    rcases run_cons ran with ⟨next, stepped, later⟩
    have before : BothWait one two world := wait [] nil_prefix world rfl
    have after : BothWait one two next := by
      apply wait [event] ⟨events, rfl⟩ next
      rw [run, stepped]
      rfl
    have stepCosts : ∀ key cost, event = .acquire key cost → 1 ≤ cost ∧ cost ≤ m := by
      rintro key cost rfl
      exact costs key cost mem_cons_self
    rcases lead_step sound priced apart first second before after stepped with
      ⟨firstNext, secondNext, ⟨granted, grants, moved⟩, above, below⟩
    rcases induction (sound.step stepped) (priced.step sound stepCosts stepped)
      (fun key cost member => costs key cost (.tail _ member)) firstNext secondNext
      (by
        intro taken prefixed middle reached
        apply wait (event :: taken) (cons_prefix_cons.mpr ⟨rfl, prefixed⟩) middle
        rw [run, stepped]
        exact reached) later with ⟨⟨more, moreGrants, movedMore⟩, aboveMore, belowMore⟩
    refine ⟨⟨granted ++ more, ?_, ?_⟩, by omega, by omega⟩
    · rw [moreGrants, grants, append_assoc]
    · have sums : ∀ key, costOf (granted ++ more) key = costOf granted key + costOf more key := by
        intro key
        rw [costOf, costOf, costOf, filter_append, map_append, sum_append]
      rw [sums, sums, movedMore, moved]
      push_cast
      omega

/-- While two keys that were granted something before both wait, what is granted to them differs by
at most the cost of one request and the difference their counters had at the start. -/
theorem granted_within_lead (limits : Limits) (m : Nat) (before interval : List Event)
    (state last : World) (one two : ServeKey)
    (reached : run (step limits) World.start before = some state)
    (ran : run (step limits) state interval = some last)
    (costs : ∀ key cost, .acquire key cost ∈ before ++ interval → 1 ≤ cost ∧ cost ≤ m)
    (wait : Throughout limits state interval (BothWait one two))
    (first : hasEntry state.fair.bytesGranted one = true)
    (second : hasEntry state.fair.bytesGranted two = true) :
    ∃ granted, last.grants = state.grants ++ granted ∧
      |(costOf granted one : Int) - costOf granted two| ≤ m + |lead state one two| := by
  have sound := (sound_start limits).run reached
  have priced : Priced m state := by
    apply Priced.run _ (sound_start limits) _ reached
    · intro key waiter none
      cases none
    · exact fun key cost member => costs key cost (List.mem_append_left _ member)
  by_cases apart : one = two
  · subst apart
    rcases grants_run ran sound with ⟨granted, grants⟩
    refine ⟨granted, grants, ?_⟩
    rw [Int.sub_self, abs_zero]
    positivity
  · rcases lead_run sound priced apart
      (fun key cost member => costs key cost (List.mem_append_right _ member)) first second wait ran
      with ⟨⟨granted, grants, moved⟩, above, below⟩
    refine ⟨granted, grants, ?_⟩
    rw [abs_le]
    rcases abs_cases (lead state one two) with ⟨same, _⟩ | ⟨same, _⟩
    · rw [same]
      omega
    · rw [same]
      omega

end Interval

/-- Two keys were served once each and wait with two requests each. -/
theorem granted_within_lead_even : ∃ state last granted,
    run (step ⟨1, 4⟩) World.start [.acquire ⟨"a", "g"⟩ 1, .release 0 [], .acquire ⟨"b", "g"⟩ 1,
      .acquire ⟨"a", "g"⟩ 1, .acquire ⟨"a", "g"⟩ 1, .acquire ⟨"b", "g"⟩ 1,
      .acquire ⟨"b", "g"⟩ 1] = some state ∧
    run (step ⟨1, 4⟩) state [.release 1 [⟨"a", "g"⟩, ⟨"b", "g"⟩]] = some last ∧
    last.grants = state.grants ++ granted ∧
    |(costOf granted ⟨"a", "g"⟩ : Int) - costOf granted ⟨"b", "g"⟩| ≤
      1 + |lead state ⟨"a", "g"⟩ ⟨"b", "g"⟩| := by
  rcases granted_within_lead ⟨1, 4⟩ 1 [.acquire ⟨"a", "g"⟩ 1, .release 0 [],
    .acquire ⟨"b", "g"⟩ 1, .acquire ⟨"a", "g"⟩ 1, .acquire ⟨"a", "g"⟩ 1, .acquire ⟨"b", "g"⟩ 1,
    .acquire ⟨"b", "g"⟩ 1] [.release 1 [⟨"a", "g"⟩, ⟨"b", "g"⟩]] _ _ ⟨"a", "g"⟩ ⟨"b", "g"⟩ rfl rfl
    (by simp; omega) (throughout_of_inits (by decide)) (by decide) (by decide) with
    ⟨granted, grants, bound⟩
  exact ⟨_, _, granted, rfl, rfl, grants, bound⟩

/-- A key that was served four requests at once has to wait while another one, served once, is
granted three from the queue, although no request costs more than one byte. -/
theorem key_waits_out_its_past :
    ¬∀ (limits : Limits) (m : Nat) (before interval : List Event) (state last : World)
      (one two : ServeKey), run (step limits) World.start before = some state →
      run (step limits) state interval = some last →
      (∀ key cost, .acquire key cost ∈ before ++ interval → 1 ≤ cost ∧ cost ≤ m) →
      Throughout limits state interval (BothWait one two) →
      ∃ granted, last.grants = state.grants ++ granted ∧
        |(costOf granted one : Int) - costOf granted two| ≤ 2 * m := by
  intro claim
  rcases claim ⟨1, 5⟩ 1 [.acquire ⟨"a", "g"⟩ 1, .release 0 [], .acquire ⟨"a", "g"⟩ 1,
    .release 1 [], .acquire ⟨"a", "g"⟩ 1, .release 2 [], .acquire ⟨"a", "g"⟩ 1, .release 3 [],
    .acquire ⟨"b", "g"⟩ 1, .acquire ⟨"a", "g"⟩ 1, .acquire ⟨"b", "g"⟩ 1, .acquire ⟨"b", "g"⟩ 1,
    .acquire ⟨"b", "g"⟩ 1, .acquire ⟨"b", "g"⟩ 1]
    [.release 4 [⟨"a", "g"⟩, ⟨"b", "g"⟩], .poll 6, .finish 6,
      .release 6 [⟨"a", "g"⟩, ⟨"b", "g"⟩], .poll 7, .finish 7,
      .release 7 [⟨"a", "g"⟩, ⟨"b", "g"⟩]] _ _ ⟨"a", "g"⟩ ⟨"b", "g"⟩ rfl rfl
    (by simp; omega) (throughout_of_inits (by decide)) with ⟨granted, grants, bound⟩
  have same : granted = [(⟨"b", "g"⟩, ⟨1, 1, 6⟩), (⟨"b", "g"⟩, ⟨2, 1, 7⟩),
    (⟨"b", "g"⟩, ⟨3, 1, 8⟩)] := grants.symm
  subst same
  revert bound
  decide

end Yadorilink.FairDispatch
