import Yadorilink.Foundation.Lists
import Yadorilink.Serve.FairDispatch

/-! What every interleaving of calls, cancellations and drops keeps: as many slots are taken as
there are guards, nobody waits while a slot is free, and whoever waits is in the queue. -/

namespace Yadorilink.FairDispatch

open KeyedQueues Machine List

variable {state : FairDispatchState} {order : List ServeKey}

/-! ## The least granted key -/

theorem leastGranted_spec {bytesGranted : List (ServeKey × Nat)} (keys : List ServeKey) :
    (leastGranted bytesGranted keys = none → keys = []) ∧
      ∀ key, leastGranted bytesGranted keys = some key → key ∈ keys ∧
        ∀ other ∈ keys, grantedTo bytesGranted key ≤ grantedTo bytesGranted other := by
  induction keys with
  | nil => exact ⟨fun _ => rfl, fun _ found => by cases found⟩
  | cons first rest induction =>
    rcases induction with ⟨none, least⟩
    rw [leastGranted]
    cases found : leastGranted bytesGranted rest with
    | none =>
      refine ⟨by simp, ?_⟩
      intro key same
      cases same
      rw [none found]
      simp
    | some other =>
      rcases least other found with ⟨member, below⟩
      dsimp only
      split
      · rename_i less
        refine ⟨by simp, ?_⟩
        intro key same
        cases same
        refine ⟨.tail _ member, ?_⟩
        intro third listed
        rcases mem_cons.mp listed with rfl | later
        · omega
        · exact below third later
      · rename_i notLess
        refine ⟨by simp, ?_⟩
        intro key same
        cases same
        refine ⟨.head _, ?_⟩
        intro third listed
        rcases mem_cons.mp listed with rfl | later
        · exact Nat.le_refl _
        · have := below third later
          omega

/-! ## Waking -/

/-- The state after waiters whose receiver is gone were taken from the fronts of the queues. -/
structure Drained (calls : List Call) (before after : FairDispatchState) : Prop where
  wellFormed : WellFormed after.waiters
  waiting : after.waiting = total after.waiters
  fewer : total after.waiters ≤ total before.waiters
  active : after.active = before.active
  bytesGranted : after.bytesGranted = before.bytesGranted
  nextWaiterId : after.nextWaiterId = before.nextWaiterId
  queues : ∀ key, ∃ gone, queueAt before.waiters key = gone ++ queueAt after.waiters key ∧
    ∀ waiter ∈ gone, receiving calls waiter.call = false

theorem Drained.refl {calls : List Call}
    (wellFormed : WellFormed state.waiters) (counted : state.waiting = total state.waiters) :
    Drained calls state state where
  wellFormed := wellFormed
  waiting := counted
  fewer := Nat.le_refl _
  active := rfl
  bytesGranted := rfl
  nextWaiterId := rfl
  queues := fun _ => ⟨[], rfl, fun _ member => absurd member not_mem_nil⟩

/-- The state after the front waiter of a key was granted its slot. -/
def FairDispatchState.serve (state : FairDispatchState) (key : ServeKey) (waiter : DispatchWaiter)
    (rest : List DispatchWaiter) : FairDispatchState :=
  { state with
    waiters := setQueue state.waiters key rest
    waiting := state.waiting - 1
    active := state.active + 1
    bytesGranted := rebase (charge state.bytesGranted key (max waiter.cost 1)) }

/-- The front waiter of a least granted key is one whose receiver is there. -/
structure Chosen (calls : List Call) (state : FairDispatchState) (key : ServeKey)
    (waiter : DispatchWaiter) (rest : List DispatchWaiter) : Prop where
  front : queueAt state.waiters key = waiter :: rest
  receives : receiving calls waiter.call = true
  least : ∀ other, queueAt state.waiters other ≠ [] →
    grantedTo state.bytesGranted key ≤ grantedTo state.bytesGranted other

theorem total_pop {key : ServeKey} {waiter : DispatchWaiter}
    {rest : List DispatchWaiter} (wellFormed : WellFormed state.waiters)
    (front : queueAt state.waiters key = waiter :: rest) :
    total (setQueue state.waiters key rest) + 1 = total state.waiters := by
  have counted : total (setQueue state.waiters key rest) + (queueAt state.waiters key).length =
      total state.waiters + rest.length := total_setQueue wellFormed
  rw [front, length_cons] at counted
  omega

/-- The loop drops waiters whose receiver is gone until it grants the slot or nobody is left. -/
theorem wakeNext_spec {calls : List Call} {turns : Nat}
    (wellFormed : WellFormed state.waiters)
    (counted : state.waiting = total state.waiters)
    (listed : ∀ key, queueAt state.waiters key ≠ [] → key ∈ order)
    (enough : total state.waiters < turns) :
    ∃ middle, Drained calls state middle ∧
      ((middle.waiters = [] ∧ wakeNext calls order turns state = .idle middle) ∨
        ∃ key waiter rest, Chosen calls middle key waiter rest ∧ wakeNext calls order turns state =
            .granted (middle.serve key waiter rest) key waiter) := by
  induction turns generalizing state with
  | zero => exact absurd enough (Nat.not_lt_zero _)
  | succ turns induction =>
    have candidates : ∀ key, key ∈ (order.filter fun key =>
        state.waiters.any fun entry => entry.1 = key) ↔ queueAt state.waiters key ≠ [] := by
      intro key
      rw [mem_filter, any_key_iff wellFormed]
      exact ⟨And.right, fun queued => ⟨listed key queued, queued⟩⟩
    rcases @leastGranted_spec state.bytesGranted (order.filter fun key =>
      state.waiters.any fun entry => entry.1 = key) with ⟨none, least⟩
    rw [wakeNext]
    cases found : leastGranted state.bytesGranted (order.filter fun key =>
        state.waiters.any fun entry => entry.1 = key) with
    | none =>
      refine ⟨state, .refl wellFormed counted, .inl ⟨?_, rfl⟩⟩
      cases waiters : state.waiters with
      | nil => rfl
      | cons entry rest =>
        have member : entry ∈ state.waiters := by
          rw [waiters]
          exact .head _
        have queued : queueAt state.waiters entry.1 ≠ [] := by
          rw [queueAt_of_mem wellFormed member]
          exact wellFormed.nonempty entry member
        have absurdly := (candidates entry.1).mpr queued
        rw [none found] at absurdly
        cases absurdly
    | some key =>
      rcases least key found with ⟨member, below⟩
      have queued := (candidates key).mp member
      dsimp only
      cases front : queueAt state.waiters key with
      | nil => exact absurd front queued
      | cons waiter rest =>
        have pops := total_pop wellFormed front
        have some : ¬state.waiting = 0 := by omega
        dsimp only
        rw [if_neg some]
        cases receives : receiving calls waiter.call with
        | true =>
          refine ⟨state, .refl wellFormed counted, .inr ⟨key, waiter, rest, ?_, rfl⟩⟩
          exact ⟨front, receives, fun other isQueued =>
            below other ((candidates other).mpr isQueued)⟩
        | false =>
          rw [if_neg (by simp)]
          have popped : WellFormed (setQueue state.waiters key rest) :=
            wellFormed_setQueue wellFormed
          have queues : ∀ other, queueAt (setQueue state.waiters key rest) other =
              if key = other then rest else queueAt state.waiters other :=
            fun other => queueAt_setQueue wellFormed
          rcases @induction { state with
              waiters := setQueue state.waiters key rest
              waiting := state.waiting - 1 } popped (by dsimp only; omega) (by
                intro other isQueued
                apply listed
                dsimp only at isQueued
                rw [queues] at isQueued
                split at isQueued
                · rename_i same
                  rw [← same, front]
                  simp
                · exact isQueued) (by dsimp only; omega) with
            ⟨middle, drained, result⟩
          have fewer := drained.fewer
          dsimp only at fewer
          refine ⟨middle, ⟨drained.wellFormed, drained.waiting, by omega, drained.active,
            drained.bytesGranted, drained.nextWaiterId, ?_⟩, result⟩
          intro other
          rcases drained.queues other with ⟨gone, split, unreceiving⟩
          dsimp only at split
          rw [queues] at split
          by_cases same : key = other
          · subst same
            rw [if_pos rfl] at split
            refine ⟨waiter :: gone, ?_, ?_⟩
            · rw [front, split]
              rfl
            · exact forall_mem_cons.mpr ⟨receives, unreceiving⟩
          · rw [if_neg same] at split
            exact ⟨gone, split, unreceiving⟩

/-! ## The invariant -/

/-- Slots and waiters are counted right, and no slot is free while somebody waits. -/
structure Counted (limits : Limits) (fair : FairDispatchState) (calls : List Call) : Prop where
  wellFormed : WellFormed fair.waiters
  active : fair.active = calls.countP Call.hasGuard
  activeMax : fair.active ≤ limits.maxActive
  waiting : fair.waiting = total fair.waiters
  waitingMax : fair.waiting ≤ limits.maxWaiting
  busy : fair.waiters ≠ [] → fair.active = limits.maxActive

/-- Each waiter belongs to a call that still waits or is being dropped, and each waiting call has
its waiter. -/
structure Linked (fair : FairDispatchState) (calls : List Call) : Prop where
  waiters : ∀ key, ∀ waiter ∈ queueAt fair.waiters key, ∃ call, calls[waiter.call]? = some call ∧
    call.key = key ∧ call.id = some waiter.id ∧ (call.stage = .queued ∨ call.stage = .closing)
  senders : ∀ number call, calls[number]? = some call → call.stage = .queued →
    ∃ waiter ∈ queueAt fair.waiters call.key, waiter.call = number
  ids : ∀ (first second : Nat) (one two : Call) (id : Nat), calls[first]? = some one → calls[second]? = some two →
    one.id = some id → two.id = some id → first = second
  fresh : ∀ call ∈ calls, ∀ id, call.id = some id → id < fair.nextWaiterId

/-- The ids granted to a key, and behind them those that wait under it. -/
def idsOf (fair : FairDispatchState) (grants : List (ServeKey × DispatchWaiter)) (key : ServeKey) :
    List Nat :=
  (grants.filter fun grant => grant.1 = key).map (fun grant => grant.2.id) ++
    (queueAt fair.waiters key).map DispatchWaiter.id

/-- Waiters of one key come in the order of their ids. -/
structure Ordered (fair : FairDispatchState) (grants : List (ServeKey × DispatchWaiter)) : Prop where
  inOrder : ∀ key, (idsOf fair grants key).Pairwise (· < ·)
  past : ∀ grant ∈ grants, grant.2.id < fair.nextWaiterId

structure Sound (limits : Limits) (world : World) : Prop where
  faultless : world.faulted = false
  counted : Counted limits world.fair world.calls
  linked : Linked world.fair world.calls
  ordered : Ordered world.fair world.grants

theorem sound_start (limits : Limits) : Sound limits World.start where
  faultless := rfl
  counted := ⟨wellFormed_nil, rfl, Nat.zero_le _, rfl, Nat.zero_le _, fun some => absurd rfl some⟩
  linked := ⟨fun _ _ none => absurd none not_mem_nil, fun _ _ none => by simp [World.start] at none,
    fun _ _ _ _ _ none => by simp [World.start] at none, fun _ none => absurd none not_mem_nil⟩
  ordered := ⟨fun _ => List.Pairwise.nil, fun _ none => absurd none not_mem_nil⟩

theorem Ordered.queue_pairwise {fair : FairDispatchState}
    {grants : List (ServeKey × DispatchWaiter)} (ordered : Ordered fair grants) (key : ServeKey) :
    (queueAt fair.waiters key).Pairwise fun first second => first.id < second.id := by
  have whole := ordered.inOrder key
  rw [idsOf, pairwise_append, pairwise_map] at whole
  rw [← pairwise_map]
  exact whole.2.1

theorem not_mem_eraseP_id {queue : List DispatchWaiter} {id : Nat} {waiter : DispatchWaiter}
    (pairwise : queue.Pairwise fun first second => first.id < second.id)
    (member : waiter ∈ queue.eraseP fun waiter => waiter.id = id) : waiter.id ≠ id := by
  intro same
  rcases @exists_of_eraseP _ (fun waiter : DispatchWaiter => decide (waiter.id = id)) queue
    waiter (mem_of_mem_eraseP member) (decide_eq_true same) with
    ⟨first, before, after, none, isFirst, split, erased⟩
  rw [erased] at member
  rw [split, pairwise_append, pairwise_cons] at pairwise
  rcases mem_append.mp member with early | late
  · exact none waiter early (decide_eq_true same)
  · have := pairwise.2.1.1 waiter late
    have : first.id = id := of_decide_eq_true isFirst
    omega

theorem Sound.idsOf_lt {limits : Limits} {world : World} (sound : Sound limits world)
    (key : ServeKey) : ∀ id ∈ idsOf world.fair world.grants key, id < world.fair.nextWaiterId := by
  intro id listed
  rw [idsOf] at listed
  rcases mem_append.mp listed with granted | queued
  · rcases mem_map.mp granted with ⟨grant, member, rfl⟩
    exact sound.ordered.past grant (mem_filter.mp member).1
  · rcases mem_map.mp queued with ⟨waiter, member, rfl⟩
    rcases sound.linked.waiters key waiter member with ⟨call, isCall, _, sameId, _⟩
    exact sound.linked.fresh call (mem_of_getElem? isCall) waiter.id sameId

/-! ## A call that moves on -/

section Moving

variable {limits : Limits} {world : World} {fair : FairDispatchState} {calls : List Call}
  {number : Nat} {call : Call} {stage : CallStage}

theorem Counted.setStage (counted : Counted limits fair calls) (found : calls[number]? = some call)
    (same : ({ call with stage } : Call).hasGuard = call.hasGuard) :
    Counted limits fair (calls.set number { call with stage }) where
  wellFormed := counted.wellFormed
  active := by
    have counts := @Stages.countP_set Call calls number call { call with stage } found Call.hasGuard
    rw [same] at counts
    rw [counted.active]
    omega
  activeMax := counted.activeMax
  waiting := counted.waiting
  waitingMax := counted.waitingMax
  busy := counted.busy

/-- A call moves on while waiters are taken out of the queues: of those that stay none may rely on
the call, unless it is being dropped, and a waiter of another call stays. -/
theorem Linked.leave (linked : Linked fair calls) (found : calls[number]? = some call)
    (away : stage ≠ .queued) {after : FairDispatchState}
    (next : after.nextWaiterId = fair.nextWaiterId)
    (fewer : ∀ key, ∀ waiter ∈ queueAt after.waiters key,
      waiter ∈ queueAt fair.waiters key ∧ (stage = .closing ∨ waiter.call ≠ number))
    (stayed : ∀ key, ∀ waiter ∈ queueAt fair.waiters key, waiter.call ≠ number →
      waiter ∈ queueAt after.waiters key) :
    Linked after (calls.set number { call with stage }) := by
  have inside := (List.getElem?_eq_some_iff.mp found).1
  have lookup : ∀ other, (calls.set number { call with stage })[other]? =
      if number = other then some { call with stage } else calls[other]? := by
    intro other
    by_cases same : number = other
    · subst same
      rw [if_pos rfl, getElem?_set_self inside]
    · rw [if_neg same, getElem?_set_ne same]
  refine ⟨?_, ?_, ?_, ?_⟩
  · intro key waiter member
    rcases fewer key waiter member with ⟨queued, relied⟩
    rcases linked.waiters key waiter queued with ⟨held, isCall, sameKey, sameId, stands⟩
    rw [lookup]
    by_cases same : number = waiter.call
    · rw [if_pos same]
      rw [← same, found] at isCall
      cases isCall
      refine ⟨_, rfl, sameKey, sameId, ?_⟩
      rcases relied with closing | apart
      · exact .inr closing
      · exact absurd same.symm apart
    · rw [if_neg same]
      exact ⟨held, isCall, sameKey, sameId, stands⟩
  · intro other held isCall queued
    rw [lookup] at isCall
    split at isCall
    · cases isCall
      exact absurd queued away
    · rename_i apart
      rcases linked.senders other held isCall queued with ⟨waiter, member, rfl⟩
      exact ⟨waiter, stayed held.key waiter member (Ne.symm apart), rfl⟩
  · intro first second one two id isOne isTwo oneId twoId
    have original : ∀ other held, (if number = other then some { call with stage } else
        calls[other]?) = some held → held.id = some id →
        ∃ before, calls[other]? = some before ∧ before.id = some id := by
      intro other held isHeld heldId
      split at isHeld
      · rename_i same
        cases isHeld
        exact ⟨call, same ▸ found, heldId⟩
      · exact ⟨held, isHeld, heldId⟩
    rw [lookup] at isOne isTwo
    rcases original first one isOne oneId with ⟨before, isBefore, beforeId⟩
    rcases original second two isTwo twoId with ⟨other, isOther, otherId⟩
    exact linked.ids first second before other id isBefore isOther beforeId otherId
  · intro held member id heldId
    rw [next]
    rcases mem_or_eq_of_mem_set member with untouched | rfl
    · exact linked.fresh held untouched id heldId
    · exact linked.fresh call (mem_of_getElem? found) id heldId

theorem Linked.unrelied (linked : Linked fair calls) (found : calls[number]? = some call)
    (waitsNot : call.stage ≠ .queued) (closesNot : call.stage ≠ .closing) {key : ServeKey} :
    ∀ waiter ∈ queueAt fair.waiters key, waiter.call ≠ number := by
  rintro waiter member rfl
  rcases linked.waiters key waiter member with ⟨held, isCall, _, _, stands⟩
  rw [found] at isCall
  cases isCall
  rcases stands with queued | closing
  · exact waitsNot queued
  · exact closesNot closing

theorem Linked.setStage (linked : Linked fair calls) (found : calls[number]? = some call)
    (away : stage ≠ .queued)
    (relied : stage = .closing ∨ (call.stage ≠ .queued ∧ call.stage ≠ .closing)) :
    Linked fair (calls.set number { call with stage }) := by
  apply linked.leave found away rfl
  · intro key waiter member
    refine ⟨member, ?_⟩
    rcases relied with closing | ⟨waitsNot, closesNot⟩
    · exact .inl closing
    · exact .inr (linked.unrelied found waitsNot closesNot waiter member)
  · intro key waiter member _
    exact member

theorem Linked.same_call (linked : Linked fair calls) {key other : ServeKey}
    {first second : DispatchWaiter} (one : first ∈ queueAt fair.waiters key)
    (two : second ∈ queueAt fair.waiters other) (same : first.call = second.call) :
    key = other ∧ first.id = second.id := by
  rcases linked.waiters key first one with ⟨held, isHeld, keyHeld, idHeld, _⟩
  rcases linked.waiters other second two with ⟨found, isFound, keyFound, idFound, _⟩
  rw [same, isFound] at isHeld
  cases isHeld
  refine ⟨keyHeld.symm.trans keyFound, ?_⟩
  rw [idHeld] at idFound
  exact Option.some.inj idFound

end Moving

/-! ## A new call -/

section Acquiring

variable {limits : Limits} {world : World} {fair : FairDispatchState} {calls : List Call}
  {call : Call}

theorem Linked.append (linked : Linked fair calls) {after : FairDispatchState}
    (later : fair.nextWaiterId ≤ after.nextWaiterId)
    (more : ∀ key, ∀ waiter ∈ queueAt after.waiters key, waiter ∈ queueAt fair.waiters key ∨
      (waiter.call = calls.length ∧ call.key = key ∧ call.id = some waiter.id ∧
        call.stage = .queued))
    (stayed : ∀ key, ∀ waiter ∈ queueAt fair.waiters key, waiter ∈ queueAt after.waiters key)
    (sender : call.stage = .queued →
      ∃ waiter ∈ queueAt after.waiters call.key, waiter.call = calls.length)
    (newId : ∀ id, call.id = some id → fair.nextWaiterId ≤ id ∧ id < after.nextWaiterId) :
    Linked after (calls ++ [call]) := by
  have lookup : ∀ number held, (calls ++ [call])[number]? = some held →
      calls[number]? = some held ∨ (number = calls.length ∧ held = call) := by
    intro number held isCall
    by_cases inside : number < calls.length
    · rw [getElem?_append_left inside] at isCall
      exact .inl isCall
    · rw [getElem?_append_right (by omega)] at isCall
      rcases List.getElem?_eq_some_iff.mp isCall with ⟨bound, rfl⟩
      have last : number = calls.length := by
        rw [length_singleton] at bound
        omega
      subst last
      refine .inr ⟨rfl, ?_⟩
      simp
  have older : ∀ (number : Nat) (held : Call) (id : Nat), calls[number]? = some held → held.id = some id →
      id < fair.nextWaiterId := fun number held id isCall heldId =>
    linked.fresh held (mem_of_getElem? isCall) id heldId
  refine ⟨?_, ?_, ?_, ?_⟩
  · intro key waiter member
    rcases more key waiter member with queued | ⟨number, sameKey, sameId, stage⟩
    · rcases linked.waiters key waiter queued with ⟨held, isCall, rest⟩
      refine ⟨held, ?_, rest⟩
      rw [getElem?_append_left (List.getElem?_eq_some_iff.mp isCall).1]
      exact isCall
    · refine ⟨call, ?_, sameKey, sameId, .inl stage⟩
      rw [number]
      exact getElem?_concat_length
  · intro number held isCall queued
    rcases lookup number held isCall with before | ⟨rfl, rfl⟩
    · rcases linked.senders number held before queued with ⟨waiter, member, same⟩
      exact ⟨waiter, stayed held.key waiter member, same⟩
    · exact sender queued
  · intro first second one two id isOne isTwo oneId twoId
    rcases lookup first one isOne with before | ⟨rfl, rfl⟩
    · rcases lookup second two isTwo with also | ⟨rfl, rfl⟩
      · exact linked.ids first second one two id before also oneId twoId
      · have := older first one id before oneId
        have := (newId id twoId).1
        omega
    · rcases lookup second two isTwo with also | ⟨rfl, rfl⟩
      · have := older second two id also twoId
        have := (newId id oneId).1
        omega
      · rfl
  · intro held member id heldId
    rcases mem_append.mp member with before | last
    · exact Nat.lt_of_lt_of_le (linked.fresh held before id heldId) later
    · rw [mem_singleton.mp last] at heldId
      exact (newId id heldId).2

theorem Sound.acquire {key : ServeKey} {cost : Nat} {next : World} (sound : Sound limits world)
    (acquired : acquire limits world key cost = .ok next) : Sound limits next := by
  have counted := sound.counted
  rw [FairDispatch.acquire] at acquired
  split at acquired
  · rename_i free
    cases acquired
    have nobody : world.fair.waiters = [] := by
      by_contra some
      have := counted.busy some
      omega
    refine ⟨sound.faultless, ⟨counted.wellFormed, ?_, free, counted.waiting, counted.waitingMax,
      fun some => absurd nobody some⟩, ?_, ⟨sound.ordered.inOrder, sound.ordered.past⟩⟩
    · dsimp only
      rw [countP_append, ← counted.active]
      rfl
    · apply sound.linked.append
      · exact Nat.le_refl _
      · exact fun _ _ member => .inl member
      · exact fun _ _ member => member
      · intro waits
        cases waits
      · intro id none
        cases none
  · rename_i full
    split at acquired
    · cases acquired
    · rename_i room
      cases acquired
      have wellFormed := counted.wellFormed
      have queues : ∀ other, queueAt (setQueue world.fair.waiters key
          (queueAt world.fair.waiters key ++
            [⟨world.fair.nextWaiterId, cost, world.calls.length⟩])) other =
          if key = other then queueAt world.fair.waiters key ++
            [⟨world.fair.nextWaiterId, cost, world.calls.length⟩]
          else queueAt world.fair.waiters other := fun other => queueAt_setQueue wellFormed
      refine ⟨sound.faultless, ⟨wellFormed_setQueue wellFormed, ?_, counted.activeMax, ?_, ?_, ?_⟩,
        ?_, ⟨?_, ?_⟩⟩
      · dsimp only
        rw [countP_append, ← counted.active]
        rfl
      · dsimp only
        have sum := @total_setQueue _ _ world.fair.waiters key (queueAt world.fair.waiters key ++
          [⟨world.fair.nextWaiterId, cost, world.calls.length⟩]) _ wellFormed
        rw [length_append, length_singleton] at sum
        have := counted.waiting
        omega
      · dsimp only
        omega
      · intro _
        have := counted.activeMax
        dsimp only
        omega
      · apply sound.linked.append
        · exact Nat.le_succ _
        · intro other waiter member
          dsimp only at member
          rw [queues] at member
          split at member
          · rename_i same
            subst same
            rcases mem_append.mp member with before | last
            · exact .inl before
            · rw [mem_singleton.mp last]
              exact .inr ⟨rfl, rfl, rfl, rfl⟩
          · exact .inl member
        · intro other waiter member
          dsimp only
          rw [queues]
          split
          · rename_i same
            subst same
            exact mem_append_left _ member
          · exact member
        · intro _
          refine ⟨⟨world.fair.nextWaiterId, cost, world.calls.length⟩, ?_, rfl⟩
          dsimp only
          rw [queues, if_pos rfl]
          exact mem_append_right _ mem_cons_self
        · intro id same
          cases same
          exact ⟨Nat.le_refl _, Nat.lt_succ_self _⟩
      · intro other
        have before := sound.ordered.inOrder other
        rw [idsOf] at before ⊢
        dsimp only
        rw [queues]
        split
        · rename_i same
          subst same
          rw [map_append, ← append_assoc, pairwise_append]
          refine ⟨before, pairwise_singleton _ _, ?_⟩
          intro old listed new last
          rw [map_singleton, mem_singleton] at last
          rw [last]
          exact sound.idsOf_lt key old listed
        · exact before
      · intro grant member
        exact Nat.lt_succ_of_lt (sound.ordered.past grant member)

end Acquiring

/-! ## A waiter that gives up -/

section Unregistering

variable {limits : Limits} {world : World} {number : Nat} {call : Call}

theorem Linked.call_of_id {fair : FairDispatchState} {calls : List Call}
    (linked : Linked fair calls) (found : calls[number]? = some call) {key : ServeKey}
    {waiter : DispatchWaiter} (member : waiter ∈ queueAt fair.waiters key)
    (same : call.id = some waiter.id) : waiter.call = number := by
  rcases linked.waiters key waiter member with ⟨held, isCall, _, heldId, _⟩
  exact linked.ids waiter.call number held call waiter.id isCall found heldId same

theorem Sound.unregister_received (sound : Sound limits world)
    (found : world.calls[number]? = some call) (received : call.stage = .received) :
    world.unregister call = world := by
  rw [World.unregister]
  cases isId : call.id with
  | none => rfl
  | some id =>
    have absent : ¬((queueAt world.fair.waiters call.key).any fun waiter => waiter.id = id) := by
      intro present
      rcases any_eq_true.mp present with ⟨waiter, member, same⟩
      have sameId : call.id = some waiter.id := by
        rw [isId, of_decide_eq_true same]
      apply sound.linked.unrelied found (by rw [received]; decide) (by rw [received]; decide)
        waiter member
      exact sound.linked.call_of_id found member sameId
    dsimp only
    rw [cancelWaiter, if_neg absent]

theorem Sound.unregister_closing (sound : Sound limits world)
    (found : world.calls[number]? = some call) (closing : call.stage = .closing) :
    Sound limits ((world.unregister call).setStage number call .ended) := by
  have counted := sound.counted
  have guards : ({ call with stage := .ended } : Call).hasGuard = call.hasGuard := by
    rw [Call.hasGuard, Call.hasGuard, closing]
    rfl
  have unchanged : (∀ waiter ∈ queueAt world.fair.waiters call.key, waiter.call ≠ number) →
      Sound limits (world.setStage number call .ended) := by
    intro absent
    refine ⟨sound.faultless, counted.setStage found guards, ?_, sound.ordered⟩
    apply sound.linked.leave found
    · decide
    · rfl
    · intro key waiter member
      refine ⟨member, .inr ?_⟩
      rintro rfl
      rcases sound.linked.waiters key waiter member with ⟨held, isCall, sameKey, _, _⟩
      rw [found] at isCall
      cases isCall
      exact absent waiter (sameKey.symm ▸ member) rfl
    · exact fun _ _ member _ => member
  rw [World.unregister]
  cases isId : call.id with
  | none =>
    apply unchanged
    rintro waiter member rfl
    rcases sound.linked.waiters call.key waiter member with ⟨held, isCall, _, heldId, _⟩
    rw [found] at isCall
    cases isCall
    rw [isId] at heldId
    cases heldId
  | some id =>
    dsimp only
    rw [cancelWaiter]
    by_cases present : (queueAt world.fair.waiters call.key).any fun waiter => waiter.id = id
    · rw [if_pos present]
      rcases any_eq_true.mp present with ⟨target, listed, same⟩
      have wellFormed := counted.wellFormed
      have positive : ¬world.fair.waiting = 0 := by
        intro none
        rw [counted.waiting, total_eq_zero_iff wellFormed] at none
        rw [none] at listed
        cases listed
      have queues : ∀ other, queueAt (setQueue world.fair.waiters call.key
          ((queueAt world.fair.waiters call.key).eraseP fun waiter => waiter.id = id)) other =
          if call.key = other then
            (queueAt world.fair.waiters call.key).eraseP fun waiter => waiter.id = id
          else queueAt world.fair.waiters other := fun other => queueAt_setQueue wellFormed
      rw [if_neg positive]
      refine ⟨sound.faultless, ?_, ?_, ?_, sound.ordered.past⟩
      · have stays := counted.setStage found guards
        refine ⟨wellFormed_setQueue wellFormed, stays.active, counted.activeMax, ?_, ?_, ?_⟩
        · have sum := @total_setQueue _ _ world.fair.waiters call.key
            ((queueAt world.fair.waiters call.key).eraseP fun waiter => waiter.id = id) _
            wellFormed
          have shorter : ((queueAt world.fair.waiters call.key).eraseP fun waiter =>
              waiter.id = id).length = (queueAt world.fair.waiters call.key).length - 1 :=
            length_eraseP_of_mem listed same
          have nonempty := length_pos_of_mem listed
          have := counted.waiting
          dsimp only [World.setStage]
          omega
        · have := counted.waitingMax
          dsimp only [World.setStage]
          omega
        · intro _
          apply counted.busy
          intro none
          rw [none] at listed
          cases listed
      · apply sound.linked.leave found
        · decide
        · rfl
        · intro key waiter member
          dsimp only [World.setStage] at member
          rw [queues] at member
          have before : waiter ∈ queueAt world.fair.waiters key := by
            split at member
            · rename_i sameKey
              rw [← sameKey]
              exact mem_of_mem_eraseP member
            · exact member
          refine ⟨before, .inr ?_⟩
          rintro rfl
          rcases sound.linked.waiters key waiter before with ⟨held, isCall, sameKey, heldId, _⟩
          rw [found] at isCall
          cases isCall
          rw [if_pos sameKey] at member
          rw [isId] at heldId
          exact not_mem_eraseP_id (sound.ordered.queue_pairwise call.key) member
            (Option.some.inj heldId).symm
        · intro key waiter member apart
          dsimp only [World.setStage]
          rw [queues]
          split
          · rename_i sameKey
            subst sameKey
            apply (mem_eraseP_of_neg _).mpr member
            intro sameId
            apply apart
            apply sound.linked.call_of_id found member
            rw [isId, of_decide_eq_true sameId]
          · exact member
      · intro key
        have before := sound.ordered.inOrder key
        rw [idsOf] at before ⊢
        dsimp only [World.setStage]
        rw [queues]
        split
        · rename_i sameKey
          subst sameKey
          apply List.Pairwise.sublist _ before
          apply List.Sublist.append_left
          exact eraseP_sublist.map _
        · exact before
    · rw [if_neg present]
      apply unchanged
      rintro waiter member rfl
      rcases sound.linked.waiters call.key waiter member with ⟨held, isCall, _, heldId, _⟩
      rw [found] at isCall
      cases isCall
      rw [isId] at heldId
      apply present
      exact any_eq_true.mpr ⟨waiter, member, decide_eq_true (Option.some.inj heldId).symm⟩

end Unregistering

/-! ## A guard that is dropped -/

section Releasing

variable {limits : Limits} {world : World} {fair middle : FairDispatchState} {calls : List Call}
  {grants : List (ServeKey × DispatchWaiter)} {key : ServeKey} {waiter : DispatchWaiter}
  {rest : List DispatchWaiter}

theorem receiving_iff {number : Nat} :
    receiving calls number = true ↔ ∃ call, calls[number]? = some call ∧ call.stage = .queued := by
  rw [receiving]
  cases calls[number]? with
  | none => simp
  | some call => simp

theorem Linked.drained (linked : Linked fair calls) (drained : Drained calls fair middle) :
    Linked middle calls := by
  refine ⟨?_, ?_, linked.ids, ?_⟩
  · intro key waiter member
    rcases drained.queues key with ⟨gone, split, _⟩
    apply linked.waiters key waiter
    rw [split]
    exact mem_append_right _ member
  · intro number call isCall queued
    rcases linked.senders number call isCall queued with ⟨waiter, member, rfl⟩
    rcases drained.queues call.key with ⟨gone, split, unreceiving⟩
    rw [split] at member
    rcases mem_append.mp member with isGone | stays
    · have receives := receiving_iff.mpr ⟨call, isCall, queued⟩
      rw [unreceiving waiter isGone] at receives
      cases receives
    · exact ⟨waiter, stays, rfl⟩
  · intro call member id isId
    rw [drained.nextWaiterId]
    exact linked.fresh call member id isId

theorem Ordered.drained (ordered : Ordered fair grants) (drained : Drained calls fair middle) :
    Ordered middle grants := by
  refine ⟨?_, ?_⟩
  · intro key
    rcases drained.queues key with ⟨gone, split, _⟩
    have before := ordered.inOrder key
    rw [idsOf, split] at before
    rw [idsOf]
    apply List.Pairwise.sublist _ before
    apply List.Sublist.append_left
    exact (sublist_append_right gone _).map _
  · intro grant member
    rw [drained.nextWaiterId]
    exact ordered.past grant member

theorem Linked.front_apart (linked : Linked fair calls) (ordered : Ordered fair grants)
    (front : queueAt fair.waiters key = waiter :: rest) {other : ServeKey} {third : DispatchWaiter}
    (member : third ∈ if key = other then rest else queueAt fair.waiters other) :
    third ∈ queueAt fair.waiters other ∧ third.call ≠ waiter.call := by
  have first : waiter ∈ queueAt fair.waiters key := by
    rw [front]
    exact .head _
  split at member
  · rename_i same
    subst same
    have also : third ∈ queueAt fair.waiters key := by
      rw [front]
      exact .tail _ member
    refine ⟨also, ?_⟩
    intro sameCall
    have increasing := ordered.queue_pairwise key
    rw [front, pairwise_cons] at increasing
    have := increasing.1 third member
    have := (linked.same_call also first sameCall).2
    omega
  · rename_i apart
    exact ⟨member, fun sameCall => apart (linked.same_call member first sameCall).1.symm⟩

theorem Linked.serve (linked : Linked fair calls) (ordered : Ordered fair grants)
    (wellFormed : WellFormed fair.waiters) (front : queueAt fair.waiters key = waiter :: rest)
    {call : Call} (found : calls[waiter.call]? = some call) :
    Linked (fair.serve key waiter rest) (calls.set waiter.call { call with stage := .granted }) := by
  have queues : ∀ other, queueAt (setQueue fair.waiters key rest) other =
      if key = other then rest else queueAt fair.waiters other :=
    fun other => queueAt_setQueue wellFormed
  apply linked.leave found
  · decide
  · rfl
  · intro other third member
    rw [FairDispatchState.serve, queues] at member
    rcases linked.front_apart ordered front member with ⟨before, apart⟩
    exact ⟨before, .inr apart⟩
  · intro other third member apart
    rw [FairDispatchState.serve, queues]
    split
    · rename_i same
      subst same
      rw [front] at member
      rcases mem_cons.mp member with rfl | later
      · exact absurd rfl apart
      · exact later
    · exact member

theorem Ordered.serve (linked : Linked fair calls) (ordered : Ordered fair grants)
    (wellFormed : WellFormed fair.waiters) (front : queueAt fair.waiters key = waiter :: rest) :
    Ordered (fair.serve key waiter rest) (grants ++ [(key, waiter)]) := by
  refine ⟨?_, ?_⟩
  · intro other
    have same : idsOf (fair.serve key waiter rest) (grants ++ [(key, waiter)]) other =
        idsOf fair grants other := by
      rw [idsOf, idsOf, FairDispatchState.serve, queueAt_setQueue wellFormed, filter_append]
      by_cases sameKey : key = other
      · subst sameKey
        rw [if_pos rfl, front]
        simp
      · rw [if_neg sameKey]
        simp [sameKey]
    rw [same]
    exact ordered.inOrder other
  · refine forall_mem_concat ordered.past ?_
    have first : waiter ∈ queueAt fair.waiters key := by
      rw [front]
      exact .head _
    rcases linked.waiters key waiter first with ⟨call, isCall, _, sameId, _⟩
    exact linked.fresh call (mem_of_getElem? isCall) waiter.id sameId

/-- What holds while a guard is being dropped: its slot is counted still. -/
structure Freeing (limits : Limits) (fair : FairDispatchState) (calls : List Call) : Prop where
  wellFormed : WellFormed fair.waiters
  active : fair.active = calls.countP Call.hasGuard + 1
  activeMax : fair.active ≤ limits.maxActive
  waiting : fair.waiting = total fair.waiters
  waitingMax : fair.waiting ≤ limits.maxWaiting
  busy : fair.waiters ≠ [] → fair.active = limits.maxActive

/-- The slot goes to the front waiter of a least granted key, after waiters whose receiver is gone
were dropped; only when nobody is left it stays free. -/
theorem releaseAndWakeNext_spec
    (freeing : Freeing limits world.fair world.calls)
    (listed : order.Perm (world.fair.waiters.map Prod.fst)) :
    ∃ middle, Drained world.calls { world.fair with active := world.fair.active - 1 } middle ∧
      ((middle.waiters = [] ∧ releaseAndWakeNext world order = { world with fair := middle }) ∨
        ∃ key waiter rest call, Chosen world.calls middle key waiter rest ∧
          world.calls[waiter.call]? = some call ∧ call.stage = .queued ∧
          releaseAndWakeNext world order = { world with
            fair := middle.serve key waiter rest
            grants := world.grants ++ [(key, waiter)] }.setStage waiter.call call .granted) := by
  have positive : ¬world.fair.active = 0 := by
    have := freeing.active
    omega
  have reaches : ∀ key, queueAt world.fair.waiters key ≠ [] → key ∈ order := by
    intro key queued
    apply listed.mem_iff.mpr
    exact mem_map.mpr ⟨_, exists_of_queueAt_ne_nil queued, rfl⟩
  rw [releaseAndWakeNext, if_neg positive]
  rcases @wakeNext_spec { world.fair with active := world.fair.active - 1 } order world.calls
    (total world.fair.waiters + 1) freeing.wellFormed freeing.waiting reaches
    (Nat.lt_succ_self _) with ⟨middle, drained, ⟨empty, woken⟩ | ⟨key, waiter, rest, chosen, woken⟩⟩
  · refine ⟨middle, drained, .inl ⟨empty, ?_⟩⟩
    rw [woken]
  · rcases receiving_iff.mp chosen.receives with ⟨call, isCall, queued⟩
    refine ⟨middle, drained, .inr ⟨key, waiter, rest, call, chosen, isCall, queued, ?_⟩⟩
    rw [woken]
    dsimp only
    rw [isCall]

theorem sound_releaseAndWakeNext (faultless : world.faulted = false)
    (freeing : Freeing limits world.fair world.calls) (linked : Linked world.fair world.calls)
    (ordered : Ordered world.fair world.grants)
    (listed : order.Perm (world.fair.waiters.map Prod.fst)) :
    Sound limits (releaseAndWakeNext world order) := by
  rcases releaseAndWakeNext_spec freeing listed with ⟨middle, drained, result⟩
  have linkedFreed : Linked { world.fair with active := world.fair.active - 1 } world.calls :=
    ⟨linked.waiters, linked.senders, linked.ids, linked.fresh⟩
  have orderedFreed : Ordered { world.fair with active := world.fair.active - 1 } world.grants :=
    ⟨ordered.inOrder, ordered.past⟩
  have linkedMiddle := linkedFreed.drained drained
  have orderedMiddle := orderedFreed.drained drained
  have active : middle.active = world.calls.countP Call.hasGuard := by
    have := freeing.active
    have := drained.active
    dsimp only at this
    omega
  have below : middle.active + 1 ≤ limits.maxActive := by
    have := freeing.active
    have := freeing.activeMax
    omega
  rcases result with ⟨empty, result⟩ | ⟨key, waiter, rest, call, chosen, found, queued, result⟩
  · rw [result]
    refine ⟨faultless, ⟨drained.wellFormed, active, Nat.le_of_succ_le below, drained.waiting, ?_,
      fun some => absurd empty some⟩, linkedMiddle, orderedMiddle⟩
    dsimp only
    rw [drained.waiting, empty]
    exact Nat.zero_le _
  · rw [result]
    have pops := total_pop drained.wellFormed chosen.front
    have waits := drained.waiting
    have less : total middle.waiters ≤ total world.fair.waiters := drained.fewer
    have wasBusy : world.fair.active = limits.maxActive := by
      apply freeing.busy
      intro empty
      rw [empty] at less
      have : total ([] : List (ServeKey × List DispatchWaiter)) = 0 := rfl
      omega
    have counts := @Stages.countP_set Call world.calls waiter.call call
      { call with stage := .granted } found Call.hasGuard
    have had : call.hasGuard = false := by
      rw [Call.hasGuard, queued]
      rfl
    have has : ({ call with stage := .granted } : Call).hasGuard = true := rfl
    rw [had, has, if_neg (by decide), if_pos rfl] at counts
    refine ⟨faultless, ⟨wellFormed_setQueue drained.wellFormed, ?_, below, ?_, ?_, ?_⟩,
      linkedMiddle.serve orderedMiddle drained.wellFormed chosen.front found,
      orderedMiddle.serve linkedMiddle drained.wellFormed chosen.front⟩
    · dsimp only [World.setStage, FairDispatchState.serve]
      omega
    · dsimp only [World.setStage, FairDispatchState.serve]
      omega
    · have := freeing.waiting
      have := freeing.waitingMax
      dsimp only [World.setStage, FairDispatchState.serve]
      omega
    · intro _
      have := freeing.active
      dsimp only [World.setStage, FairDispatchState.serve]
      omega

end Releasing

/-! ## Runs -/

section Runs

variable {limits : Limits} {world next last : World} {number : Nat} {call : Call}

theorem step_cases {event : Event} (stepped : step limits world event = some next) :
    next = world ∨ (∃ key cost, event = .acquire key cost ∧
      acquire limits world key cost = .ok next) ∨
      ∃ number call, world.calls[number]? = some call ∧
        stepCall world number call event = some next := by
  have called : ∀ number, (world.calls[number]?.bind fun call =>
      stepCall world number call event) = some next → ∃ number call,
        world.calls[number]? = some call ∧ stepCall world number call event = some next :=
    fun number moves => ⟨number, Option.bind_eq_some_iff.mp moves⟩
  cases event with
  | acquire key cost =>
    rw [step] at stepped
    cases acquired : acquire limits world key cost with
    | error busy =>
      simp only [acquired] at stepped
      cases stepped
      exact .inl rfl
    | ok after =>
      simp only [acquired] at stepped
      cases stepped
      exact .inr (.inl ⟨key, cost, rfl, acquired⟩)
  | poll number => exact .inr (.inr (called number stepped))
  | finish number => exact .inr (.inr (called number stepped))
  | cancel number => exact .inr (.inr (called number stepped))
  | unregister number => exact .inr (.inr (called number stepped))
  | release number order => exact .inr (.inr (called number stepped))

section

variable (sound : Sound limits world)

include sound

theorem Sound.setStage {stage : CallStage}
    (found : world.calls[number]? = some call)
    (guards : ({ call with stage } : Call).hasGuard = call.hasGuard) (away : stage ≠ .queued)
    (relied : stage = .closing ∨ (call.stage ≠ .queued ∧ call.stage ≠ .closing)) :
    Sound limits (world.setStage number call stage) :=
  ⟨sound.faultless, sound.counted.setStage found guards,
    sound.linked.setStage found away relied, sound.ordered⟩

theorem Sound.hasSender (found : world.calls[number]? = some call)
    (queued : call.stage = .queued) : world.hasSender number call = true := by
  rcases sound.linked.senders number call found queued with ⟨waiter, member, same⟩
  exact any_eq_true.mpr ⟨waiter, member, decide_eq_true same⟩

theorem Sound.freeing {stage : CallStage}
    (found : world.calls[number]? = some call) (had : call.hasGuard = true)
    (leaves : stage = .ended ∨ stage = .closing) :
    Freeing limits (world.setStage number call stage).fair
      (world.setStage number call stage).calls := by
  have counted := sound.counted
  have counts := @Stages.countP_set Call world.calls number call { call with stage } found
    Call.hasGuard
  have hasNot : ({ call with stage } : Call).hasGuard = false := by
    rcases leaves with rfl | rfl
    · rfl
    · rfl
  rw [had, hasNot, if_pos rfl, if_neg (by decide)] at counts
  refine ⟨counted.wellFormed, ?_, counted.activeMax, counted.waiting, counted.waitingMax,
    counted.busy⟩
  have := counted.active
  dsimp only [World.setStage]
  omega

theorem Sound.release {stage : CallStage}
    (found : world.calls[number]? = some call) (had : call.hasGuard = true)
    (leaves : stage = .ended ∨ stage = .closing)
    (listed : order.Perm (world.fair.waiters.map Prod.fst)) :
    Sound limits (releaseAndWakeNext (world.setStage number call stage) order) := by
  apply sound_releaseAndWakeNext
  · exact sound.faultless
  · exact sound.freeing found had leaves
  · apply sound.linked.setStage found
    · rcases leaves with rfl | rfl
      · decide
      · decide
    · right
      rw [Call.hasGuard] at had
      constructor
      · intro queued
        rw [queued] at had
        cases had
      · intro closing
        rw [closing] at had
        cases had
  · exact sound.ordered
  · exact listed

/-- What a step of one call does, besides granting a slot to a call that comes. -/
theorem Sound.stepCall_cases {event : Event} (found : world.calls[number]? = some call)
    (stepped : stepCall world number call event = some next) :
    next = world ∨
    (∃ stage, next = world.setStage number call stage ∧
      ({ call with stage } : Call).hasGuard = call.hasGuard ∧ stage ≠ .queued ∧
      (stage = .closing ∨ (call.stage ≠ .queued ∧ call.stage ≠ .closing))) ∨
    (call.stage = .closing ∧ next = (world.unregister call).setStage number call .ended) ∨
    ∃ stage order, order.Perm (world.fair.waiters.map Prod.fst) ∧ call.hasGuard = true ∧
      (stage = .ended ∨ stage = .closing) ∧
      next = releaseAndWakeNext (world.setStage number call stage) order := by
  cases event with
  | acquire key cost => cases stepped
  | poll _ =>
    rw [FairDispatch.stepCall] at stepped
    split at stepped
    · rename_i stage
      rw [if_pos (sound.hasSender found stage)] at stepped
      cases stepped
      exact .inl rfl
    · rename_i stage
      cases stepped
      exact .inr (.inl ⟨_, rfl, by simp [Call.hasGuard, stage], by decide, by simp [stage]⟩)
    · cases stepped
  | finish _ =>
    rw [FairDispatch.stepCall] at stepped
    split at stepped
    · rename_i stage
      rw [sound.unregister_received found stage] at stepped
      cases stepped
      exact .inr (.inl ⟨_, rfl, by simp [Call.hasGuard, stage], by decide, by simp [stage]⟩)
    · cases stepped
  | cancel _ =>
    rw [FairDispatch.stepCall] at stepped
    split at stepped
    · rename_i stage
      cases stepped
      exact .inr (.inl ⟨_, rfl, by simp [Call.hasGuard, stage], by decide, .inl rfl⟩)
    · rename_i stage
      cases stepped
      exact .inr (.inl ⟨_, rfl, by simp [Call.hasGuard, stage], by decide, by simp [stage]⟩)
    · cases stepped
  | unregister _ =>
    rw [FairDispatch.stepCall] at stepped
    split at stepped
    · rename_i stage
      cases stepped
      exact .inr (.inr (.inl ⟨stage, rfl⟩))
    · cases stepped
  | release _ order =>
    rw [FairDispatch.stepCall] at stepped
    split at stepped
    · rename_i listed
      right; right; right
      split at stepped
      · rename_i stage
        cases stepped
        exact ⟨_, order, listed, by rw [Call.hasGuard, stage]; rfl, .inl rfl, rfl⟩
      · rename_i stage
        cases stepped
        exact ⟨_, order, listed, by rw [Call.hasGuard, stage]; rfl, .inr rfl, rfl⟩
      · cases stepped
    · cases stepped

theorem Sound.stepCall {event : Event} (found : world.calls[number]? = some call)
    (stepped : stepCall world number call event = some next) : Sound limits next := by
  rcases sound.stepCall_cases found stepped with rfl | ⟨_, rfl, guards, away, relied⟩ |
    ⟨closing, rfl⟩ | ⟨_, _, listed, had, leaves, rfl⟩
  · exact sound
  · exact sound.setStage found guards away relied
  · exact sound.unregister_closing found closing
  · exact sound.release found had leaves listed

theorem Sound.step {event : Event}
    (stepped : step limits world event = some next) : Sound limits next := by
  rcases step_cases stepped with rfl | ⟨key, cost, rfl, acquired⟩ | ⟨number, call, found, moved⟩
  · exact sound
  · exact sound.acquire acquired
  · exact sound.stepCall found moved

theorem Sound.run {events : List Event}
    (ran : run (FairDispatch.step limits) world events = some last) : Sound limits last :=
  invariant_run_always (fun _ _ _ holds stepped => Sound.step holds stepped) sound ran

end

/-- In every interleaving of calls, cancellations and drops as many slots are taken as there are
guards, and no more than allowed; the waiters are counted, and no more than allowed; no key has an
empty queue; no slot is free while somebody waits; the waiters of a key are granted in the order
they came; and nothing panics or spins. -/
theorem dispatch_slots_exact (limits : Limits) (events : List Event)
    (ran : Machine.run (FairDispatch.step limits) World.start events = some world) :
    world.fair.active = world.calls.countP Call.hasGuard ∧ world.fair.active ≤ limits.maxActive ∧
      world.fair.waiting = total world.fair.waiters ∧
      world.fair.waiting ≤ limits.maxWaiting ∧
      (∀ entry ∈ world.fair.waiters, entry.2 ≠ []) ∧
      (world.fair.waiters ≠ [] → world.fair.active = limits.maxActive) ∧
      (∀ key, (idsOf world.fair world.grants key).Pairwise (· < ·)) ∧
      world.faulted = false := by
  have sound := (sound_start limits).run ran
  have counted := sound.counted
  exact ⟨counted.active, counted.activeMax, counted.waiting, counted.waitingMax,
    counted.wellFormed.nonempty, counted.busy, sound.ordered.inOrder, sound.faultless⟩

end Runs

/-- One request is served, two wait, and the guard goes to the first whose receiver is there. -/
theorem dispatch_slots_exact_handover : ∃ world,
    Machine.run (step ⟨1, 2⟩) World.start [.acquire ⟨"p", "g"⟩ 3, .acquire ⟨"p", "g"⟩ 3,
      .acquire ⟨"p", "g"⟩ 3, .cancel 1, .release 0 [⟨"p", "g"⟩], .unregister 1, .poll 2,
      .finish 2] = some world ∧
    world.fair.active = 1 ∧ world.grants.map (fun grant => grant.2.id) = [1] ∧
    world.faulted = false := by
  refine ⟨_, rfl, rfl, rfl, ?_⟩
  rcases dispatch_slots_exact ⟨1, 2⟩ [.acquire ⟨"p", "g"⟩ 3, .acquire ⟨"p", "g"⟩ 3,
    .acquire ⟨"p", "g"⟩ 3, .cancel 1, .release 0 [⟨"p", "g"⟩], .unregister 1, .poll 2, .finish 2]
    rfl with ⟨_, _, _, _, _, _, _, faultless⟩
  exact faultless

end Yadorilink.FairDispatch
