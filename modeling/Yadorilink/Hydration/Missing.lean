import Yadorilink.Hydration.Dispatch

/-! When the blocks a dispatch reports missing are missing. Every unresolved block is in the queue,
exhausted, with a lane or with a ticket; a peer whose lanes have all left has tried each of them. -/

namespace Yadorilink.Hydration

open Machine List
open Chunking (BlockInfo)

/-! ## The queue -/

def BlockWorkQueue.blocked (work : BlockWorkQueue) (peerId : PeerId) (now : Instant)
    (block : BlockInfo) : Bool :=
  work.alreadyTried peerId block || work.coolingDown peerId now block

/-- The loop finds no block and puts the queue back as it was, or takes one of its blocks. -/
theorem popLoop_spec (peerId : PeerId) (now : Instant) (todo done : List BlockInfo)
    (work : BlockWorkQueue) (split : work.queue = todo ++ done) :
    ((popLoop peerId now todo.length work) = (none, { work with queue := done ++ todo }) ∧
        ∀ block ∈ todo, work.blocked peerId now block = true) ∨
      ∃ block rest, popLoop peerId now todo.length work =
          (some block, { work with queue := rest, outstanding := work.outstanding + 1 }) ∧
        (block :: rest).Perm work.queue := by
  induction todo generalizing done work with
  | nil =>
    left
    rw [nil_append] at split
    rw [append_nil, ← split]
    exact ⟨rfl, fun block member => absurd member not_mem_nil⟩
  | cons block todo induction =>
    rw [cons_append] at split
    rw [length_cons, popLoop, split]
    dsimp only
    split
    · rename_i blocked
      rcases induction (done ++ [block]) { work with queue := todo ++ done ++ [block] }
        (append_assoc ..) with ⟨found, others⟩ | ⟨taken, rest, found, perm⟩
      · left
        rw [found, append_assoc]
        refine ⟨rfl, fun other member => ?_⟩
        rcases mem_cons.mp member with rfl | later
        · exact blocked
        · exact others other later
      · right
        refine ⟨taken, rest, found, perm.trans ?_⟩
        exact perm_append_singleton ..
    · right
      exact ⟨block, todo ++ done, rfl, .refl _⟩

namespace BlockWorkQueue

variable {work : BlockWorkQueue} {peerId : PeerId} {now : Instant}

theorem popFor_none (nothing : (work.popFor peerId now).1 = none) :
    (work.popFor peerId now).2 = work ∧
      ∀ block ∈ work.queue, work.blocked peerId now block = true := by
  rcases popLoop_spec peerId now work.queue [] work (append_nil _).symm with
    ⟨found, blocked⟩ | ⟨block, rest, found, -⟩
  · rw [popFor, found]
    exact ⟨rfl, blocked⟩
  · rw [popFor, found] at nothing
    cases nothing

theorem popFor_some {block : BlockInfo} (taken : (work.popFor peerId now).1 = some block) :
    ∃ rest, (work.popFor peerId now).2 =
        { work with queue := rest, outstanding := work.outstanding + 1 } ∧
      (block :: rest).Perm work.queue := by
  rcases popLoop_spec peerId now work.queue [] work (append_nil _).symm with
    ⟨found, -⟩ | ⟨other, rest, found, perm⟩
  · rw [popFor, found] at taken
    cases taken
  · rw [popFor, found] at taken ⊢
    cases taken
    exact ⟨rest, rfl, perm⟩

theorem markNotFound_triedBy (block : BlockInfo) (allCandidates : List PeerId) :
    (work.markNotFound block peerId allCandidates).triedBy =
      (block.hash, peerId) :: work.triedBy := by
  rw [markNotFound]
  split
  · rfl
  · rfl

theorem markNotFound_outstanding (block : BlockInfo) (allCandidates : List PeerId) :
    (work.markNotFound block peerId allCandidates).outstanding = work.outstanding - 1 := by
  rw [markNotFound]
  split
  · rfl
  · rfl

theorem markNotFound_cases (block : BlockInfo) (allCandidates : List PeerId) :
    ((work.markNotFound block peerId allCandidates).queue = work.queue ∧
        (work.markNotFound block peerId allCandidates).exhausted = work.exhausted ++ [block] ∧
        ∀ candidate ∈ allCandidates,
          (block.hash, candidate) ∈ (work.markNotFound block peerId allCandidates).triedBy) ∨
      ((work.markNotFound block peerId allCandidates).queue = work.queue ++ [block] ∧
        (work.markNotFound block peerId allCandidates).exhausted = work.exhausted) := by
  rw [markNotFound_triedBy, markNotFound]
  split
  · rename_i all
    left
    refine ⟨rfl, rfl, fun candidate member => ?_⟩
    exact contains_iff_mem.mp (all_eq_true.mp all candidate member)
  · exact .inr ⟨rfl, rfl⟩

end BlockWorkQueue

/-! ## The invariant -/

namespace Dispatch

def pool (dispatch : Dispatch) : List BlockInfo :=
  dispatch.work.queue ++ dispatch.work.exhausted ++ dispatch.fetching.map Prod.snd ++
    dispatch.tickets.map Ticket.block

def Active (dispatch : Dispatch) (peerId : PeerId) : Prop :=
  (∃ lane ∈ dispatch.polling, lane.1 = peerId) ∨ ∃ held ∈ dispatch.fetching, held.1.1 = peerId

structure Sound (codec : Codec) (blocks : List BlockInfo) (candidates : List Candidate)
    (dispatch : Dispatch) : Prop where
  outstanding :
    dispatch.work.outstanding = dispatch.fetching.length + dispatch.tickets.length
  requested : ∀ block ∈ dispatch.pool, block ∈ blocks
  accounted : ∀ block ∈ blocks, block ∈ dispatch.pool ∨ dispatch.StoredWithProvenance codec block
  verified : ∀ ticket ∈ dispatch.tickets, codec.blockDataMatches ticket.block ticket.data = true
  tried : ∀ entry ∈ dispatch.work.triedBy, ∀ block ∈ blocks, block.hash = entry.1 →
    ∃ answer ∈ dispatch.answers, answer.hash = block.hash ∧ answer.peerId = entry.2 ∧
      codec.definitive block answer.attempt = true
  exhausted : ∀ block ∈ dispatch.work.exhausted, ∀ candidate ∈ candidates,
    (block.hash, candidate.peerId) ∈ dispatch.work.triedBy
  left : dispatch.fatal = none → ∀ candidate ∈ candidates, dispatch.Active candidate.peerId ∨
      ∀ block ∈ dispatch.pool, (block.hash, candidate.peerId) ∈ dispatch.work.triedBy

variable {codec : Codec} {blocks : List BlockInfo} {candidates : List Candidate}
  {dispatch next : Dispatch} {lane : Lane} {block : BlockInfo} {ticket : Ticket} {other : BlockInfo}

theorem mem_pool : block ∈ dispatch.pool ↔
    (block ∈ dispatch.work.queue ∨ block ∈ dispatch.work.exhausted ∨
      ∃ ticket ∈ dispatch.tickets, ticket.block = block) ∨
    ∃ held ∈ dispatch.fetching, held.2 = block := by
  simp only [pool, mem_append, mem_map, or_assoc, or_left_comm, or_comm]

theorem Sound.left_mono (sound : Sound codec blocks candidates dispatch)
    (fatal : next.fatal = none → dispatch.fatal = none)
    (active : ∀ peerId, dispatch.Active peerId → next.Active peerId)
    (pool : ∀ block ∈ next.pool, block ∈ dispatch.pool)
    (tried : ∀ entry ∈ dispatch.work.triedBy, entry ∈ next.work.triedBy) :
    next.fatal = none → ∀ candidate ∈ candidates, next.Active candidate.peerId ∨
      ∀ block ∈ next.pool, (block.hash, candidate.peerId) ∈ next.work.triedBy := by
  intro healthy candidate member
  rcases sound.left (fatal healthy) candidate member with stays | all
  · exact .inl (active _ stays)
  · exact .inr fun block inPool => tried _ (all block (pool block inPool))

theorem active_back (now : Instant) (answers : List Answer) {peerId : PeerId}
    (active : dispatch.Active peerId) : (dispatch.back lane block now answers).Active peerId := by
  rcases active with ⟨other, member, same⟩ | ⟨held, member, same⟩
  · exact .inl ⟨other, .tail lane member, same⟩
  · by_cases here : held = (lane, block)
    · subst here
      exact .inl ⟨lane, .head _, same⟩
    · exact .inr ⟨held, (mem_erase_of_ne here).mpr member, same⟩

theorem held_erase {other : BlockInfo} (held : ∃ held ∈ dispatch.fetching, held.2 = other) :
    other = block ∨ ∃ held ∈ dispatch.fetching.erase (lane, block), held.2 = other := by
  rcases held with ⟨held, member, rfl⟩
  by_cases here : held = (lane, block)
  · subst here
    exact .inl rfl
  · exact .inr ⟨held, (mem_erase_of_ne here).mpr member, rfl⟩

theorem ticket_erase (held : ∃ held ∈ dispatch.tickets, held.block = other) :
    other = ticket.block ∨ ∃ held ∈ dispatch.tickets.erase ticket, held.block = other := by
  rcases held with ⟨held, member, rfl⟩
  by_cases here : held = ticket
  · subst here
    exact .inl rfl
  · exact .inr ⟨held, (mem_erase_of_ne here).mpr member, rfl⟩

/-! ## One step -/

theorem StoredWithProvenance.mono (stored : dispatch.StoredWithProvenance codec other)
    (store : ∀ data ∈ dispatch.store, data ∈ next.store)
    (provenance : ∀ hash ∈ dispatch.provenance, hash ∈ next.provenance) :
    next.StoredWithProvenance codec other := by
  rcases stored with ⟨⟨data, held, same⟩, recorded⟩
  exact ⟨⟨data, store data held, same⟩, provenance _ recorded⟩

section

variable (sound : Sound codec blocks candidates dispatch)

include sound

theorem Sound.of_pool
    (outstanding : next.work.outstanding = next.fetching.length + next.tickets.length)
    (pool : ∀ block, block ∈ next.pool ↔ block ∈ dispatch.pool)
    (verified : ∀ ticket ∈ next.tickets, codec.blockDataMatches ticket.block ticket.data = true)
    (tried : next.work.triedBy = dispatch.work.triedBy)
    (exhausted : next.work.exhausted = dispatch.work.exhausted)
    (answers : ∀ answer ∈ dispatch.answers, answer ∈ next.answers)
    (store : ∀ data ∈ dispatch.store, data ∈ next.store)
    (provenance : ∀ hash ∈ dispatch.provenance, hash ∈ next.provenance)
    (left : next.fatal = none → ∀ candidate ∈ candidates, next.Active candidate.peerId ∨
      ∀ block ∈ next.pool, (block.hash, candidate.peerId) ∈ next.work.triedBy) :
    Sound codec blocks candidates next where
  outstanding := outstanding
  requested := fun block member => sound.requested block ((pool block).mp member)
  accounted := by
    intro block member
    rcases sound.accounted block member with inPool | stored
    · exact .inl ((pool block).mpr inPool)
    · exact .inr (stored.mono store provenance)
  verified := verified
  tried := by
    intro entry member block isBlock same
    rw [tried] at member
    rcases sound.tried entry member block isBlock same with ⟨answer, made, facts⟩
    exact ⟨answer, answers answer made, facts⟩
  exhausted := by
    rw [exhausted, tried]
    exact sound.exhausted
  left := left

theorem Sound.leaveFailed
    (failed : dispatch.fatal.isSome = true) (later : Instant) :
    Sound codec blocks candidates (dispatch.leave lane later) := by
  refine sound.of_pool sound.outstanding (fun _ => Iff.rfl) sound.verified rfl rfl
    (fun _ => id) (fun _ => id) (fun _ => id) fun healthy => ?_
  change dispatch.fatal = none at healthy
  rw [healthy] at failed
  cases failed

/-- A lane leaves when nothing is outstanding: every block left over was tried by its peer. -/
theorem Sound.leave (later : Instant)
    (idle : dispatch.work.outstanding = 0)
    (tried : ∀ block ∈ dispatch.work.queue, dispatch.work.alreadyTried lane.1 block = true) :
    Sound codec blocks candidates (dispatch.leave lane later) := by
  refine sound.of_pool sound.outstanding (fun _ => Iff.rfl) sound.verified rfl rfl
    (fun _ => id) (fun _ => id) (fun _ => id) fun healthy candidate member => ?_
  rcases sound.left healthy candidate member with (⟨other, polls, same⟩ | held) | all
  · by_cases here : other = lane
    · right
      subst here
      intro block inPool
      have none := sound.outstanding.symm.trans idle
      rcases mem_pool.mp inPool with (queued | spent | ⟨ticket, found, -⟩) | ⟨held, found, -⟩
      · rw [← same]
        exact contains_iff_mem.mp (tried block queued)
      · exact sound.exhausted block spent candidate member
      · have some := length_pos_of_mem found
        change 0 < dispatch.tickets.length at some
        omega
      · have some := length_pos_of_mem found
        change 0 < dispatch.fetching.length at some
        omega
    · exact .inl (.inl ⟨other, (mem_erase_of_ne here).mpr polls, same⟩)
  · exact .inl (.inr held)
  · exact .inr all

theorem Sound.poll {now later : Instant}
    (safe : dispatch.missesCooldown lane now later = false) :
    Sound codec blocks candidates (dispatch.poll lane now later) := by
  rw [Dispatch.poll]
  split
  · rename_i failed
    exact sound.leaveFailed failed later
  · rename_i healthy
    split
    · rename_i block taken
      rcases BlockWorkQueue.popFor_some taken with ⟨rest, work, perm⟩
      rw [work]
      have pool : ∀ other, other ∈ (Dispatch.pool
          { dispatch with
            work := { dispatch.work with
              queue := rest, outstanding := dispatch.work.outstanding + 1 }
            polling := dispatch.polling.erase lane
            fetching := (lane, block) :: dispatch.fetching
            clock := later }) ↔ other ∈ dispatch.pool := by
        intro other
        rw [mem_pool, mem_pool, ← perm.mem_iff]
        simp only [mem_cons, exists_eq_or_imp]
        grind
      refine sound.of_pool ?_ pool sound.verified rfl rfl (fun _ => id) (fun _ => id)
        (fun _ => id) (sound.left_mono id ?_ (fun other => (pool other).mp) fun _ => id)
      · change dispatch.work.outstanding + 1 = dispatch.fetching.length + 1 + dispatch.tickets.length
        rw [sound.outstanding]
        omega
      · rintro peerId (⟨other, member, same⟩ | ⟨held, member, same⟩)
        · by_cases here : other = lane
          · subst here
            exact .inr ⟨_, .head _, same⟩
          · exact .inl ⟨other, (mem_erase_of_ne here).mpr member, same⟩
        · exact .inr ⟨held, .tail _ member, same⟩
    · rename_i nothing
      rcases BlockWorkQueue.popFor_none nothing with ⟨work, blocked⟩
      rw [work]
      split
      · exact sound.of_pool sound.outstanding (fun _ => Iff.rfl) sound.verified rfl rfl
          (fun _ => id) (fun _ => id) (fun _ => id) sound.left
      · rename_i final
        rw [Bool.or_eq_true, not_or] at final
        have idle : dispatch.work.outstanding = 0 := by
          have none := final.1
          rw [BlockWorkQueue.hasOutstanding, decide_eq_true_eq] at none
          omega
        apply sound.leave later idle
        intro block queued
        by_contra untried
        have missed : dispatch.missesCooldown lane now later = true := by
          rw [missesCooldown, nothing]
          simp only [Bool.and_eq_true, Bool.not_eq_true', any_eq_true]
          refine ⟨⟨⟨⟨?_, rfl⟩, ?_⟩, ?_⟩, block, queued, ?_⟩
          · simpa using healthy
          · simpa using final.1
          · simpa using final.2
          · simpa using untried
        rw [missed] at safe
        cases safe

end

/-- A lane gives up its block to the queue, the exhausted blocks or a ticket: the same blocks stay
unresolved. -/
theorem mem_pool_released (held : (lane, block) ∈ dispatch.fetching)
    (fetching : next.fetching = dispatch.fetching.erase (lane, block))
    (others : ∀ other, (other ∈ next.work.queue ∨ other ∈ next.work.exhausted ∨
          ∃ ticket ∈ next.tickets, ticket.block = other) ↔
        other = block ∨ other ∈ dispatch.work.queue ∨ other ∈ dispatch.work.exhausted ∨
          ∃ ticket ∈ dispatch.tickets, ticket.block = other) (other : BlockInfo) :
    other ∈ next.pool ↔ other ∈ dispatch.pool := by
  have here := others other
  have kept := @held_erase dispatch lane block other
  have before : (∃ held ∈ dispatch.fetching.erase (lane, block), held.2 = other) →
      ∃ held ∈ dispatch.fetching, held.2 = other := by
    rintro ⟨found, member, same⟩
    exact ⟨found, mem_of_mem_erase member, same⟩
  have inside : other = block → ∃ held ∈ dispatch.fetching, held.2 = other := by
    rintro rfl
    exact ⟨_, held, rfl⟩
  rw [mem_pool, mem_pool, fetching]
  constructor
  · rintro (elsewhere | found)
    · rcases here.mp elsewhere with same | stays
      · exact .inr (inside same)
      · exact .inl stays
    · exact .inr (before found)
  · rintro (elsewhere | found)
    · exact .inl (here.mpr (.inr elsewhere))
    · rcases kept found with same | stays
      · exact .inl (here.mpr (.inl same))
      · exact .inr stays

section

variable (sound : Sound codec blocks candidates dispatch)

include sound

theorem length_released
    (held : (lane, block) ∈ dispatch.fetching) :
    dispatch.work.outstanding =
      (dispatch.fetching.erase (lane, block)).length + 1 + dispatch.tickets.length := by
  have some := length_pos_of_mem held
  rw [sound.outstanding, length_erase_of_mem held]
  omega

theorem Sound.received
    (held : (lane, block) ∈ dispatch.fetching) {data : Bytes}
    (same : codec.blockDataMatches block data = true) (now : Instant) (answers : List Answer) :
    Sound codec blocks candidates { dispatch.back lane block now answers with
        tickets := ⟨lane, block, data⟩ :: dispatch.tickets } := by
  have pool := @mem_pool_released dispatch
    { dispatch.back lane block now answers with
      tickets := ⟨lane, block, data⟩ :: dispatch.tickets } lane block held rfl
    (fun other => by
      simp only [mem_cons, exists_eq_or_imp, back, @eq_comm _ block other]
      tauto)
  refine sound.of_pool ?_ pool ?_ rfl rfl (fun _ => mem_append_right _) (fun _ => id)
    (fun _ => id) (sound.left_mono id (fun _ => active_back now answers)
      (fun other => (pool other).mp) fun _ => id)
  · change dispatch.work.outstanding = (dispatch.fetching.erase (lane, block)).length +
      (dispatch.tickets.length + 1)
    rw [length_released sound held]
    omega
  · exact forall_mem_cons.mpr ⟨same, sound.verified⟩

theorem Sound.timedOut
    (held : (lane, block) ∈ dispatch.fetching) (now : Instant) (delay : Nat)
    (answers : List Answer) :
    Sound codec blocks candidates { dispatch.back lane block now answers with
        work := dispatch.work.markTimedOut block lane.1 now delay } := by
  have pool := @mem_pool_released dispatch
    { dispatch.back lane block now answers with
      work := dispatch.work.markTimedOut block lane.1 now delay } lane block held rfl
    (fun other => by
      simp only [BlockWorkQueue.markTimedOut, mem_append, mem_singleton, back]
      tauto)
  refine sound.of_pool ?_ pool sound.verified rfl rfl (fun _ => mem_append_right _)
    (fun _ => id) (fun _ => id) (sound.left_mono id (fun _ => active_back now answers)
      (fun other => (pool other).mp) fun _ => id)
  change dispatch.work.outstanding - 1 = (dispatch.fetching.erase (lane, block)).length +
    dispatch.tickets.length
  rw [length_released sound held]
  omega

theorem Sound.notFound
    (sizes : ∀ first ∈ blocks, ∀ second ∈ blocks, first.hash = second.hash →
      first.size = second.size)
    (held : (lane, block) ∈ dispatch.fetching) (now : Instant) {answers : List Answer}
    (answer : Answer) (made : answer ∈ answers) (hash : answer.hash = block.hash)
    (peer : answer.peerId = lane.1) (definitive : codec.definitive block answer.attempt = true) :
    Sound codec blocks candidates { dispatch.back lane block now answers with
        work := dispatch.work.markNotFound block lane.1
          (candidates.map Candidate.peerId) } := by
  have triedBy := @BlockWorkQueue.markNotFound_triedBy dispatch.work lane.1 block
    (candidates.map Candidate.peerId)
  have moved := @BlockWorkQueue.markNotFound_cases dispatch.work lane.1 block
    (candidates.map Candidate.peerId)
  have outstanding := @BlockWorkQueue.markNotFound_outstanding dispatch.work lane.1 block
    (candidates.map Candidate.peerId)
  have grows : ∀ entry ∈ dispatch.work.triedBy,
      entry ∈ (dispatch.work.markNotFound block lane.1
        (candidates.map Candidate.peerId)).triedBy := by
    intro entry member
    rw [triedBy]
    exact .tail _ member
  have pool := @mem_pool_released dispatch
    { dispatch.back lane block now answers with
      work := dispatch.work.markNotFound block lane.1
        (candidates.map Candidate.peerId) } lane block held rfl
    (fun other => by
      rcases moved with ⟨queue, spent, -⟩ | ⟨queue, spent⟩
      · simp only [queue, spent, mem_append, mem_singleton, back]
        tauto
      · simp only [queue, spent, mem_append, mem_singleton, back]
        tauto)
  constructor
  · change (dispatch.work.markNotFound block lane.1 _).outstanding =
      (dispatch.fetching.erase (lane, block)).length + dispatch.tickets.length
    rw [outstanding, length_released sound held]
    omega
  · exact fun other member => sound.requested other ((pool other).mp member)
  · intro other isBlock
    rcases sound.accounted other isBlock with inPool | stored
    · exact .inl ((pool other).mpr inPool)
    · exact .inr stored
  · exact sound.verified
  · intro entry member other isBlock same
    change entry ∈ (dispatch.work.markNotFound block lane.1 _).triedBy at member
    rw [triedBy] at member
    rcases mem_cons.mp member with rfl | before
    · have isRequested : block ∈ blocks :=
        sound.requested block (mem_pool.mpr (.inr ⟨_, held, rfl⟩))
      refine ⟨answer, mem_append_left _ made, hash.trans same.symm, peer, ?_⟩
      rw [codec.definitive_congr same (sizes other isBlock block isRequested same)]
      exact definitive
    · rcases sound.tried entry before other isBlock same with ⟨earlier, given, facts⟩
      exact ⟨earlier, mem_append_right _ given, facts⟩
  · intro other spent candidate member
    change other ∈ (dispatch.work.markNotFound block lane.1 _).exhausted at spent
    rcases moved with ⟨-, exhausted, all⟩ | ⟨-, exhausted⟩
    · rw [exhausted] at spent
      rcases mem_append.mp spent with before | here
      · exact grows _ (sound.exhausted other before candidate member)
      · rw [mem_singleton.mp here]
        exact all candidate.peerId (mem_map_of_mem member)
    · rw [exhausted] at spent
      exact grows _ (sound.exhausted other spent candidate member)
  · exact sound.left_mono id (fun _ => active_back now answers) (fun other => (pool other).mp)
      grows

theorem Sound.fetched
    (sizes : ∀ first ∈ blocks, ∀ second ∈ blocks, first.hash = second.hash →
      first.size = second.size)
    (held : (lane, block) ∈ dispatch.fetching) {attempts : List Attempt} {now : Instant}
    {delay : Nat}
    (conclusive : ((codec.endedBy block.hash 1 attempts).all fun attempt =>
      !attempt.inconclusive block.hash) = true)
    (fetched : dispatch.fetched codec (candidates.map Candidate.peerId) lane block attempts now
      delay = some next) : Sound codec blocks candidates next := by
  -- The attempt that ended the fetch is what a trial is recorded with.
  have refused : ∀ attempt, codec.endedBy block.hash 1 attempts = some attempt →
      (∀ data, (codec.fetchBlockRaw block.hash attempt).intoBytes = some data →
        codec.blockDataMatches block data = false) →
      Sound codec blocks candidates
        { dispatch.back lane block now (recordOf codec block lane.1 attempts) with
          work := dispatch.work.markNotFound block lane.1
            (candidates.map Candidate.peerId) } := by
    intro attempt ended gave
    rw [ended, Option.all_some, Bool.not_eq_true'] at conclusive
    apply sound.notFound sizes held now ⟨block.hash, lane.1, attempt⟩ _ rfl rfl
      (codec.definitive_of_conclusive conclusive gave)
    rw [recordOf, ended]
    exact .head _
  rw [Dispatch.fetched, Codec.fetchBlockSized] at fetched
  cases ended : codec.endedBy block.hash 1 attempts with
  | none =>
    rw [ended] at fetched
    dsimp only [Option.map_none] at fetched
    split at fetched
    · cases fetched
      exact sound.timedOut held now delay _
    · cases fetched
  | some attempt =>
    rw [ended] at fetched
    dsimp only [Option.map_some] at fetched
    cases gave : (codec.fetchBlockRaw block.hash attempt).intoBytes with
    | none =>
      rw [gave] at fetched
      cases fetched
      apply refused attempt ended
      intro data given
      rw [gave] at given
      cases given
    | some data =>
      rw [gave] at fetched
      dsimp only at fetched
      split at fetched
      · rename_i same
        cases fetched
        exact sound.received held same now _
      · rename_i other
        cases fetched
        apply refused attempt ended
        intro given isGiven
        rw [gave] at isGiven
        cases isGiven
        exact Bool.eq_false_iff.mpr other

end

theorem mem_pool_of_settled (member : other ∈ dispatch.pool) :
    other = ticket.block ∨ other ∈ dispatch.work.queue ∨ other ∈ dispatch.work.exhausted ∨
      (∃ held ∈ dispatch.tickets.erase ticket, held.block = other) ∨
      ∃ held ∈ dispatch.fetching, held.2 = other := by
  rcases mem_pool.mp member with (queued | spent | found) | held
  · exact .inr (.inl queued)
  · exact .inr (.inr (.inl spent))
  · rcases ticket_erase found with same | stays
    · exact .inl same
    · exact .inr (.inr (.inr (.inl stays)))
  · exact .inr (.inr (.inr (.inr held)))

theorem mem_of_mem_erase_tickets
    (found : ∃ held ∈ dispatch.tickets.erase ticket, held.block = other) :
    ∃ held ∈ dispatch.tickets, held.block = other := by
  rcases found with ⟨held, member, same⟩
  exact ⟨held, mem_of_mem_erase member, same⟩

section

variable (sound : Sound codec blocks candidates dispatch)

include sound

theorem Sound.failed
    (held : ticket ∈ dispatch.tickets) (error : BlockDispatchFatal) (store : List Bytes) :
    Sound codec blocks candidates
      { dispatch.failed ticket error with store := store ++ dispatch.store } := by
  refine sound.of_pool ?_ (fun other => ⟨fun member => ?_, fun member => ?_⟩)
    (fun other member => sound.verified other (mem_of_mem_erase member)) rfl rfl
    (fun _ => id) (fun _ => mem_append_right store) (fun _ => id)
    fun healthy => by cases healthy
  · have some := length_pos_of_mem held
    change dispatch.work.outstanding - 1 = dispatch.fetching.length +
      (dispatch.tickets.erase ticket).length
    rw [sound.outstanding, length_erase_of_mem held]
    omega
  · rcases mem_pool.mp member with (queued | spent | found) | inFetch
    · rcases mem_append.mp queued with before | here
      · exact mem_pool.mpr (.inl (.inl before))
      · rw [mem_singleton.mp here]
        exact mem_pool.mpr (.inl (.inr (.inr ⟨ticket, held, rfl⟩)))
    · exact mem_pool.mpr (.inl (.inr (.inl spent)))
    · exact mem_pool.mpr (.inl (.inr (.inr (mem_of_mem_erase_tickets found))))
    · exact mem_pool.mpr (.inr inFetch)
  · rcases mem_pool_of_settled member with same | queued | spent | found | inFetch
    · exact mem_pool.mpr (.inl (.inl (mem_append_right _ (mem_singleton.mpr same))))
    · exact mem_pool.mpr (.inl (.inl (mem_append_left _ queued)))
    · exact mem_pool.mpr (.inl (.inr (.inl spent)))
    · exact mem_pool.mpr (.inl (.inr (.inr found)))
    · exact mem_pool.mpr (.inr inFetch)

theorem Sound.durable
    (held : ticket ∈ dispatch.tickets) :
    Sound codec blocks candidates (dispatch.persisted ticket .durable) := by
  have pool : ∀ other ∈ (dispatch.persisted ticket .durable).pool, other ∈ dispatch.pool := by
    intro other member
    rcases mem_pool.mp member with (queued | spent | found) | inFetch
    · exact mem_pool.mpr (.inl (.inl queued))
    · exact mem_pool.mpr (.inl (.inr (.inl spent)))
    · exact mem_pool.mpr (.inl (.inr (.inr (mem_of_mem_erase_tickets found))))
    · exact mem_pool.mpr (.inr inFetch)
  constructor
  · have some := length_pos_of_mem held
    change dispatch.work.outstanding - 1 = dispatch.fetching.length +
      (dispatch.tickets.erase ticket).length
    rw [sound.outstanding, length_erase_of_mem held]
    omega
  · exact fun other member => sound.requested other (pool other member)
  · intro other isBlock
    rcases sound.accounted other isBlock with inPool | stored
    · rcases mem_pool_of_settled inPool with same | queued | spent | found | inFetch
      · right
        rw [same]
        exact ⟨⟨ticket.data, .head _, sound.verified ticket held⟩,
          .head _⟩
      · exact .inl (mem_pool.mpr (.inl (.inl queued)))
      · exact .inl (mem_pool.mpr (.inl (.inr (.inl spent))))
      · exact .inl (mem_pool.mpr (.inl (.inr (.inr found))))
      · exact .inl (mem_pool.mpr (.inr inFetch))
    · exact .inr (stored.mono (fun _ => .tail _) fun _ => .tail _)
  · exact fun other member => sound.verified other (mem_of_mem_erase member)
  · exact sound.tried
  · exact sound.exhausted
  · exact sound.left_mono id (fun _ => id) pool fun _ => id

theorem Sound.persisted
    (held : ticket ∈ dispatch.tickets) (outcome : PersistOutcome) :
    Sound codec blocks candidates (dispatch.persisted ticket outcome) := by
  cases outcome with
  | durable => exact sound.durable held
  | storageFailed => exact sound.failed held .storage []
  | storageTaskFailed => exact sound.failed held .workerTask []
  | provenanceFailed => exact sound.failed held .provenance [ticket.data]
  | provenanceTaskFailed => exact sound.failed held .workerTask [ticket.data]

theorem Sound.step
    (sizes : ∀ first ∈ blocks, ∀ second ∈ blocks, first.hash = second.hash →
      first.size = second.size) {event : DispatchEvent}
    (conclusive : dispatch.conclusive codec event = true)
    (stepped : dispatch.step codec (candidates.map Candidate.peerId) event = some next) :
    Sound codec blocks candidates next := by
  cases event with
  | poll lane now later =>
    rw [Dispatch.step] at stepped
    split at stepped
    · cases stepped
      exact sound.poll (Bool.not_eq_true' _ |>.mp conclusive)
    · cases stepped
  | fetched lane block attempts now delay =>
    rw [Dispatch.step] at stepped
    split at stepped
    · rename_i ready
      exact sound.fetched sizes ready.1 conclusive stepped
    · cases stepped
  | persisted ticket outcome =>
    rw [Dispatch.step] at stepped
    split at stepped
    · rename_i held
      cases stepped
      exact sound.persisted held outcome
    · cases stepped

end

theorem sound_start (blocks : List BlockInfo) (candidates : List Candidate)
    (store provenance : List Bytes) (clock : Instant) :
    Sound codec blocks candidates (start blocks candidates store provenance clock) := by
  have pool : (start blocks candidates store provenance clock).pool = blocks := by
    simp [Dispatch.pool, start, BlockWorkQueue.new]
  constructor
  · rfl
  · rw [pool]
    exact fun _ => id
  · rw [pool]
    exact fun _ => .inl
  · exact fun ticket member => absurd member not_mem_nil
  · exact fun entry member => absurd member not_mem_nil
  · exact fun block member => absurd member not_mem_nil
  · intro _ candidate member
    rw [pool]
    cases empty : blocks.isEmpty with
    | true =>
      rw [List.isEmpty_iff.mp empty]
      exact .inr fun block inside => absurd inside not_mem_nil
    | false =>
      have some : candidates.isEmpty = false := by
        cases candidates with
        | nil => cases member
        | cons => rfl
      left
      left
      refine ⟨(candidate.peerId, 0), ?_, rfl⟩
      change _ ∈ (if blocks.isEmpty || candidates.isEmpty then [] else lanesOf candidates)
      rw [empty, some, Bool.or_self, if_neg Bool.false_ne_true]
      apply mem_flatMap.mpr
      exact ⟨candidate, member, mem_map_of_mem (mem_range.mpr candidate.fetchWindow_pos)⟩

theorem returned_ok {missing : List BlockInfo} (returned : dispatch.returned = some (.ok missing)) :
    dispatch.polling = [] ∧ dispatch.fetching = [] ∧ dispatch.tickets = [] ∧
      dispatch.fatal = none ∧ dispatch.work.remaining = missing := by
  rw [Dispatch.returned] at returned
  split at returned
  · rename_i settled
    simp only [Bool.and_eq_true, List.isEmpty_iff] at settled
    cases healthy : dispatch.fatal with
    | some error =>
      rw [healthy] at returned
      cases returned
    | none =>
      rw [healthy] at returned
      cases returned
      exact ⟨settled.1.1, settled.1.2, settled.2, rfl, rfl⟩
  · cases returned

end Dispatch

/-! ## Whole dispatches -/

/-- Where no fetch is ended by silence, a broken stream or a busy answer and no lane leaves at a
cooldown's end, every block reported missing was answered definitively by every candidate, and
every other one is stored with its provenance. -/
theorem missing_blocks_answered (codec : Codec) (blocks : List BlockInfo)
    (candidates : List Candidate) (store provenance : List Bytes) (clock : Instant)
    (events : List DispatchEvent) (last : Dispatch) (missing : List BlockInfo)
    (sizes : ∀ first ∈ blocks, ∀ second ∈ blocks, first.hash = second.hash →
      first.size = second.size)
    (conclusive : Along (Dispatch.step codec (candidates.map Candidate.peerId))
      (fun dispatch event => dispatch.conclusive codec event = true)
      (Dispatch.start blocks candidates store provenance clock) events)
    (ran : run (Dispatch.step codec (candidates.map Candidate.peerId))
      (Dispatch.start blocks candidates store provenance clock) events = some last)
    (returned : last.returned = some (.ok missing)) :
    (∀ block ∈ missing, last.AnsweredByAll codec candidates block) ∧
      ∀ block ∈ blocks, block ∉ missing → last.StoredWithProvenance codec block := by
  have sound : Dispatch.Sound codec blocks candidates last :=
    invariant_run (fun _ _ _ sound allowed stepped => sound.step sizes allowed stepped)
      (Dispatch.sound_start blocks candidates store provenance clock) conclusive ran
  rcases Dispatch.returned_ok returned with ⟨noPolling, noFetching, noTickets, healthy, rfl⟩
  have pool : last.pool = last.work.remaining := by
    simp [Dispatch.pool, BlockWorkQueue.remaining, noFetching, noTickets]
  constructor
  · intro block member candidate isCandidate
    have inPool : block ∈ last.pool := pool ▸ member
    rcases sound.left healthy candidate isCandidate with (⟨lane, polls, -⟩ | ⟨held, fetches, -⟩) | all
    · rw [noPolling] at polls
      cases polls
    · rw [noFetching] at fetches
      cases fetches
    · exact sound.tried _ (all block inPool) block (sound.requested block inPool) rfl
  · intro block isBlock found
    rcases sound.accounted block isBlock with inPool | stored
    · exact absurd (pool ▸ inPool) found
    · exact stored

/-! ## A peer that has a block, one that has not, and one that is silent -/

def hashOfOne : Bytes :=
  [0x4b, 0xf5, 0x12, 0x2f, 0x34, 0x45, 0x54, 0xc5, 0x3b, 0xde, 0x2e, 0xbb, 0x8c, 0xd2, 0xb7, 0xe3,
    0xd1, 0x60, 0x0a, 0xd6, 0x31, 0xc3, 0x85, 0xa5, 0xd7, 0xcc, 0xe2, 0x3c, 0x77, 0x85, 0x45, 0x9a]

def hashOfTwo : Bytes :=
  [0xdb, 0xc1, 0xb4, 0xc9, 0x00, 0xff, 0xe4, 0x8d, 0x57, 0x5b, 0x5d, 0xa5, 0xc6, 0x38, 0x04, 0x01,
    0x25, 0xf6, 0x5d, 0xb0, 0xfe, 0x3e, 0x24, 0x49, 0x4b, 0x76, 0xea, 0x98, 0x64, 0x57, 0xd9, 0x86]

def sampleCodec : Codec where
  sha256 := fun data => if data = [1] then hashOfOne else if data = [2] then hashOfTwo else []
  zstdDecode := fun _ => none

def blockOne : BlockInfo := ⟨hashOfOne, 0, 1⟩

def blockTwo : BlockInfo := ⟨hashOfTwo, 1, 1⟩

def laptop : Candidate := ⟨"laptop", 1, by decide⟩

def phone : Candidate := ⟨"phone", 1, by decide⟩

/-- The laptop has the first block only; the phone is slow once, and then refuses the second. -/
def secondBlockRefused : List DispatchEvent :=
  [.poll ("laptop", 0) 0 0,
    .fetched ("laptop", 0) blockOne
      [.exchanged (.response (.busy 10) none),
        .exchanged (.response (.found 1 hashOfOne 0) (some [1]))] 1 0,
    .poll ("phone", 0) 1 1,
    .fetched ("phone", 0) blockTwo [] 2 1000000000,
    .persisted ⟨("laptop", 0), blockOne, [1]⟩ .durable,
    .poll ("laptop", 0) 3 3,
    .fetched ("laptop", 0) blockTwo [.exchanged (.response .dontHave none)] 4 0,
    .poll ("phone", 0) 2000000000 2000000000,
    .fetched ("phone", 0) blockTwo [.exchanged (.response (.rejected "no provenance") none)]
      2000000001 0,
    .poll ("laptop", 0) 2000000002 2000000002,
    .poll ("phone", 0) 2000000003 2000000003]

theorem second_block_refused : ∃ last, run (Dispatch.step sampleCodec ["laptop", "phone"])
        (Dispatch.start [blockOne, blockTwo] [laptop, phone] [] [] 0) secondBlockRefused =
          some last ∧
      last.returned = some (.ok [blockTwo]) ∧
      last.AnsweredByAll sampleCodec [laptop, phone] blockTwo ∧
      last.StoredWithProvenance sampleCodec blockOne := by
  have facts : (run (Dispatch.step sampleCodec ["laptop", "phone"])
      (Dispatch.start [blockOne, blockTwo] [laptop, phone] [] [] 0) secondBlockRefused).map
        Dispatch.returned = some (some (.ok [blockTwo])) := by decide
  rcases Option.map_eq_some_iff.mp facts with ⟨last, ran, returned⟩
  have both := missing_blocks_answered sampleCodec [blockOne, blockTwo] [laptop, phone] [] [] 0
    secondBlockRefused last [blockTwo] (by decide) (by decide) ran returned
  exact ⟨last, ran, returned, both.1 blockTwo (.head _),
    both.2 blockOne (.head _) (by decide)⟩

/-- The only candidate never answers, and its block is given up on. -/
theorem silent_peer_counts_as_missing : ∃ last, run (Dispatch.step sampleCodec ["laptop"])
        (Dispatch.start [blockOne] [laptop] [] [] 0)
        [.poll ("laptop", 0) 0 0, .fetched ("laptop", 0) blockOne [.silent] 5000000000 0,
          .poll ("laptop", 0) 5000000001 5000000001] = some last ∧
      last.returned = some (.ok [blockOne]) ∧
      ¬ ∀ block ∈ [blockOne], last.AnsweredByAll sampleCodec [laptop] block := by
  have facts : (run (Dispatch.step sampleCodec ["laptop"])
      (Dispatch.start [blockOne] [laptop] [] [] 0)
      [.poll ("laptop", 0) 0 0, .fetched ("laptop", 0) blockOne [.silent] 5000000000 0,
        .poll ("laptop", 0) 5000000001 5000000001]).map
        (fun last => (last.returned, last.answers.map Answer.attempt)) =
      some (some (.ok [blockOne]), [.silent]) := by decide
  rcases Option.map_eq_some_iff.mp facts with ⟨last, ran, shape⟩
  rw [Prod.mk.injEq] at shape
  refine ⟨last, ran, shape.1, fun all => ?_⟩
  rcases all blockOne (.head _) laptop (.head _) with
    ⟨answer, made, -, -, definitive⟩
  have silent : answer.attempt ∈ [Attempt.silent] :=
    shape.2 ▸ List.mem_map_of_mem made
  rw [List.mem_singleton.mp silent] at definitive
  cases definitive

end Yadorilink.Hydration
