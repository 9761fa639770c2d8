import Yadorilink.Foundation.KeyedFold
import Yadorilink.Debounce.Accumulator

/-! No local change is lost on the way through the debouncer, as long as whoever asks for a
pending change takes the answer. -/

namespace Yadorilink.Debounce

open LatestWins Machine List

variable {P : Type}

def Window.pending : Window P → List (Observation P)
  | .accumulating pending _ _ => pending
  | _ => []

def Window.isBursting : Window P → Bool
  | .bursting _ _ => true
  | _ => false

/-- All entries of queued batches, in the order they will be sent. -/
def queued (queue : List (DebounceFlush P)) : List (Observation P) :=
  queue.flatMap DebounceFlush.entries

def Debouncer.known (debouncer : Debouncer P) : List (Observation P) :=
  queued debouncer.queue ++ debouncer.window.pending

theorem Debouncer.known_of_empty {debouncer : Debouncer P}
    (empty : debouncer.window.pending = []) : debouncer.known = queued debouncer.queue := by
  rw [known, empty, append_nil]

/-- The event is accounted for: the path is held, sent or handed over with this observation or a
later one, or a rescan is due, queued or was sent since. -/
def Covered (debouncer : Debouncer P) (index : Nat) (path : P) : Prop :=
  Covers Observation.path Observation.index debouncer.known path index ∨
  Covers Observation.path Observation.index
    (queued (debouncer.sent.map Prod.fst) ++ debouncer.handed) path index ∨
  debouncer.window.isBursting = true ∨
  .rescanRequired ∈ debouncer.queue ∨
  ∃ count, (.rescanRequired, count) ∈ debouncer.sent ∧ index < count

/-- Every event received so far is covered, and what is held is in the order it was received. -/
structure Sound (debouncer : Debouncer P) : Prop where
  covered : ∀ index path, debouncer.received[index]? = some path → Covered debouncer index path
  ascending : Ascending Observation.path Observation.index debouncer.known
  bounded : ∀ entry ∈ debouncer.known, entry.index < debouncer.received.length
  distinct : debouncer.window.pending.Pairwise fun first second => first.path ≠ second.path

theorem sound_start : Sound (start : Debouncer P) where
  covered := nofun
  ascending := List.Pairwise.nil
  bounded := nofun
  distinct := List.Pairwise.nil

/-! ## Steps that empty the window -/

variable {debouncer next : Debouncer P}

theorem Sound.overflow (sound : Sound debouncer) (windowStartedAt lastEventAt : Nat) :
    Sound { debouncer with window := .bursting windowStartedAt lastEventAt } where
  covered := fun _ _ _ => .inr (.inr (.inl rfl))
  ascending := by
    rw [Debouncer.known_of_empty rfl]
    exact (pairwise_append.mp sound.ascending).1
  bounded := by
    intro entry member
    rw [Debouncer.known_of_empty rfl] at member
    exact sound.bounded entry (mem_append_left _ member)
  distinct := List.Pairwise.nil

theorem Sound.hand (sound : Sound debouncer) (window : Window P)
    (calm : debouncer.window.isBursting = false)
    (handed : List (Observation P)) (fewer : window.pending.Sublist debouncer.window.pending)
    (accounted : ∀ entry ∈ debouncer.window.pending, entry ∈ window.pending ∨ entry ∈ handed) :
    Sound { debouncer with window := window, handed := debouncer.handed ++ handed } where
  covered := by
    intro index path received
    rcases sound.covered index path received with known | gone | bursting | rescan | sent
    · rcases covers_append_iff.mp known with inQueue | ⟨entry, member, about, high⟩
      · exact .inl inQueue.append_left
      · rcases accounted entry member with stays | leaves
        · exact .inl ⟨entry, mem_append_right _ stays, about, high⟩
        · refine .inr (.inl ⟨entry, ?_, about, high⟩)
          exact mem_append_right _ (mem_append_right _ leaves)
    · right
      left
      rw [← append_assoc]
      exact gone.append_left
    · exact absurd (bursting.symm.trans calm) nofun
    · exact .inr (.inr (.inr (.inl rescan)))
    · exact .inr (.inr (.inr (.inr sent)))
  ascending := sound.ascending.sublist (List.Sublist.append_left fewer _)
  bounded := by
    intro entry member
    exact sound.bounded entry ((List.Sublist.append_left fewer _).subset member)
  distinct := sound.distinct.sublist fewer

theorem pending_windowOf (pending : List (Observation P)) (windowStartedAt lastEventAt : Nat) :
    (windowOf pending windowStartedAt lastEventAt).pending = pending := by
  rw [windowOf]
  split
  · rename_i empty
    rw [isEmpty_iff.mp empty]
    rfl
  · rfl

theorem Sound.answerAll (sound : Sound debouncer) (replyReceived : Bool)
    (delivered : replyReceived = true ∨ debouncer.window.pending = []) :
    Sound (debouncer.answerAll replyReceived) := by
  rw [Debouncer.answerAll]
  split
  · rename_i pending windowStartedAt lastEventAt window
    have held : debouncer.window.pending = pending := by
      rw [window]
      rfl
    rw [held] at delivered
    apply sound.hand _ (by rw [window]; rfl)
    · exact nil_sublist _
    · intro entry member
      rw [held] at member
      right
      rcases delivered with received | empty
      · rw [received]
        exact member
      · rw [empty] at member
        cases member
  · exact sound

/-! ## The queue -/

variable {queue : List (DebounceFlush P)} {flush : DebounceFlush P}

theorem queued_append (first second : List (DebounceFlush P)) :
    queued (first ++ second) = queued first ++ queued second :=
  flatMap_append

theorem Sound.send (sound : Sound debouncer) {front : DebounceFlush P}
    {rest : List (DebounceFlush P)} (split : debouncer.queue = front :: rest) :
    Sound { debouncer with
      queue := rest, sent := debouncer.sent ++ [(front, debouncer.received.length)] } := by
  have known : debouncer.known = front.entries ++ (queued rest ++ debouncer.window.pending) := by
    rw [Debouncer.known, split, queued, flatMap_cons, append_assoc]
    rfl
  have gone : queued ((debouncer.sent ++ [(front, debouncer.received.length)]).map Prod.fst) =
      queued (debouncer.sent.map Prod.fst) ++ front.entries := by
    rw [map_append, queued_append]
    exact congrArg _ (flatMap_singleton _ _)
  exact {
    covered := by
      intro index path received
      rcases sound.covered index path received with held | left | bursting | rescan | sent
      · rw [known] at held
        rcases covers_append_iff.mp held with now | later
        · right
          left
          rw [gone]
          exact now.append_right.append_left
        · exact .inl later
      · right
        left
        rw [gone, append_assoc]
        rcases covers_append_iff.mp left with before | handed
        · exact before.append_left
        · exact handed.append_right.append_right
      · exact .inr (.inr (.inl bursting))
      · rw [split] at rescan
        rcases mem_cons.mp rescan with first | further
        · have early : index < debouncer.received.length := (List.getElem?_eq_some_iff.mp received).1
          rw [← first]
          refine .inr (.inr (.inr (.inr ⟨_, mem_append_right _ ?_, early⟩)))
          exact .head _
        · exact .inr (.inr (.inr (.inl further)))
      · obtain ⟨count, member, early⟩ := sent
        exact .inr (.inr (.inr (.inr ⟨count, mem_append_left _ member, early⟩)))
    ascending := by
      have ascending := sound.ascending
      rw [known] at ascending
      exact (pairwise_append.mp ascending).2.1
    bounded := by
      intro entry member
      apply sound.bounded entry
      rw [known]
      exact mem_append_right _ member
    distinct := sound.distinct }

variable [DecidableEq P]

theorem pushReady_subset : queued (pushReady queue flush) ⊆ queued (queue ++ [flush]) := by
  rw [pushReady]
  split
  · split
    · exact nil_subset _
    · rw [queued, flatMap_singleton]
      exact merge_subset _
  · exact List.Subset.refl _

theorem pushReady_ascending {others : List (Observation P)}
    (ascending : Ascending Observation.path Observation.index
      (queued (queue ++ [flush]) ++ others)) :
    Ascending Observation.path Observation.index (queued (pushReady queue flush) ++ others) := by
  rw [pushReady]
  split
  · split
    · exact (pairwise_append.mp ascending).2.1
    · rw [queued, flatMap_singleton]
      exact ascending.merge
  · exact ascending

theorem pushReady_covers {path : P} {index : Nat}
    (ascending : Ascending Observation.path Observation.index (queued (queue ++ [flush])))
    (covered : Covers Observation.path Observation.index (queued (queue ++ [flush])) path index ∨
      .rescanRequired ∈ queue ++ [flush]) :
    Covers Observation.path Observation.index (queued (pushReady queue flush)) path index ∨
      .rescanRequired ∈ pushReady queue flush := by
  rw [pushReady]
  split
  · split
    · exact .inr (.head _)
    · rename_i noRescan
      rcases covered with covers | rescan
      · left
        rw [queued, flatMap_singleton]
        exact covers.merge ascending
      · exact absurd (any_eq_true.mpr ⟨_, rescan, rfl⟩) noRescan
  · exact covered

/-! ## Steps that fill the window or the queue -/

theorem Sound.close (sound : Sound debouncer) (calm : debouncer.window.isBursting = false) :
    Sound { debouncer with
      window := .idle, queue := pushReady debouncer.queue (.paths debouncer.window.pending) } := by
  have same : queued (debouncer.queue ++ [DebounceFlush.paths debouncer.window.pending]) = debouncer.known := by
    rw [queued_append, Debouncer.known]
    exact congrArg _ (flatMap_singleton _ _)
  exact {
    covered := by
      intro index path received
      have push : Covers Observation.path Observation.index debouncer.known path index ∨
          .rescanRequired ∈ debouncer.queue → Covered { debouncer with
            window := .idle
            queue := pushReady debouncer.queue (.paths debouncer.window.pending) } index path := by
        intro held
        rw [← same] at held
        have pushed := pushReady_covers (by rw [same]; exact sound.ascending)
          (held.imp_right (mem_append_left _))
        rcases pushed with covers | rescan
        · exact .inl covers.append_left
        · exact .inr (.inr (.inr (.inl rescan)))
      rcases sound.covered index path received with known | gone | bursting | rescan | rescanned
      · exact push (.inl known)
      · exact .inr (.inl gone)
      · exact absurd (bursting.symm.trans calm) nofun
      · exact push (.inr rescan)
      · exact .inr (.inr (.inr (.inr rescanned)))
    ascending := by
      apply pushReady_ascending
      rw [same]
      change Ascending _ _ (_ ++ [])
      rw [append_nil]
      exact sound.ascending
    bounded := by
      intro entry member
      rw [Debouncer.known_of_empty rfl] at member
      have inQueue := pushReady_subset member
      rw [same] at inQueue
      exact sound.bounded entry inQueue
    distinct := List.Pairwise.nil }

theorem Sound.requireRescan (sound : Sound debouncer) : Sound { debouncer with
      window := .idle, queue := pushReady debouncer.queue .rescanRequired } := by
  have same : queued (debouncer.queue ++ [DebounceFlush.rescanRequired]) = queued debouncer.queue := by
    rw [queued_append]
    exact append_nil _
  have ascending := (pairwise_append.mp sound.ascending).1
  exact {
    covered := by
      intro index path _
      have pushed := @pushReady_covers _ debouncer.queue .rescanRequired _ path index
        (by rw [same]; exact ascending) (.inr (mem_append_right _ (.head _)))
      rcases pushed with covers | rescan
      · exact .inl covers.append_left
      · exact .inr (.inr (.inr (.inl rescan)))
    ascending := by
      apply pushReady_ascending
      rw [same]
      change Ascending _ _ (_ ++ [])
      rw [append_nil]
      exact ascending
    bounded := by
      intro entry member
      rw [Debouncer.known_of_empty rfl] at member
      have inQueue := pushReady_subset member
      rw [same] at inQueue
      exact sound.bounded entry (mem_append_left _ inQueue)
    distinct := List.Pairwise.nil }

theorem Sound.fold (sound : Sound debouncer) (calm : debouncer.window.isBursting = false)
    (observation : Observation P) (index : observation.index = debouncer.received.length)
    (windowStartedAt lastEventAt : Nat) :
    Sound { debouncer with
      window := .accumulating (upsert Observation.path debouncer.window.pending observation)
        windowStartedAt lastEventAt
      received := debouncer.received ++ [observation.path] } := by
  have highest : ∀ entry ∈ debouncer.known, entry.index ≤ observation.index := by
    intro entry member
    rw [index]
    exact Nat.le_of_lt (sound.bounded entry member)
  exact {
    covered := by
      intro position path received
      rw [getElem?_append] at received
      split at received
      · rcases sound.covered position path received with known | gone | bursting | rescan | sent
        · left
          rcases covers_append_iff.mp known with inQueue | inWindow
          · exact inQueue.append_left
          · exact (inWindow.upsert fun entry member =>
              highest entry (mem_append_right _ member)).append_right
        · exact .inr (.inl gone)
        · exact absurd (bursting.symm.trans calm) nofun
        · exact .inr (.inr (.inr (.inl rescan)))
        · exact .inr (.inr (.inr (.inr sent)))
      · rename_i beyond
        rw [getElem?_singleton] at received
        split at received
        · cases received
          left
          apply Covers.append_right
          exact ⟨observation, mem_upsert_iff.mpr (.inr rfl), rfl, by omega⟩
        · cases received
    ascending := sound.ascending.upsert highest
    bounded := by
      intro entry member
      rw [length_append, length_singleton]
      rcases mem_append.mp member with inQueue | inWindow
      · exact Nat.lt_succ_of_lt (sound.bounded entry (mem_append_left _ inQueue))
      · rcases mem_upsert_iff.mp inWindow with old | new
        · exact Nat.lt_succ_of_lt (sound.bounded entry (mem_append_right _ old.1))
        · rw [new, index]
          exact Nat.lt_succ_self _
    distinct := foldl_upsert_distinct sound.distinct [observation] }

theorem Sound.extend (config : DebounceConfig) (sound : Sound debouncer)
    (calm : debouncer.window.isBursting = false) (event : FsChangeEvent P)
    (windowStartedAt : Nat) :
    Sound (Debouncer.queueFlush { debouncer with
        window := (extendWindow config debouncer.window.pending
          (event.observe debouncer.received.length) windowStartedAt event.now).1
        received := debouncer.received ++ [event.path] }
      (extendWindow config debouncer.window.pending (event.observe debouncer.received.length)
        windowStartedAt event.now).2) := by
  have folded := sound.fold calm (event.observe debouncer.received.length) rfl windowStartedAt
    event.now
  rw [extendWindow]
  split
  · exact folded.close rfl
  · exact folded

theorem Sound.receive (config : DebounceConfig) (sound : Sound debouncer)
    (event : FsChangeEvent P) : Sound (debouncer.receive config event) := by
  cases window : debouncer.window with
  | idle =>
    have extended := sound.extend config (by rw [window]; rfl) event event.now
    rw [window] at extended
    rw [Debouncer.receive, window]
    exact extended
  | accumulating pending windowStartedAt lastEventAt =>
    have extended := sound.extend config (by rw [window]; rfl) event windowStartedAt
    rw [window] at extended
    rw [Debouncer.receive, window]
    exact extended
  | bursting windowStartedAt lastEventAt =>
    rw [Debouncer.receive, window]
    have stays := sound.overflow windowStartedAt event.now
    exact {
      covered := fun _ _ _ => .inr (.inr (.inl rfl))
      ascending := stays.ascending
      bounded := by
        intro entry member
        have bound : entry.index < debouncer.received.length := stays.bounded entry member
        change entry.index < (debouncer.received ++ [event.path]).length
        rw [length_append]
        exact Nat.lt_add_right _ bound
      distinct := stays.distinct }

theorem Sound.drainReadyEvents (config : DebounceConfig) (sound : Sound debouncer)
    (ready : List (FsChangeEvent P)) : Sound (debouncer.drainReadyEvents config ready) := by
  rw [Debouncer.drainReadyEvents]
  induction ready generalizing debouncer with
  | nil => exact sound
  | cons event ready induction => exact induction (sound.receive config event)

theorem mem_of_takenEntry {parts : PathParts P} {path : P} {mode : FlushMode} {pick : Nat}
    {pending : List (Observation P)} {taken : Observation P}
    (found : takenEntry parts path mode pick pending = some taken) : taken ∈ pending := by
  cases mode with
  | exactPath => exact mem_of_find?_eq_some found
  | caseFoldSibling =>
    have sibling := mem_of_getElem? found
    exact (mem_filter.mp sibling).1

theorem Sound.answerPath (parts : PathParts P) (sound : Sound debouncer) (path : P)
    (mode : FlushMode) (pick : Nat) (replyReceived : Bool)
    (delivered : replyReceived = true ∨
      takenEntry parts path mode pick debouncer.window.pending = none) :
    Sound (debouncer.answerPath parts path mode pick replyReceived) := by
  rw [Debouncer.answerPath]
  split
  · rename_i pending windowStartedAt lastEventAt window
    have held : debouncer.window.pending = pending := by
      rw [window]
      rfl
    rw [held] at delivered
    dsimp only
    apply sound.hand _ (by rw [window]; rfl)
    · rw [pending_windowOf, held, withoutTaken.eq_def]
      split
      · exact List.Sublist.refl pending
      · exact filter_sublist
    · intro entry member
      rw [held] at member
      rw [pending_windowOf, withoutTaken.eq_def]
      cases found : takenEntry parts path mode pick pending with
      | none => exact .inl member
      | some taken =>
        have received : replyReceived = true := delivered.resolve_right (by rw [found]; nofun)
        by_cases same : entry.path = taken.path
        · right
          have distinct := sound.distinct
          rw [held] at distinct
          have isTaken : entry = taken :=
            KeyedFold.eq_of_key distinct member (mem_of_takenEntry found) same
          rw [received, isTaken]
          exact .head _
        · left
          exact mem_filter.mpr ⟨member, decide_eq_true same⟩
  · exact sound

/-! ## Whole runs -/

/-- A request that takes something out of the window is made by someone who still waits for the
answer when it is given. -/
def Delivered (config : DebounceConfig) (parts : PathParts P) (debouncer : Debouncer P) :
    Event P → Prop
  | .flushPath path mode pick ready replyReceived =>
    replyReceived = true ∨ takenEntry parts path mode pick
        (debouncer.drainReadyEvents config ready).window.pending = none
  | .flushAll ready replyReceived =>
    replyReceived = true ∨ (debouncer.drainReadyEvents config ready).window.pending = []
  | _ => True

instance Delivered.decidable (config : DebounceConfig) (parts : PathParts P)
    (debouncer : Debouncer P) (event : Event P) :
    Decidable (Delivered config parts debouncer event) :=
  match event with
  | .flushPath _ _ _ _ _ => inferInstanceAs (Decidable (_ ∨ _))
  | .flushAll _ _ => inferInstanceAs (Decidable (_ ∨ _))
  | .overflow _ | .send | .receive _ | .timer _ => .isTrue trivial

theorem Sound.step {config : DebounceConfig} {parts : PathParts P} {event : Event P}
    (sound : Sound debouncer) (delivered : Delivered config parts debouncer event)
    (stepped : step config parts debouncer event = some next) : Sound next := by
  cases event with
  | overflow now =>
    cases stepped
    exact sound.overflow now now
  | send =>
    rw [Debounce.step] at stepped
    split at stepped
    · cases stepped
    · rename_i front queue split
      cases stepped
      exact sound.send split
  | flushPath path mode pick ready replyReceived =>
    cases stepped
    exact (sound.drainReadyEvents config ready).answerPath parts path mode pick replyReceived
      delivered
  | flushAll ready replyReceived =>
    cases stepped
    exact (sound.drainReadyEvents config ready).answerAll replyReceived delivered
  | receive event =>
    cases stepped
    exact sound.receive config event
  | timer now =>
    rw [Debounce.step] at stepped
    split at stepped
    · cases stepped
    · split at stepped
      · split at stepped
        · cases stepped
          exact sound
        · rename_i pending windowStartedAt lastEventAt window
          cases stepped
          have closed := sound.close (by rw [window]; rfl)
          rw [window] at closed
          exact closed
        · cases stepped
          exact sound.requireRescan
      · cases stepped

/-- In every run whose requests are answered to someone who takes the answer, every event
received so far is held, sent, handed over or due for a rescan. -/
theorem debouncer_covers_every_event (config : DebounceConfig) (parts : PathParts P)
    (events : List (Event P)) (last : Debouncer P)
    (delivered : Along (step config parts) (Delivered config parts) start events)
    (ran : run (step config parts) start events = some last) (index : Nat) (path : P)
    (received : last.received[index]? = some path) : Covered last index path := by
  have sound : Sound last := by
    apply invariant_run _ sound_start delivered ran
    intro debouncer event next sound allowed stepped
    exact sound.step allowed stepped
  exact sound.covered index path received

def nameParts : PathParts (List String) where
  parent := fun path => if path.isEmpty then none else some path.dropLast
  fileName := List.getLast?
  toLowercase := String.toLower

def usualConfig : DebounceConfig :=
  { quietPeriod := 300, maxFlushInterval := 2000, burstThreshold := 500 }

def touched (path : List String) (now : Nat) : FsChangeEvent (List String) :=
  { path := path, kind := .createdOrModified, now := now, observedAtUnixNanos := now }

/-- A change goes out with its window, and a later one to the same path to a requester. -/
theorem debouncer_covers_every_event_notes : ((run (step usualConfig nameParts) start
      [.receive (touched ["notes"] 0), .timer 300, .send, .receive (touched ["notes"] 400),
        .flushPath ["notes"] .exactPath 0 [] true]).get (by decide)).received[1]? =
      some ["notes"] ∧
    Covered ((run (step usualConfig nameParts) start
      [.receive (touched ["notes"] 0), .timer 300, .send, .receive (touched ["notes"] 400),
        .flushPath ["notes"] .exactPath 0 [] true]).get (by decide)) 1 ["notes"] :=
  ⟨by decide, debouncer_covers_every_event usualConfig nameParts
    [.receive (touched ["notes"] 0), .timer 300, .send, .receive (touched ["notes"] 400),
      .flushPath ["notes"] .exactPath 0 [] true] _ (by decide) (Option.some_get _).symm 1
    ["notes"] (by decide)⟩

/-- A request whose requester gave up takes the change out of the window and hands it to no
one. -/
theorem abandoned_request_loses_change : ∃ last, run (step usualConfig nameParts) start
        [.receive (touched ["notes"] 0), .flushPath ["notes"] .exactPath 0 [] false] = some last ∧
      last.received[0]? = some ["notes"] ∧ ¬ Covered last 0 ["notes"] := by
  refine ⟨{ (start : Debouncer (List String)) with received := [["notes"]] }, by decide, rfl, ?_⟩
  intro covered
  rcases covered with ⟨entry, member, _⟩ | ⟨entry, member, _⟩ | bursting | queued | ⟨_, sent, _⟩
  · cases member
  · cases member
  · cases bursting
  · cases queued
  · cases sent

end Yadorilink.Debounce
