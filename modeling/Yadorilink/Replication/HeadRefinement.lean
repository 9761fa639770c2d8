import Yadorilink.Replication.Replicas

/-! Every state of a run represents the mutations its context observes: its
live heads are the puts no observed mutation removes. The representation is
kept by local mutations and by joins with stale states, and it is what the
oracle computes from the history. -/

namespace Yadorilink.Replicas

open Std NativeState List
open ObservedRemove (Live Closed)

/-! ## The invariant of a run -/

/-- `state` stands for the mutations of the run that its context observes. -/
structure Represents (world : World) (state : NativeState) : Prop where
  /-- No state knows more of an author than the author's own replica. -/
  bounded : ∀ author, seqIn state.context author ≤ seqIn (world.stateOf author).context author
  closed : Closed effects (world.known state.context)
  heads : ∀ path dot payload, state.headAt path dot = some payload ↔
    Live effects (world.known state.context) path dot payload
  noEmptyPath : NoEmptyPath state.heads
  ownBound : ∀ path author,
    ((state.dotsAt path).countP fun dot => dot.author = author) ≤ maxSelfHeads

structure Consistent (world : World) : Prop where
  current : ∀ replica, world.stateOf replica ∈ world.past
  represented : ∀ state, state ∈ world.past → Represents world state
  issued : ∀ mutation, mutation ∈ world.mutations → mutation.dot.seq ≠ 0 ∧
    mutation.dot.seq ≤ seqIn (world.stateOf mutation.dot.author).context mutation.dot.author
  dotsDistinct : (world.mutations.map Mutation.dot).Nodup
  pathsDistinct : ∀ mutation, mutation ∈ world.mutations → (mutation.edits.map PathEdit.path).Nodup

theorem Represents.stands {world : World} {state : NativeState} (represents : Represents world state) :
    Stands effects { mutation | mutation ∈ world.mutations } state :=
  ⟨represents.closed, represents.heads⟩

theorem represents_new (world : World) (noMutations : world.mutations = []) :
    Represents world .new := by
  have nothingKnown : ∀ mutation, mutation ∉ world.known NativeState.new.context := by
    intro mutation known
    have member := known.1
    rw [noMutations] at member
    cases member
  constructor
  · intro author
    simp [seqIn, NativeState.new]
  · intro mutation known
    exact absurd known (nothingKnown mutation)
  · intro path dot payload
    rw [headAt_new]
    constructor
    · intro impossible
      cases impossible
    · rintro ⟨mutation, known, _⟩
      exact absurd known (nothingKnown mutation)
  · exact valid_new.noEmptyPath
  · exact valid_new.ownBound

theorem consistent_start : Consistent World.start where
  current := fun _ => mem_singleton.mpr rfl
  represented := fun _ member =>
    mem_singleton.mp member ▸ represents_new World.start rfl
  issued := fun _ member => absurd member not_mem_nil
  dotsDistinct := nodup_nil
  pathsDistinct := fun _ member => absurd member not_mem_nil

variable {path : SyncPath}

namespace Consistent

variable {world : World} (consistent : Consistent world)

include consistent

theorem dot_injective {first second : Mutation} (firstMember : first ∈ world.mutations)
    (secondMember : second ∈ world.mutations) (sameDot : first.dot = second.dot) :
    first = second :=
  inj_on_of_nodup_map consistent.dotsDistinct firstMember secondMember sameDot

theorem apart : Apart effects { mutation | mutation ∈ world.mutations } where
  dots := fun _ first _ second => consistent.dot_injective first second
  puts := by
    intro mutation member path payload other puts otherPuts
    rcases puts with ⟨edit, editMember, rfl, puts⟩
    rw [puts_iff_of_mem (consistent.pathsDistinct mutation member) editMember, puts] at otherPuts
    exact Option.some.inj otherPuts

theorem payload_unique {left right : NativeState} (leftMember : left ∈ world.past)
    (rightMember : right ∈ world.past) {dot : Dot} {payload other : HeadPayload}
    (leftLive : left.headAt path dot = some payload)
    (rightLive : right.headAt path dot = some other) : payload = other :=
  consistent.apart.payload_unique (consistent.represented left leftMember).stands
    (consistent.represented right rightMember).stands leftLive rightLive

theorem join_succeeds {left right : NativeState} (leftMember : left ∈ world.past)
    (rightMember : right ∈ world.past) : ∃ joined, join left right = .ok joined :=
  join_total fun _ _ _ _ leftLive rightLive =>
    consistent.payload_unique leftMember rightMember leftLive rightLive

end Consistent

/-! ## Counting own heads -/

variable {state : NativeState}

theorem countP_dotsAt_le {selected : Dot → Bool} (others : List Dot)
    (within : ∀ dot payload, state.headAt path dot = some payload → selected dot = true →
      dot ∈ others) : (state.dotsAt path).countP selected ≤ others.length := by
  rw [countP_eq_length_filter]
  have distinct : ((state.dotsAt path).filter selected).Nodup :=
    List.Nodup.filter selected ExtTreeMap.nodup_keys
  refine (subperm_of_subset distinct fun dot member => ?_).length_le
  rw [mem_filter, mem_dotsAt_iff] at member
  rcases member with ⟨⟨payload, live⟩, isSelected⟩
  exact within dot payload live isSelected

theorem ownBound_of_subset {other : NativeState} {author : AuthorId}
    (bound : ((other.dotsAt path).countP fun dot => dot.author = author) ≤ maxSelfHeads)
    (within : ∀ dot payload, state.headAt path dot = some payload → dot.author = author →
      ∃ payload, other.headAt path dot = some payload) :
    ((state.dotsAt path).countP fun dot => dot.author = author) ≤ maxSelfHeads := by
  rw [countP_eq_length_filter] at bound
  refine Nat.le_trans (countP_dotsAt_le _ ?_) bound
  intro dot payload live isOwn
  rw [mem_filter, mem_dotsAt_iff]
  exact ⟨within dot payload live (by simpa using isOwn), isOwn⟩

/-! ## A local mutation -/

section Author

variable {world : World} {replica : AuthorId} {edits : List PathEdit} {dot : Dot}
  {next : NativeState} (consistent : Consistent world)
  (accepted : (world.stateOf replica).author replica edits = .ok (dot, next))

include consistent accepted

omit consistent in
private theorem issued_dot :
    dot.author = replica ∧ dot.seq = seqIn (world.stateOf replica).context replica + 1 :=
  nextDot_ok (author_ok accepted).2.1

omit consistent in
private theorem dot_eq : effects.key ⟨dot, edits⟩ = ⟨replica, dot.seq⟩ := by
  rw [← (issued_dot accepted).1]
  rfl

omit consistent in
private theorem next_context :
    next.context = (world.stateOf replica).context.insert replica dot.seq := by
  rw [(author_ok accepted).2.2]

private theorem fresh_dot {mutation : Mutation} (member : mutation ∈ world.mutations) :
    mutation.dot ≠ dot := by
  intro same
  have issuedFacts := issued_dot accepted
  have bound := (consistent.issued mutation member).2
  rw [same, issuedFacts.1, issuedFacts.2] at bound
  exact absurd bound (Nat.not_succ_le_self _)

omit consistent in
private theorem dot_seq_ne_zero : dot.seq ≠ 0 := by
  rw [(issued_dot accepted).2]
  exact Nat.succ_ne_zero _

omit consistent in
private theorem ownSeq_mono (author : AuthorId) : seqIn (world.stateOf author).context author ≤
      seqIn (Function.update world.stateOf replica next author).context author := by
  refine seqIn_update ?_ author
  rw [next_context accepted, seqIn_insert_self, (issued_dot accepted).2]
  omega

omit consistent accepted in
private theorem known_moveTo (state : NativeState) :
    (world.moveTo replica next (⟨dot, edits⟩ :: world.mutations)).known state.context =
      knownTo effects (insert ⟨dot, edits⟩ { mutation | mutation ∈ world.mutations })
        state.context := by
  ext mutation
  simp [World.known, World.moveTo, knownTo, effects]

private theorem known_of_past (member : state ∈ world.past) :
    (world.moveTo replica next (⟨dot, edits⟩ :: world.mutations)).known state.context =
      world.known state.context := by
  rw [known_moveTo]
  exact knownTo_of_past (dot_eq accepted) (issued_dot accepted).2
    ((consistent.represented state member).bounded replica)

private theorem known_of_next :
    (world.moveTo replica next (⟨dot, edits⟩ :: world.mutations)).known next.context =
      insert ⟨dot, edits⟩ (world.known (world.stateOf replica).context) := by
  rw [known_moveTo]
  exact knownTo_of_next (dot_eq accepted) (issued_dot accepted).2 (next_context accepted)
    consistent.issued

private theorem observed_known {removed : Dot}
    (removes : effects.removes ⟨dot, edits⟩ path removed) :
    ∃ mutation, mutation ∈ world.known (world.stateOf replica).context ∧
      mutation.dot = removed := by
  rcases removes with ⟨edit, member, rfl, observed⟩
  have allowed := (checkEdits_ok (author_ok accepted).1).2 edit member
  rcases allowed.observedCurrent removed observed with ⟨payload, live⟩
  have represented := consistent.represented _ (consistent.current replica)
  rcases (represented.heads edit.path removed payload).mp live with
    ⟨mutation, known, sameKey, _⟩
  exact ⟨mutation, known, sameKey⟩

private theorem dot_unremoved (other : Mutation)
    (member : other ∈ insert ⟨dot, edits⟩ (world.known (world.stateOf replica).context))
    (path : SyncPath) : ¬effects.removes other path dot := by
  intro removes
  have putter : ∃ mutation, mutation ∈ world.known (world.stateOf replica).context ∧
      mutation.dot = dot := by
    rcases member with rfl | known
    · exact observed_known consistent accepted removes
    · exact (consistent.represented _ (consistent.current replica)).closed
        other known path dot removes
  rcases putter with ⟨mutation, known, sameDot⟩
  exact fresh_dot consistent accepted known.1 sameDot

private theorem heads_of_next (path : SyncPath) (target : Dot) (payload : HeadPayload) :
    next.headAt path target = some payload ↔
      Live effects (insert ⟨dot, edits⟩ (world.known (world.stateOf replica).context))
        path target payload := by
  have facts := author_ok accepted
  have distinct := (checkEdits_ok facts.1).1
  have represented := consistent.represented _ (consistent.current replica)
  rw [ObservedRemove.live_insert_iff (dot_unremoved consistent accepted), facts.2.2,
    ← represented.heads]
  by_cases touched : path ∈ edits.map PathEdit.path
  · rcases mem_map.mp touched with ⟨edit, member, rfl⟩
    rw [headAt_edits_of_mem _ _ dot edits distinct member,
      puts_iff_of_mem distinct member, removes_iff_of_mem distinct member]
    -- The new dot is no head of the old state.
    have notOld : ∀ payload, (world.stateOf replica).headAt edit.path dot ≠ some payload := by
      intro old live
      rcases (represented.heads edit.path dot old).mp live with ⟨mutation, known, sameKey, _⟩
      exact fresh_dot consistent accepted known.1 sameKey
    by_cases same : dot = target
    · subst same
      have unobserved : dot ∉ edit.observed := fun observed => by
        rcases ((checkEdits_ok facts.1).2 edit member).observedCurrent dot observed
          with ⟨old, live⟩
        exact notOld old live
      cases put : edit.put with
      | none => simp [effects, unobserved, notOld]
      | some landed => simp [effects, notOld]
    · simp only [same, false_and, if_false, effects]
      by_cases observed : target ∈ edit.observed
      · simp [observed]
      · simp [observed]
  · rw [headAt_edits_of_not_mem _ _ dot edits touched]
    have noPut : ¬effects.puts ⟨dot, edits⟩ path payload := by
      rintro ⟨edit, member, samePath, _⟩
      exact touched (mem_map.mpr ⟨edit, member, samePath⟩)
    have noRemoval : ¬effects.removes ⟨dot, edits⟩ path target := by
      rintro ⟨edit, member, samePath, _⟩
      exact touched (mem_map.mpr ⟨edit, member, samePath⟩)
    simp [noPut, noRemoval]

private theorem ownBound_of_next (path : SyncPath) (author : AuthorId) :
    ((next.dotsAt path).countP fun dot => dot.author = author) ≤ maxSelfHeads := by
  have facts := author_ok accepted
  have checked := checkEdits_ok facts.1
  have before := (consistent.represented _ (consistent.current replica)).ownBound path author
  have issuedFacts := issued_dot accepted
  by_cases touched : path ∈ edits.map PathEdit.path
  · rcases mem_map.mp touched with ⟨edit, member, rfl⟩
    have lookup := headAt_edits_of_mem (world.stateOf replica)
      ((world.stateOf replica).context.insert replica dot.seq) dot edits checked.1 member
    rw [← facts.2.2] at lookup
    by_cases own : author = replica
    · -- The author's heads: those kept, and the new one if content landed.
      have bound := (checked.2 edit member).ownBound
      rw [countP_eq_length_filter] at bound
      have landed : (if edit.put.isSome then [dot] else []).length =
          edit.put.isSome.toNat := by
        cases edit.put <;> rfl
      let kept := ((world.stateOf replica).dotsAt edit.path).filter fun dot =>
        dot.author = replica ∧ dot ∉ edit.observed
      refine Nat.le_trans
        (countP_dotsAt_le (kept ++ if edit.put.isSome then [dot] else []) ?_) ?_
      · intro target payload live isOwn
        rw [lookup] at live
        rw [mem_append]
        split at live
        · rename_i isNew
          exact Or.inr (by rw [if_pos isNew.2, isNew.1]; exact mem_singleton.mpr rfl)
        · split at live
          · cases live
          · rename_i unobserved
            refine Or.inl (mem_filter.mpr
              ⟨(mem_dotsAt_iff _ _ _).mpr ⟨payload, live⟩, ?_⟩)
            rw [own] at isOwn
            simpa [unobserved] using isOwn
      · rw [length_append, landed]
        exact bound
    · refine ownBound_of_subset before ?_
      intro target payload live isOther
      rw [lookup] at live
      split at live
      · rename_i isNew
        exact absurd (isOther.symm.trans (isNew.1 ▸ issuedFacts.1)) own
      · split at live
        · cases live
        · exact ⟨payload, live⟩
  · refine ownBound_of_subset before ?_
    intro target payload live _
    rw [facts.2.2, headAt_edits_of_not_mem _ _ dot edits touched] at live
    exact ⟨payload, live⟩

theorem consistent_author :
    Consistent (world.moveTo replica next (⟨dot, edits⟩ :: world.mutations)) := by
  have facts := author_ok accepted
  have distinct := (checkEdits_ok facts.1).1
  have issuedFacts := issued_dot accepted
  have represented := consistent.represented _ (consistent.current replica)
  refine ⟨?_, ?_, ?_, ?_, ?_⟩
  · exact mem_update consistent.current
  · intro state member
    rcases mem_cons.mp member with rfl | old
    · refine ⟨?_, ?_, ?_, ?_, ownBound_of_next consistent accepted⟩
      · intro author
        by_cases same : author = replica
        · subst same
          simp [World.moveTo]
        · refine Nat.le_trans (Nat.le_trans ?_ (represented.bounded author))
            (ownSeq_mono accepted author)
          rw [next_context accepted]
          simp [seqIn, Ne.symm same]
      · rw [known_of_next consistent accepted]
        intro mutation member path removed removes
        rcases member with rfl | known
        · rcases observed_known consistent accepted removes with ⟨putter, known, sameDot⟩
          exact ⟨putter, Or.inr known, sameDot⟩
        · rcases represented.closed mutation known path removed removes with
            ⟨putter, putterKnown, sameDot⟩
          exact ⟨putter, Or.inr putterKnown, sameDot⟩
      · intro path target payload
        rw [known_of_next consistent accepted]
        exact heads_of_next consistent accepted path target payload
      · rw [facts.2.2]
        exact noEmptyPath_edits _ dot edits distinct represented.noEmptyPath
    · have before := consistent.represented state old
      have unchanged := known_of_past consistent accepted old
      exact ⟨fun author => Nat.le_trans (before.bounded author)
          (ownSeq_mono accepted author),
        by rw [unchanged]; exact before.closed,
        by rw [unchanged]; exact before.heads,
        before.noEmptyPath, before.ownBound⟩
  · intro mutation member
    rcases mem_cons.mp member with rfl | old
    · refine ⟨dot_seq_ne_zero accepted, ?_⟩
      simp only [World.moveTo, issuedFacts.1, Function.update_self, next_context accepted]
      simp [seqIn]
    · have before := consistent.issued mutation old
      exact ⟨before.1, Nat.le_trans before.2 (ownSeq_mono accepted mutation.dot.author)⟩
  · refine nodup_cons.mpr ⟨?_, consistent.dotsDistinct⟩
    intro member
    rcases mem_map.mp member with ⟨mutation, old, sameDot⟩
    exact fresh_dot consistent accepted old sameDot
  · exact forall_mem_cons.mpr ⟨distinct, consistent.pathsDistinct⟩

end Author

/-! ## A join -/

section Join

variable {world : World} {replica : AuthorId} {source joined : NativeState}
  (consistent : Consistent world) (had : source ∈ world.past)
  (succeeded : join (world.stateOf replica) source = .ok joined)

include succeeded

include consistent had

private theorem stands_join : Stands effects { mutation | mutation ∈ world.mutations } joined :=
  Stands.join succeeded consistent.apart
    (consistent.represented _ (consistent.current replica)).stands
    (consistent.represented _ had).stands

private theorem head_of_further (member : state ∈ world.past)
    (within : world.known state.context ⊆ world.known joined.context) {dot : Dot}
    {payload : HeadPayload}
    (further : seqIn joined.context dot.author ≤ seqIn state.context dot.author)
    (live : joined.headAt path dot = some payload) : state.headAt path dot = some payload := by
  rcases ((stands_join consistent had succeeded).heads path dot payload).mp live with
    ⟨putter, known, sameKey, puts, kept⟩
  have issued := (consistent.issued putter known.1).1
  have observed : observedBy state.context putter.dot = true := by
    have observedJoined : observedBy joined.context putter.dot = true := known.2
    rw [observedBy_iff_le_seqIn _ issued] at observedJoined ⊢
    rw [show putter.dot = dot from sameKey] at observedJoined ⊢
    exact Nat.le_trans observedJoined further
  exact ((consistent.represented state member).heads path dot payload).mpr
    ⟨putter, ⟨known.1, observed⟩, sameKey, puts, fun other inState => kept other (within inState)⟩

private theorem ownBound_join (path : SyncPath) (author : AuthorId) :
    ((joined.dotsAt path).countP fun dot => dot.author = author) ≤ maxSelfHeads := by
  have unionKnown : world.known joined.context = world.known (world.stateOf replica).context ∪
      world.known source.context :=
    @knownTo_join _ effects { mutation | mutation ∈ world.mutations } _ _ _ succeeded
  have unionSeq := seqIn_join succeeded author
  rcases Nat.le_total (seqIn source.context author)
    (seqIn (world.stateOf replica).context author) with leftFurther | rightFurther
  · refine ownBound_of_subset
      ((consistent.represented _ (consistent.current replica)).ownBound path author) ?_
    rintro dot payload live rfl
    exact ⟨payload, head_of_further consistent had succeeded (consistent.current replica)
      (by rw [unionKnown]; exact Set.subset_union_left)
      (by rw [unionSeq]; exact Nat.le_of_eq (Nat.max_eq_left leftFurther)) live⟩
  · refine ownBound_of_subset ((consistent.represented _ had).ownBound path author) ?_
    rintro dot payload live rfl
    exact ⟨payload, head_of_further consistent had succeeded had
      (by rw [unionKnown]; exact Set.subset_union_right)
      (by rw [unionSeq]; exact Nat.le_of_eq (Nat.max_eq_right rightFurther)) live⟩

private theorem represents_join : Represents world joined where
  bounded := by
    intro author
    rw [seqIn_join succeeded]
    exact Nat.max_le.mpr
      ⟨(consistent.represented _ (consistent.current replica)).bounded author,
        (consistent.represented _ had).bounded author⟩
  closed := (stands_join consistent had succeeded).closed
  heads := (stands_join consistent had succeeded).heads
  noEmptyPath := noEmptyPath_join succeeded
  ownBound := ownBound_join consistent had succeeded

theorem consistent_join : Consistent (world.moveTo replica joined world.mutations) := by
  have joinedFacts := represents_join consistent had succeeded
  -- The joining replica learns nothing about itself that it did not know.
  have ownSeq : ∀ author, seqIn (world.stateOf author).context author ≤
      seqIn ((world.moveTo replica joined world.mutations).stateOf author).context author := by
    refine seqIn_update ?_
    rw [seqIn_join succeeded]
    exact Nat.le_max_left _ _
  refine ⟨?_, ?_, ?_, consistent.dotsDistinct, consistent.pathsDistinct⟩
  · exact mem_update consistent.current
  · intro state member
    have before : Represents world state := by
      rcases mem_cons.mp member with rfl | old
      · exact joinedFacts
      · exact consistent.represented state old
    exact ⟨fun author => Nat.le_trans (before.bounded author) (ownSeq author), before.closed,
      before.heads, before.noEmptyPath, before.ownBound⟩
  · intro mutation member
    have before := consistent.issued mutation member
    exact ⟨before.1, Nat.le_trans before.2 (ownSeq mutation.dot.author)⟩

end Join

/-! ## Whole runs -/

theorem consistent_perform {world : World} (consistent : Consistent world) (action : Action) :
    Consistent (world.perform action) := by
  cases action with
  | author replica edits =>
    unfold World.perform
    dsimp only
    cases result : (world.stateOf replica).author replica edits with
    | error refusal => exact consistent
    | ok accepted => exact consistent_author consistent result
  | join replica source =>
    unfold World.perform
    dsimp only
    cases lookup : world.past[source]? with
    | none => exact consistent
    | some state =>
      dsimp only
      cases result : Yadorilink.join (world.stateOf replica) state with
      | error fork => exact consistent
      | ok joined =>
        exact consistent_join consistent (mem_of_getElem? lookup) result

theorem consistent_run (actions : List Action) : Consistent (run actions) := by
  unfold run
  suffices keeps : ∀ world, Consistent world →
      Consistent (actions.foldl World.perform world) from keeps _ consistent_start
  induction actions with
  | nil => exact fun _ consistent => consistent
  | cons action rest induction =>
    intro world consistent
    exact induction _ (consistent_perform consistent action)

/-! ## Against the oracle -/

theorem mem_basisAt_change (mutation : Mutation) (path : SyncPath) (dot : Dot) :
    dot ∈ mutation.change.basisAt path ↔ effects.removes mutation path dot := by
  simp only [Mutation.change, Oracle.Change.basisAt, effects, mem_flatMap,
    mem_filter, mem_map, decide_eq_true_eq]
  constructor
  · rintro ⟨op, ⟨⟨edit, member, rfl⟩, samePath⟩, observed⟩
    exact ⟨edit, member, samePath, observed⟩
  · rintro ⟨edit, member, samePath, observed⟩
    exact ⟨_, ⟨⟨edit, member, rfl⟩, samePath⟩, observed⟩

theorem lands_change_iff (mutation : Mutation) (path : SyncPath) :
    mutation.change.lands path = true ↔ ∃ payload, effects.puts mutation path payload := by
  simp only [Mutation.change, Oracle.Change.lands, effects, any_eq_true, mem_map,
    Bool.and_eq_true, decide_eq_true_eq]
  constructor
  · rintro ⟨op, ⟨edit, member, rfl⟩, samePath, isPut⟩
    cases put : edit.put with
    | none => simp [put, Oracle.Effect.isPut] at isPut
    | some payload => exact ⟨payload, edit, member, samePath, put⟩
  · rintro ⟨payload, edit, member, samePath, put⟩
    exact ⟨_, ⟨edit, member, rfl⟩, samePath, by simp [put, Oracle.Effect.isPut]⟩

theorem mem_historyOf_iff (world : World) (context : Context) (dot : Dot) :
    dot ∈ world.historyOf context ↔
      ∃ mutation, mutation ∈ world.known context ∧ mutation.dot = dot := by
  unfold World.historyOf
  rw [ExtTreeSet.mem_ofList, contains_iff_mem, mem_filter, mem_map]
  constructor
  · rintro ⟨⟨mutation, member, rfl⟩, observed⟩
    exact ⟨mutation, ⟨member, observed⟩, rfl⟩
  · rintro ⟨mutation, ⟨member, observed⟩, rfl⟩
    exact ⟨⟨mutation, member, rfl⟩, observed⟩

namespace Consistent

variable {world : World} (consistent : Consistent world)

include consistent

theorem getElem?_changes_iff {dot : Dot} {change : Oracle.Change Dot VersionHash} :
    world.changes[dot]? = some change ↔
      ∃ mutation, mutation ∈ world.mutations ∧ mutation.dot = dot ∧ mutation.change = change := by
  have lookup : ∀ mutation, mutation ∈ world.mutations →
      world.changes[mutation.dot]? = some mutation.change := by
    intro mutation member
    refine ExtTreeMap.getElem?_ofList_of_mem ReflCmp.compare_self ?_
      (mem_map.mpr ⟨mutation, member, rfl⟩)
    rw [pairwise_map]
    refine List.Pairwise.imp ?_ (pairwise_map.mp consistent.dotsDistinct)
    intro first second different equal
    exact different (LawfulEqCmp.eq_of_compare equal)
  constructor
  · intro found
    by_cases issued : ∃ mutation, mutation ∈ world.mutations ∧ mutation.dot = dot
    · rcases issued with ⟨mutation, member, rfl⟩
      rw [lookup mutation member] at found
      exact ⟨mutation, member, rfl, Option.some.inj found⟩
    · have absent : world.changes[dot]? = none := by
        apply ExtTreeMap.getElem?_ofList_of_contains_eq_false
        rw [← Bool.not_eq_true, contains_iff_mem, map_map, mem_map]
        rintro ⟨mutation, member, sameDot⟩
        exact issued ⟨mutation, member, sameDot⟩
      rw [absent] at found
      cases found
  · rintro ⟨mutation, member, rfl, rfl⟩
    exact lookup mutation member

theorem basisEdge_iff (path : SyncPath) (y x : Dot) : Oracle.BasisEdge world.changes path y x ↔
      ObservedRemove.Removes effects { mutation | mutation ∈ world.mutations } path y x := by
  unfold Oracle.BasisEdge ObservedRemove.Removes
  simp only [consistent.getElem?_changes_iff]
  constructor
  · rintro ⟨change, ⟨mutation, member, sameDot, rfl⟩, inBasis⟩
    exact ⟨mutation, member, sameDot, (mem_basisAt_change mutation path x).mp inBasis⟩
  · rintro ⟨mutation, member, sameDot, removes⟩
    exact ⟨mutation.change, ⟨mutation, member, sameDot, rfl⟩,
      (mem_basisAt_change mutation path x).mpr removes⟩

theorem mem_dotsAt_iff_mem_headsAt (member : state ∈ world.past) (path : SyncPath) (dot : Dot) :
    dot ∈ state.dotsAt path ↔
      dot ∈ Oracle.headsAt world.changes (world.historyOf state.context) path := by
  have represented := consistent.represented state member
  have edges : Oracle.BasisEdge world.changes path =
      ObservedRemove.Removes effects { mutation | mutation ∈ world.mutations } path := by
    funext y x
    exact propext (consistent.basisEdge_iff path y x)
  rw [mem_dotsAt_iff, Oracle.mem_headsAt_iff, edges]
  simp only [represented.heads, consistent.getElem?_changes_iff, mem_historyOf_iff]
  constructor
  · rintro ⟨payload, putter, known, sameKey, puts, kept⟩
    refine ⟨⟨putter, known, sameKey⟩, ⟨putter.change, ⟨putter, known.1, sameKey, rfl⟩,
      (lands_change_iff putter path).mpr ⟨payload, puts⟩⟩, ?_⟩
    rintro y ⟨first, firstKnown, rfl⟩ chain
    rcases ObservedRemove.exists_removes_of_transGen
      (fun _ inHistory => inHistory.1) represented.closed
      (fun _ _ firstMember secondMember => consistent.dot_injective firstMember secondMember)
      firstKnown chain with ⟨remover, removerKnown, removes⟩
    exact kept remover removerKnown removes
  · rintro ⟨⟨putter, known, sameKey⟩, ⟨_, ⟨other, otherMember, otherDot, rfl⟩, lands⟩,
      unsuperseded⟩
    have same := consistent.dot_injective otherMember known.1 (otherDot.trans sameKey.symm)
    subst same
    rcases (lands_change_iff other path).mp lands with ⟨payload, puts⟩
    refine ⟨payload, other, known, sameKey, puts, ?_⟩
    intro remover removerKnown removes
    exact unsuperseded remover.dot ⟨remover, removerKnown, rfl⟩
      (Relation.TransGen.single ⟨remover, removerKnown.1, rfl, removes⟩)

theorem valid_of_mem_past (member : state ∈ world.past) : state.Valid := by
  have represented := consistent.represented state member
  refine ⟨represented.noEmptyPath, represented.ownBound, ?_⟩
  intro path dot payload live
  rcases (represented.heads path dot payload).mp live with ⟨putter, known, sameKey, _⟩
  have sameDot : putter.dot = dot := sameKey
  exact ⟨sameDot ▸ (consistent.issued putter known.1).1, sameDot ▸ known.2⟩

end Consistent

/-- In every run, a join with any state any replica has had succeeds, every
replica's state passes its own checks, and its live dots at each path are the
oracle's heads of the mutations its context observes. -/
theorem replicas_refine_history (actions : List Action) :
    (∀ replica source, source ∈ (run actions).past →
      ∃ joined, join ((run actions).stateOf replica) source = .ok joined) ∧
    ∀ replica, ((run actions).stateOf replica).checkInvariants = .ok () ∧
      ∀ path, ExtTreeSet.ofList (((run actions).stateOf replica).dotsAt path) compare =
        Oracle.headsAt (run actions).changes
          ((run actions).historyOf ((run actions).stateOf replica).context) path := by
  have consistent := consistent_run actions
  refine ⟨fun replica source had => consistent.join_succeeds (consistent.current replica) had, ?_⟩
  intro replica
  have member := consistent.current replica
  refine ⟨(checkInvariants_eq_ok_iff _).mpr (consistent.valid_of_mem_past member), ?_⟩
  intro path
  apply ExtTreeSet.ext_mem
  intro dot
  rw [ExtTreeSet.mem_ofList, List.contains_iff_mem]
  exact consistent.mem_dotsAt_iff_mem_headsAt member path dot

end Yadorilink.Replicas
