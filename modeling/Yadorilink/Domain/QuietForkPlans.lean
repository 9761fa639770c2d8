import Yadorilink.Domain.NativeForkPlans

/-! What a fork plan leaves out. Every losing head is in a group, the walk over the groups
reaches each of them, and a group that gives no delta is refused: a plan without deltas
names each path it could not resolve. -/

namespace Yadorilink

open Std Fallible ExtTreeMap List NativeState

/-! ## A group without ops is refused -/

def Emission.Idle (emission : Emission) : Prop := emission.deltas = [] ∧ emission.current = []

def Emission.Refuses (emission : Emission) (source : SyncPath) : Prop :=
  ∃ error, (source, error) ∈ emission.refused

variable {group : ForkGroup} {turns : Nat}

section Emitting

variable {signer : AuthorId} {limits : ForkLimits} {emission after : Emission}

theorem Emission.flush_ok (flushed : emission.flush signer = .ok after) :
    after.refused = emission.refused ∧
      after.deltas = emission.deltas ++ [⟨emission.current⟩] ∧ after.current = [] := by
  unfold Emission.flush at flushed
  split at flushed
  · cases flushed
  · split at flushed
    · cases flushed
    · split at flushed
      · cases flushed
      · cases flushed
      · cases flushed
        exact ⟨rfl, rfl, rfl⟩

theorem groupOps_ne_nil {sim : NativeState} {author : AuthorId} {ops : List ForkOp}
    (made : groupOps sim author group = .ok ops) : ops ≠ [] := by
  rcases bind_eq_ok_iff.mp made with ⟨puts, _, finished⟩
  cases finished
  exact cons_ne_nil _ _

theorem Emission.deltas_addGroup (added : emission.addGroup signer limits group turns = .ok after) :
    emission.deltas <+: after.deltas ∧ emission.refused ⊆ after.refused := by
  have keeps : Emission.Keeps (fun later =>
      emission.deltas <+: later.deltas ∧ emission.refused ⊆ later.refused) signer [group] := {
    flush := by
      intro later flushed both flushes
      rcases Emission.flush_ok flushes with ⟨refused, deltas, _⟩
      rw [refused, deltas]
      exact ⟨both.1.trans (prefix_append _ _), both.2⟩
    refuse := fun _ both => ⟨both.1, List.Subset.trans both.2 (subset_append_left _ _)⟩
    take := fun _ _ _ both _ => both }
  exact keeps.addGroup (.head _) ⟨prefix_rfl, List.Subset.refl _⟩ added

theorem Emission.refuses_addGroup
    (added : emission.addGroup signer limits group turns = .ok after) (idle : after.Idle) :
    emission.Idle ∧ after.Refuses group.source := by
  have unflushed : ∀ flushed turns, emission.flush signer = .ok flushed →
      flushed.addGroup signer limits group turns = .ok after → False := by
    intro flushed turns flushes addedLater
    have longer := (Emission.deltas_addGroup addedLater).1
    rw [(Emission.flush_ok flushes).2.1, idle.1, prefix_nil] at longer
    simp at longer
  cases turns with
  | zero => cases added
  | succ turns =>
    rw [Emission.addGroup] at added
    split at added
    · split at added
      · rename_i path _ empty
        cases added
        exact ⟨idle, _, mem_append_right _ (.head _)⟩
      · rcases bind_eq_ok_iff.mp added with ⟨flushed, flushes, addedLater⟩
        exact (unflushed flushed turns flushes addedLater).elim
    · cases added
    · rename_i ops made
      dsimp only at added
      split at added
      · rcases bind_eq_ok_iff.mp added with ⟨flushed, flushes, addedLater⟩
        exact (unflushed flushed turns flushes addedLater).elim
      · cases added
        exact absurd (append_eq_nil_iff.mp idle.2).2 (groupOps_ne_nil made)

theorem Emission.refuses_addGroups {groups : List ForkGroup}
    (added : Emission.addGroups signer limits groups emission = .ok after) (idle : after.Idle) :
    emission.refused ⊆ after.refused ∧ emission.Idle ∧
      ∀ group ∈ groups, after.Refuses group.source := by
  induction groups generalizing emission with
  | nil =>
    cases added
    exact ⟨List.Subset.refl _, idle, fun _ member => absurd member not_mem_nil⟩
  | cons group rest induction =>
    rcases bind_eq_ok_iff.mp added with ⟨between, addedFirst, addedRest⟩
    rcases induction addedRest with ⟨more, idleBetween, refusedRest⟩
    rcases Emission.refuses_addGroup addedFirst idleBetween with ⟨idleBefore, error, refused⟩
    refine ⟨List.Subset.trans (Emission.deltas_addGroup addedFirst).2 more, idleBefore, ?_⟩
    exact forall_mem_cons.mpr ⟨⟨error, more refused⟩, refusedRest⟩

end Emitting

section Planning

variable {crypto : Crypto} {state : NativeState} {owner signer : AuthorId}
  {kindOf : VersionHash → Option RecordKind} {limits : ForkLimits} {plan : ForkPlan}
  {heads : PathHeads}

theorem refused_of_quiet (planned : planForks crypto state owner signer kindOf limits = .ok plan)
    (quiet : plan.deltas = []) {path : SyncPath} {verdict : PathVerdict}
    (judged : (path, verdict) ∈ pathVerdicts crypto state owner kindOf) :
    (∀ error, verdict = .refused error → (path, error) ∈ plan.refused) ∧
      ∀ group, verdict = .fork group → ∃ error, (group.source, error) ∈ plan.refused := by
  rcases planForks_ok planned with
    ⟨ordered, emission, final, inOrder, added, finishes, deltas, refused⟩
  have settled : emission = final ∧ emission.Idle := by
    unfold Emission.finish at finishes
    split at finishes
    · rename_i empty
      cases finishes
      exact ⟨rfl, deltas.symm.trans quiet, isEmpty_iff.mp empty⟩
    · rw [(Emission.flush_ok finishes).2.1, quiet] at deltas
      simp at deltas
  rcases settled with ⟨rfl, idle⟩
  rcases Emission.refuses_addGroups added idle with ⟨more, _, refuses⟩
  rw [refused]
  constructor
  · rintro error rfl
    exact more (mem_filterMap.mpr ⟨_, judged, rfl⟩)
  · rintro group rfl
    exact refuses group ((perm_orderGroups inOrder).symm.subset (mem_filterMap.mpr ⟨_, judged, rfl⟩))

/-! ## Losing heads -/

def KnownKinds (kindOf : VersionHash → Option RecordKind) (heads : PathHeads) : Prop :=
  ∀ head ∈ heads.toList, (kindOf head.2.version).isSome = true

theorem largestKey_isSome {own : WinKey} {entries : List (Dot × HeadPayload)}
    (known : ∀ head ∈ entries, (kindOf head.2.version).isSome = true) :
    (largestKey kindOf own entries).isSome = true := by
  induction entries generalizing own with
  | nil => rfl
  | cons entry rest induction =>
    rcases Option.isSome_iff_exists.mp (known entry mem_cons_self) with ⟨kind, found⟩
    rw [largestKey, found]
    exact induction fun head later => known head (mem_cons_of_mem _ later)

theorem loses_isSome (known : KnownKinds kindOf heads) {head : Dot × HeadPayload}
    (live : head ∈ heads.toList) (below : Bool) :
    (loses ⟨head.1, head.2⟩ kindOf heads below).isSome = true := by
  rcases Option.isSome_iff_exists.mp (known head live) with ⟨kind, found⟩
  rcases Option.isSome_iff_exists.mp (@largestKey_isSome kindOf (winKey false head.2.version)
    heads.toList known) with ⟨largest, finds⟩
  unfold loses
  simp only [found, finds]
  by_cases directory : kind = .directory
  · simp [directory]
  · cases below with
    | false => simp [directory]
    | true => simp [directory]

theorem mem_losingHeads {heads : PathHeads} {below : Bool} {entries : List (Dot × HeadPayload)}
    (judges : ∀ head ∈ entries, (loses ⟨head.1, head.2⟩ kindOf heads below).isSome = true) :
    ∃ losers, losingHeads owner kindOf heads below entries = some losers ∧
      ∀ head ∈ entries, head.1.author = owner →
        loses ⟨head.1, head.2⟩ kindOf heads below = some true → head ∈ losers := by
  induction entries with
  | nil => exact ⟨[], rfl, fun _ none => absurd none not_mem_nil⟩
  | cons entry rest induction =>
    rcases induction fun head later => judges head (mem_cons_of_mem _ later) with
      ⟨losers, found, kept⟩
    rcases Option.isSome_iff_exists.mp (judges entry mem_cons_self) with ⟨answer, answers⟩
    rcases entry with ⟨first, held⟩
    dsimp only at answers
    rw [losingHeads]
    by_cases other : first.author ≠ owner
    · rw [if_pos other]
      refine ⟨losers, found, ?_⟩
      intro head inEntries isOwned moves
      rcases mem_cons.mp inEntries with rfl | later
      · exact absurd isOwned other
      · exact kept head later isOwned moves
    · rw [if_neg other, answers, found]
      cases answer with
      | true =>
        refine ⟨(first, held) :: losers, rfl, ?_⟩
        intro head inEntries isOwned moves
        rcases mem_cons.mp inEntries with rfl | later
        · exact mem_cons_self
        · exact mem_cons_of_mem _ (kept head later isOwned moves)
      | false =>
        refine ⟨losers, rfl, ?_⟩
        intro head inEntries isOwned moves
        rcases mem_cons.mp inEntries with rfl | later
        · rw [answers] at moves
          cases moves
        · exact kept head later isOwned moves

theorem judgePath_of_loses {path : SyncPath} {heads : PathHeads} (known : KnownKinds kindOf heads)
    {dot : Dot} {payload : HeadPayload} (live : heads[dot]? = some payload)
    (owned : dot.author = owner)
    (moves : loses ⟨dot, payload⟩ kindOf heads (hasDescendant state path) = some true) :
    (∃ error, judgePath crypto state owner kindOf path heads = .refused error) ∨
      ∃ group, judgePath crypto state owner kindOf path heads = .fork group ∧
        group.source = path := by
  have member := mem_toList_iff_getElem?_eq_some.mpr live
  have judges : ∀ head ∈ heads.toList,
      (loses ⟨head.1, head.2⟩ kindOf heads (hasDescendant state path)).isSome = true :=
    fun head isHead => loses_isSome known isHead _
  rcases @mem_losingHeads owner kindOf heads _ heads.toList judges with ⟨losers, found, kept⟩
  have isLoser : (dot, payload) ∈ losers := kept _ member owned moves
  have present : (heads.keys.any fun dot => dot.author = owner) = true := by
    rw [any_eq_true]
    exact ⟨dot, mem_keys.mpr (mem_iff_isSome_getElem?.mpr (by rw [live]; rfl)), by simpa using owned⟩
  unfold judgePath
  rw [present, found]
  cases losers with
  | nil => cases isLoser
  | cons loser rest =>
    simp only [Bool.not_true, Bool.false_eq_true, if_false]
    split
    · exact .inl ⟨_, rfl⟩
    · exact .inr ⟨_, rfl, rfl⟩

theorem refuses_losing_head (planned : planForks crypto state owner signer kindOf limits = .ok plan)
    (quiet : plan.deltas = []) {path : SyncPath} (stored : state.heads[path]? = some heads)
    (known : KnownKinds kindOf heads) {dot : Dot} {payload : HeadPayload}
    (live : heads[dot]? = some payload) (owned : dot.author = owner)
    (moves : loses ⟨dot, payload⟩ kindOf heads (hasDescendant state path) = some true) :
    ∃ error, (path, error) ∈ plan.refused := by
  have judged : (path, judgePath crypto state owner kindOf path heads) ∈
      pathVerdicts crypto state owner kindOf :=
    mem_map.mpr ⟨(path, heads), mem_toList_iff_getElem?_eq_some.mpr stored, rfl⟩
  rcases refused_of_quiet planned quiet judged with ⟨unnamed, ungrouped⟩
  rcases @judgePath_of_loses crypto state owner kindOf path heads known dot payload live owned moves
    with ⟨error, refused⟩ | ⟨group, forked, source⟩
  · exact ⟨error, unnamed error refused⟩
  · rw [← source]
    exact ungrouped group forked

/-! ## Owners without heads -/

theorem forkGroups_of_unowned
    (unowned : ∀ path dot, (state.headAt path dot).isSome = true → dot.author ≠ owner) :
    forkGroups (pathVerdicts crypto state owner kindOf) = [] := by
  rw [forkGroups, filterMap_eq_nil_iff]
  intro verdict member
  rcases mem_map.mp member with ⟨⟨path, heads⟩, isEntry, rfl⟩
  have stored := mem_toList_iff_getElem?_eq_some.mp isEntry
  have absent : (heads.keys.any fun dot => dot.author = owner) = false := by
    rw [any_eq_false]
    intro dot isDot
    have live : (state.headAt path dot).isSome = true := by
      rw [headAt, pathHeads, stored]
      exact mem_iff_isSome_getElem?.mp (mem_keys.mp isDot)
    simpa using unowned path dot live
  dsimp only
  rw [judgePath, absent]
  rfl

theorem planForks_of_unowned
    (unowned : ∀ path dot, (state.headAt path dot).isSome = true → dot.author ≠ owner)
    (enough : minOpsPerDelta ≤ limits.maxOpsPerDelta) :
    ∃ plan, planForks crypto state owner signer kindOf limits = .ok plan ∧ plan.deltas = [] := by
  have groups := @forkGroups_of_unowned crypto state owner kindOf unowned
  rw [planForks, if_neg (Nat.not_lt.mpr enough)]
  dsimp only
  rw [groups]
  exact ⟨_, rfl, rfl⟩

/-! ## What is put -/

def LiveVersion (state : NativeState) (version : VersionHash) : Prop :=
  ∃ path dot payload, state.headAt path dot = some payload ∧ payload.version = version

def PutsLive (state : NativeState) (ops : List ForkOp) : Prop :=
  ∀ op ∈ ops, ∀ put, op.put = some put → LiveVersion state put.version

theorem putsLive_of_forkGroups
    (member : group ∈ forkGroups (pathVerdicts crypto state owner kindOf)) :
    ∀ put ∈ group.puts, LiveVersion state put.2 := by
  rcases mem_forkGroups member with ⟨heads, losers, stored, live, _, puts⟩
  intro put isPut
  rcases mem_map.mp ((puts put).mp isPut).1 with ⟨loser, isLoser, same⟩
  refine ⟨group.source, loser.1, loser.2, ?_, same⟩
  rw [headAt, pathHeads, stored]
  exact live loser isLoser

theorem putsLive_groupOps {sim : NativeState} {author : AuthorId} {ops : List ForkOp}
    (live : ∀ put ∈ group.puts, LiveVersion state put.2)
    (made : groupOps sim author group = .ok ops) : PutsLive state ops := by
  rcases bind_eq_ok_iff.mp made with ⟨puts, madePuts, finished⟩
  cases finished
  intro op member put isPut
  rcases mem_cons.mp member with rfl | inPuts
  · cases isPut
  · rcases (mapM_putOp madePuts).1 op inPuts with ⟨source, isSource, makes⟩
    rw [(putOp_ok makes).1] at isPut
    cases isPut
    exact live source isSource

/-- What is emitted puts live versions only. -/
structure Emission.PutsLive (state : NativeState) (emission : Emission) : Prop where
  current : Yadorilink.PutsLive state emission.current
  deltas : ∀ delta ∈ emission.deltas, Yadorilink.PutsLive state delta.ops

theorem Emission.PutsLive.flush {emission after : Emission} (puts : emission.PutsLive state)
    (flushed : emission.flush signer = .ok after) : after.PutsLive state := by
  rcases Emission.flush_ok flushed with ⟨_, deltas, current⟩
  constructor
  · rw [current]
    exact fun _ member => absurd member not_mem_nil
  · intro delta member
    rw [deltas, mem_append, mem_singleton] at member
    rcases member with earlier | rfl
    · exact puts.deltas delta earlier
    · exact puts.current

theorem planForks_putsLive
    (planned : planForks crypto state owner signer kindOf limits = .ok plan) :
    ∀ delta ∈ plan.deltas, PutsLive state delta.ops := by
  have keeps : Emission.Keeps (Emission.PutsLive state) signer
      (forkGroups (pathVerdicts crypto state owner kindOf)) := {
    flush := Emission.PutsLive.flush
    refuse := fun _ puts => ⟨puts.current, puts.deltas⟩
    take := by
      intro emission group ops _ _ member puts made
      refine ⟨?_, puts.deltas⟩
      exact forall_mem_append.mpr ⟨puts.current,
        fun op inOps => putsLive_groupOps (putsLive_of_forkGroups member) made op inOps⟩ }
  have started : (Emission.start state (pathVerdicts crypto state owner kindOf)).PutsLive state :=
    ⟨fun _ member => absurd member not_mem_nil, fun _ member => absurd member not_mem_nil⟩
  rcases planForks_keeps keeps started planned with ⟨final, puts, deltas⟩
  exact deltas ▸ puts.deltas

end Planning

end Yadorilink
