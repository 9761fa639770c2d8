import Yadorilink.Domain.GroupOrder
import Yadorilink.Domain.NativeStateInvariants

/-! What the deltas of a fork plan do to the state they are signed on. The plan is
computed against a simulation whose provenances are stand-ins; the signer's own state
differs from it in those alone, so each delta removes versions it also puts. -/

namespace Yadorilink

open Std Fallible List

/-! ## Groups -/

/-- Every head the group removes is a head of the state, and its version is put. -/
def ForkGroup.Covered (state : NativeState) (group : ForkGroup) : Prop :=
  ∀ removal ∈ group.removes, ∃ payload, state.headAt group.source removal.dot = some payload ∧
      ∃ destination, (destination, payload.version) ∈ group.puts

variable {owner : AuthorId} {kindOf : VersionHash → Option RecordKind}

theorem losingHeads_subset {heads : PathHeads} {descendant : Bool}
    {entries losers : List (Dot × HeadPayload)}
    (judged : losingHeads owner kindOf heads descendant entries = some losers) :
    losers ⊆ entries := by
  induction entries generalizing losers with
  | nil =>
    cases judged
    exact List.Subset.refl []
  | cons entry rest induction =>
    rw [losingHeads] at judged
    split at judged
    · exact List.Subset.trans (induction judged) (subset_cons_self ..)
    · split at judged
      · cases judged
      · rcases Option.map_eq_some_iff.mp judged with ⟨later, judgedLater, rfl⟩
        exact cons_subset_cons _ (induction judgedLater)
      · exact List.Subset.trans (induction judged) (subset_cons_self ..)

variable {group : ForkGroup}

/-- What a group is made of: live heads of its path, and a copy of each version of
theirs. -/
theorem mem_forkGroups {crypto : Crypto} {state : NativeState}
    (member : group ∈ forkGroups (pathVerdicts crypto state owner kindOf)) :
    ∃ heads, ∃ losers : List (Dot × HeadPayload), state.heads[group.source]? = some heads ∧
      (∀ loser ∈ losers, heads[loser.1]? = some loser.2) ∧
      group.removes = losers.map (fun head => ⟨head.1, head.2.provenance⟩) ∧
      ∀ put, put ∈ group.puts ↔ put.2 ∈ losers.map (fun head => head.2.version) ∧
        put.1 = copyPath crypto group.source put.2 := by
  rcases mem_filterMap.mp member with ⟨⟨path, verdict⟩, isVerdict, isGroup⟩
  rcases mem_map.mp isVerdict with ⟨⟨stored, heads⟩, isEntry, same⟩
  cases same
  split at isGroup
  · rename_i found judged
    cases isGroup
    dsimp only at judged
    unfold judgePath at judged
    split at judged
    · cases judged
    · split at judged
      · cases judged
      · cases judged
      · rename_i losers _ found
        dsimp only at judged
        split at judged
        · cases judged
        · cases judged
          refine ⟨heads, losers, ExtTreeMap.mem_toList_iff_getElem?_eq_some.mp isEntry, ?_, rfl, ?_⟩
          · exact fun loser isLoser =>
              ExtTreeMap.mem_toList_iff_getElem?_eq_some.mp (losingHeads_subset found isLoser)
          · rintro ⟨destination, version⟩
            rw [mem_map]
            simp only [ExtTreeSet.mem_toList, ExtTreeSet.mem_ofList, contains_iff_mem,
              Prod.mk.injEq]
            constructor
            · rintro ⟨_, isVersion, rfl, rfl⟩
              exact ⟨isVersion, rfl⟩
            · rintro ⟨isVersion, rfl⟩
              exact ⟨version, isVersion, rfl, rfl⟩
  · cases isGroup

theorem forkGroups_covered {crypto : Crypto} {state : NativeState}
    (member : group ∈ forkGroups (pathVerdicts crypto state owner kindOf)) :
    group.Covered state := by
  rcases mem_forkGroups member with ⟨heads, losers, stored, live, removes, puts⟩
  intro removal named
  rw [removes] at named
  rcases mem_map.mp named with ⟨loser, isLoser, rfl⟩
  refine ⟨loser.2, ?_, copyPath crypto group.source loser.2.version, ?_⟩
  · rw [NativeState.headAt, NativeState.pathHeads, stored]
    exact live loser isLoser
  · exact (puts _).mpr ⟨mem_map.mpr ⟨_, isLoser, rfl⟩, rfl⟩

/-! ## Deltas that put what they remove -/

/-- Every removal names a head of `state` or `sim` whose version the ops put. -/
def Carried (state sim : NativeState) (ops : List ForkOp) : Prop :=
  ∀ op ∈ ops, ∀ removal ∈ op.removes, ∃ payload, (state.headAt op.path removal.dot = some payload ∨
      sim.headAt op.path removal.dot = some payload) ∧
    ∃ other ∈ ops, other.put = some ⟨payload.version⟩

theorem Carried.nil (state sim : NativeState) : Carried state sim [] :=
  fun _ member => absurd member not_mem_nil

theorem Carried.append {state sim : NativeState} {first second : List ForkOp}
    (firstCarried : Carried state sim first) (secondCarried : Carried state sim second) :
    Carried state sim (first ++ second) := by
  intro op member removal removes
  rcases mem_append.mp member with inFirst | inSecond
  · rcases firstCarried op inFirst removal removes with ⟨payload, live, other, isOp, puts⟩
    exact ⟨payload, live, other, mem_append_left _ isOp, puts⟩
  · rcases secondCarried op inSecond removal removes with ⟨payload, live, other, isOp, puts⟩
    exact ⟨payload, live, other, mem_append_right _ isOp, puts⟩

variable {sim : NativeState} {author : AuthorId}

theorem putOp_ok {destination : SyncPath} {version : VersionHash} {op : ForkOp}
    (made : putOp sim author destination version = .ok op) :
    op.put = some ⟨version⟩ ∧ ∀ removal ∈ op.removes, ∃ payload,
      sim.headAt op.path removal.dot = some payload ∧ payload.version = version := by
  unfold putOp at made
  dsimp only at made
  split at made
  · split at made
    · cases made
    · cases made
      refine ⟨rfl, ?_⟩
      intro removal named
      rcases mem_map.mp named with ⟨⟨dot, payload⟩, taken, rfl⟩
      have same := mem_filter.mp (mem_of_mem_take taken)
      have own := (mem_filter.mp same.1).1
      exact ⟨payload, ExtTreeMap.mem_toList_iff_getElem?_eq_some.mp own, by simpa using same.2⟩
  · cases made
    exact ⟨rfl, fun _ named => absurd named not_mem_nil⟩

theorem mapM_putOp {puts : List (SyncPath × VersionHash)} {ops : List ForkOp}
    (made : (puts.mapM fun put => putOp sim author put.1 put.2) = .ok ops) :
    (∀ op ∈ ops, ∃ put ∈ puts, putOp sim author put.1 put.2 = .ok op) ∧
      ∀ put ∈ puts, ∃ op ∈ ops, putOp sim author put.1 put.2 = .ok op := by
  induction puts generalizing ops with
  | nil =>
    cases made
    exact ⟨fun _ member => absurd member not_mem_nil,
      fun _ member => absurd member not_mem_nil⟩
  | cons put rest induction =>
    rw [mapM_cons] at made
    rcases bind_eq_ok_iff.mp made with ⟨op, madeFirst, made⟩
    rcases bind_eq_ok_iff.mp made with ⟨others, madeRest, finished⟩
    cases finished
    rcases induction madeRest with ⟨fromPuts, toOps⟩
    constructor
    · intro other member
      rcases mem_cons.mp member with rfl | later
      · exact ⟨put, .head _, madeFirst⟩
      · rcases fromPuts other later with ⟨source, isPut, makes⟩
        exact ⟨source, .tail _ isPut, makes⟩
    · intro other member
      rcases mem_cons.mp member with rfl | later
      · exact ⟨op, .head _, madeFirst⟩
      · rcases toOps other later with ⟨target, isOp, makes⟩
        exact ⟨target, .tail _ isOp, makes⟩

theorem groupOps_carried {state : NativeState} {ops : List ForkOp} (covered : group.Covered state)
    (made : groupOps sim author group = .ok ops) : Carried state sim ops := by
  rcases bind_eq_ok_iff.mp made with ⟨puts, madePuts, finished⟩
  cases finished
  rcases mapM_putOp madePuts with ⟨fromPuts, toOps⟩
  intro op member removal named
  rcases mem_cons.mp member with rfl | isPut
  · rcases covered removal named with ⟨payload, live, destination, planned⟩
    rcases toOps _ planned with ⟨other, isOp, makes⟩
    exact ⟨payload, Or.inl live, other, .tail _ isOp, (putOp_ok makes).1⟩
  · rcases fromPuts op isPut with ⟨source, _, makes⟩
    rcases putOp_ok makes with ⟨puts, superseded⟩
    rcases superseded removal named with ⟨payload, live, sameVersion⟩
    exact ⟨payload, Or.inr live, op, .tail _ isPut, sameVersion ▸ puts⟩

/-! ## Chains -/

/-- The deltas lead from one simulated state to another, each carrying what it
removes. -/
inductive ForkChain (state : NativeState) (signer : AuthorId) :
    NativeState → List ForkDelta → NativeState → Prop where
  | nil (sim : NativeState) : ForkChain state signer sim [] sim
  | cons {sim next last : NativeState} {dot issued : Dot} {delta : ForkDelta}
      {rest : List ForkDelta} (carried : Carried state sim delta.ops)
      (fresh : sim.nextDot signer = .ok dot)
      (received : sim.receiveVerified signer dot.seq
        (remoteOps (placeholder dot.seq) delta.ops) = .ok (issued, next))
      (later : ForkChain state signer next rest last) :
      ForkChain state signer sim (delta :: rest) last

theorem ForkChain.append {state first second third : NativeState} {signer : AuthorId}
    {deltas more : List ForkDelta} (chain : ForkChain state signer first deltas second)
    (continued : ForkChain state signer second more third) :
    ForkChain state signer first (deltas ++ more) third := by
  induction chain with
  | nil => exact continued
  | cons carried fresh received later induction =>
    exact .cons carried fresh received (induction continued)

/-- What is true of the chain built so far. -/
structure Emission.Sound (state : NativeState) (signer : AuthorId) (emission : Emission) :
    Prop where
  chain : ForkChain state signer state emission.deltas emission.sim
  carried : Carried state emission.sim emission.current

section Emitting

variable {state : NativeState} {signer : AuthorId} {limits : ForkLimits} {emission after : Emission}

theorem Emission.Sound.flush (sound : emission.Sound state signer)
    (flushed : emission.flush signer = .ok after) : after.Sound state signer := by
  unfold Emission.flush at flushed
  cases fresh : emission.sim.nextDot signer with
  | error failure => simp [fresh] at flushed
  | ok dot =>
    simp only [fresh] at flushed
    cases received : emission.sim.receiveVerified signer dot.seq
        (remoteOps (placeholder dot.seq) emission.current) with
    | error failure => simp [received] at flushed
    | ok result =>
      simp only [received] at flushed
      split at flushed
      · cases flushed
      · cases flushed
      · cases flushed
        exact ⟨sound.chain.append (.cons sound.carried fresh received (.nil _)), Carried.nil _ _⟩

/-- What flushing keeps, and refusing or taking any of the groups. -/
structure Emission.Keeps (kept : Emission → Prop) (signer : AuthorId) (groups : List ForkGroup) :
    Prop where
  flush : ∀ {emission after}, kept emission → emission.flush signer = .ok after → kept after
  refuse : ∀ {emission : Emission} refused, kept emission →
    kept { emission with refused := emission.refused ++ [refused] }
  take : ∀ {emission group ops} touched bytes, group ∈ groups → kept emission →
    groupOps emission.sim signer group = .ok ops →
      kept { emission with
        current := emission.current ++ ops, touched := touched, currentBytes := bytes }

variable {kept : Emission → Prop} {groups : List ForkGroup}

theorem Emission.Keeps.addGroup (keeps : Keeps kept signer groups) (member : group ∈ groups)
    {turns : Nat} (holds : kept emission)
    (added : emission.addGroup signer limits group turns = .ok after) : kept after := by
  induction turns generalizing emission with
  | zero => cases added
  | succ turns induction =>
    rw [Emission.addGroup] at added
    split at added
    · split at added
      · cases added
        exact keeps.refuse _ holds
      · rcases bind_eq_ok_iff.mp added with ⟨flushed, flushes, added⟩
        exact induction (keeps.flush holds flushes) added
    · cases added
    · rename_i ops made
      dsimp only at added
      split at added
      · rcases bind_eq_ok_iff.mp added with ⟨flushed, flushes, added⟩
        exact induction (keeps.flush holds flushes) added
      · cases added
        exact keeps.take _ _ member holds made

theorem Emission.Keeps.addGroups (keeps : Keeps kept signer groups) {rest : List ForkGroup}
    (members : rest ⊆ groups) (holds : kept emission)
    (added : Emission.addGroups signer limits rest emission = .ok after) : kept after := by
  induction rest generalizing emission with
  | nil =>
    cases added
    exact holds
  | cons group rest induction =>
    rcases bind_eq_ok_iff.mp added with ⟨between, addedFirst, addedRest⟩
    rw [cons_subset] at members
    exact induction members.2 (keeps.addGroup members.1 holds addedFirst) addedRest

end Emitting

section Planned

variable {crypto : Crypto} {state : NativeState} {signer : AuthorId} {limits : ForkLimits}
  {plan : ForkPlan}

theorem planForks_ok (planned : planForks crypto state owner signer kindOf limits = .ok plan) :
    ∃ ordered emission final,
      orderGroups (forkGroups (pathVerdicts crypto state owner kindOf)) = .ok ordered ∧
      Emission.addGroups signer limits ordered
        (Emission.start state (pathVerdicts crypto state owner kindOf)) = .ok emission ∧
      emission.finish signer = .ok final ∧
      plan.deltas = final.deltas ∧ plan.refused = final.refused := by
  unfold planForks at planned
  split at planned
  · cases planned
  · rcases bind_eq_ok_iff.mp planned with ⟨_, _, planned⟩
    rcases bind_eq_ok_iff.mp planned with ⟨ordered, inOrder, planned⟩
    rcases bind_eq_ok_iff.mp planned with ⟨emission, added, planned⟩
    rcases bind_eq_ok_iff.mp planned with ⟨final, finishes, finished⟩
    cases finished
    exact ⟨ordered, emission, final, inOrder, added, finishes, rfl, rfl⟩

/-- What the loop keeps holds of the emission the plan is read off. -/
theorem planForks_keeps {kept : Emission → Prop}
    (keeps : Emission.Keeps kept signer (forkGroups (pathVerdicts crypto state owner kindOf)))
    (starts : kept (Emission.start state (pathVerdicts crypto state owner kindOf)))
    (planned : planForks crypto state owner signer kindOf limits = .ok plan) :
    ∃ final, kept final ∧ plan.deltas = final.deltas := by
  rcases planForks_ok planned with ⟨ordered, emission, final, inOrder, added, finishes, deltas, _⟩
  have holds := keeps.addGroups (perm_orderGroups inOrder).subset starts added
  refine ⟨final, ?_, deltas⟩
  unfold Emission.finish at finishes
  split at finishes
  · cases finishes
    exact holds
  · exact keeps.flush holds finishes

theorem planForks_chain
    (planned : planForks crypto state owner signer kindOf limits = .ok plan) :
    ∃ last, ForkChain state signer state plan.deltas last := by
  have keeps : Emission.Keeps (Emission.Sound state signer) signer
      (forkGroups (pathVerdicts crypto state owner kindOf)) := {
    flush := Emission.Sound.flush
    refuse := fun _ sound => ⟨sound.chain, sound.carried⟩
    take := fun _ _ member sound made =>
      ⟨sound.chain, sound.carried.append (groupOps_carried (forkGroups_covered member) made)⟩ }
  rcases planForks_keeps keeps ⟨.nil state, Carried.nil _ _⟩ planned with ⟨final, sound, deltas⟩
  exact ⟨_, deltas ▸ sound.chain⟩

end Planned

end Yadorilink
