import Yadorilink.Projection.Obligations

/-! Whole runs of the obligation tables: a row's token is the last one bumped for its
path, no token is ever given twice, and a generation that matches the live fence was
published with no advance since. -/

namespace Yadorilink.Obligations

open History Function Tables List Option

variable {P H : Type} {tables : Tables P H} {path : P} {token : ObligationClaimToken}

/-! ## Tokens of rows -/

/-- Every row left was there before, with the same token. -/
def KeepsTokens (before after : P → Option ProjectionObligation) : Prop :=
  ∀ path row, after path = some row → ∃ old, before path = some old ∧ old.token = row.token

theorem KeepsTokens.refl (obligations : P → Option ProjectionObligation) :
    KeepsTokens obligations obligations := fun _ row found => ⟨row, found, rfl⟩

theorem KeepsTokens.trans {first second third : P → Option ProjectionObligation}
    (left : KeepsTokens first second) (right : KeepsTokens second third) :
    KeepsTokens first third := by
  intro path row found
  rcases right path row found with ⟨middle, between, same⟩
  rcases left path middle between with ⟨old, before, also⟩
  exact ⟨old, before, also.trans same⟩

theorem claimedRow_eq_some {row : ProjectionObligation}
    (found : tables.claimedRow path token = some row) :
    tables.obligations path = some row ∧ row.token = token := by
  rcases filter_eq_some_iff.mp found with ⟨stands, matched⟩
  exact ⟨stands, of_decide_eq_true matched⟩

theorem bumpedRow_cases (tables : Tables P H) (now : Int) (origin : ObligationOrigin)
    (incarnation : Nat) (path : P) :
    (tables.obligations path = none ∧
        (tables.bumpedRow now origin incarnation path).token = ⟨1, incarnation⟩) ∨
      ∃ row, tables.obligations path = some row ∧
        (tables.bumpedRow now origin incarnation path).token =
          ⟨row.invalidationGeneration + 1, row.obligationIncarnation⟩ := by
  rw [bumpedRow]
  cases stands : tables.obligations path with
  | none => exact .inl ⟨rfl, rfl⟩
  | some row => exact .inr ⟨row, rfl, rfl⟩

variable [DecidableEq P] {log more : List (Entry P H)} {incarnation : Nat}

/-! ## What the log remembers -/

def Entry.IsBump (path : P) : Entry P H → Prop
  | .bumped other _ => other = path
  | _ => False

def Entry.IsAdvance (path : P) : Entry P H → Prop
  | .advanced other _ => other = path
  | _ => False

def tokensOf (path : P) (log : List (Entry P H)) : List ObligationClaimToken :=
  log.filterMap fun entry => match entry with
    | .bumped other token => if other = path then some token else none
    | _ => none

theorem mem_tokensOf : token ∈ tokensOf path log ↔ .bumped path token ∈ log := by
  rw [tokensOf, mem_filterMap]
  constructor
  · rintro ⟨entry, member, found⟩
    cases entry with
    | bumped other given =>
      dsimp only at found
      split at found
      · rename_i same
        cases found
        rw [← same]
        exact member
      · cases found
    | advanced | published | closed => cases found
  · intro member
    exact ⟨_, member, if_pos rfl⟩

theorem tokensOf_append (path : P) (log more : List (Entry P H)) :
    tokensOf path (log ++ more) = tokensOf path log ++ tokensOf path more :=
  filterMap_append

theorem tokensOf_of_quiet (quiet : ∀ entry ∈ more, ¬entry.IsBump path) :
    tokensOf path more = [] := by
  rw [eq_nil_iff_forall_not_mem]
  intro token member
  exact quiet _ (mem_tokensOf.mp member) rfl

/-! ## The tokens of the rows -/

/-- Where every token given so far has an incarnation below `below`. -/
structure TokensSound (below : Nat) (obligations : P → Option ProjectionObligation)
    (log : List (Entry P H)) : Prop where
  last : ∀ path row, obligations path = some row →
    Since (· = .bumped path row.token) (Entry.IsBump path) log
  fresh : ∀ path token, .bumped path token ∈ log → token.obligationIncarnation < below
  reached : ∀ path row token, obligations path = some row → .bumped path token ∈ log →
    token.obligationIncarnation = row.obligationIncarnation →
      token.invalidationGeneration ≤ row.invalidationGeneration
  distinct : ∀ path, (tokensOf path log).Nodup

theorem TokensSound.keep {below : Nat} {before after : P → Option ProjectionObligation}
    (sound : TokensSound below before log) (keeps : KeepsTokens before after)
    (quiet : ∀ path, ∀ entry ∈ more, ¬entry.IsBump path) :
    TokensSound below after (log ++ more) := by
  have known : ∀ path token, .bumped path token ∈ log ++ more → .bumped path token ∈ log := by
    intro path token member
    rcases mem_append.mp member with old | new
    · exact old
    · exact absurd rfl (quiet path _ new)
  constructor
  · intro path row found
    rcases keeps path row found with ⟨old, stood, same⟩
    rw [← same]
    exact (sound.last path old stood).append (quiet path)
  · exact fun path token member => sound.fresh path token (known path token member)
  · intro path row token found member together
    rcases keeps path row found with ⟨old, stood, same⟩
    rcases ObligationClaimToken.mk.inj same with ⟨sameGeneration, sameIncarnation⟩
    rw [← sameGeneration]
    exact sound.reached path old token stood (known path token member)
      (together.trans sameIncarnation.symm)
  · intro path
    rw [tokensOf_append, tokensOf_of_quiet (quiet path), append_nil]
    exact sound.distinct path

theorem keepsTokens_update {obligations : P → Option ProjectionObligation}
    {row : Option ProjectionObligation}
    (same : ∀ new, row = some new → ∃ old, obligations path = some old ∧ old.token = new.token) :
    KeepsTokens obligations (Function.update obligations path row) := by
  intro other new found
  by_cases here : other = path
  · subst here
    rw [update_self] at found
    exact same new found
  · rw [update_of_ne here] at found
    exact ⟨new, found, rfl⟩

/-! ### One bump -/

theorem TokensSound.bump_fresh (sound : TokensSound incarnation tables.obligations log)
    (now : Int) (origin : ObligationOrigin) (path : P) :
    .bumped path (tables.bumpedRow now origin incarnation path).token ∉ log := by
  intro given
  rcases bumpedRow_cases tables now origin incarnation path with
    ⟨_, isNew⟩ | ⟨row, stands, further⟩
  · rw [isNew] at given
    exact Nat.lt_irrefl _ (sound.fresh path _ given)
  · rw [further] at given
    have bounded := sound.reached path row _ stands given rfl
    exact Nat.not_succ_le_self _ bounded

theorem TokensSound.bump (sound : TokensSound incarnation tables.obligations log) (now : Int)
    (origin : ObligationOrigin) (path : P) :
    TokensSound (incarnation + 1)
      (tables.setObligation path (some (tables.bumpedRow now origin incarnation path))).obligations
      (log ++ [Entry.bumped path (tables.bumpedRow now origin incarnation path).token]) := by
  have given := sound.bump_fresh now origin path
  have cases := bumpedRow_cases tables now origin incarnation path
  generalize tables.bumpedRow now origin incarnation path = new at given cases ⊢
  -- A standing row's incarnation was given with its last token.
  have standing : ∀ row, tables.obligations path = some row →
      row.obligationIncarnation < incarnation := by
    intro row stands
    rcases (sound.last path row stands).exists_mem with ⟨_, member, rfl⟩
    exact sound.fresh path _ member
  have newIncarnation : new.token.obligationIncarnation < incarnation + 1 := by
    rcases cases with ⟨_, isNew⟩ | ⟨row, stands, further⟩
    · rw [isNew]
      exact Nat.lt_succ_self _
    · rw [further]
      exact Nat.lt_succ_of_lt (standing row stands)
  constructor
  · intro other row found
    by_cases here : other = path
    · subst here
      rw [obligations_setObligation, update_self] at found
      cases found
      exact since_append_singleton rfl
    · rw [obligations_setObligation, update_of_ne here] at found
      apply (sound.last other row found).append
      intro entry member
      rw [mem_singleton.mp member]
      exact fun same => here same.symm
  · intro other token member
    rcases mem_append.mp member with old | isNew
    · exact Nat.lt_succ_of_lt (sound.fresh other token old)
    · cases mem_singleton.mp isNew
      exact newIncarnation
  · intro other row token found member together
    by_cases here : other = path
    · subst here
      rw [obligations_setObligation, update_self] at found
      cases found
      rcases mem_append.mp member with old | isNew
      · rcases cases with ⟨_, isNew⟩ | ⟨row, stands, further⟩
        · -- The new row's incarnation is above every one given before.
          have before := sound.fresh other token old
          rw [together, show new.obligationIncarnation = incarnation from
            congrArg ObligationClaimToken.obligationIncarnation isNew] at before
          exact absurd before (Nat.lt_irrefl _)
        · have generation : new.invalidationGeneration = row.invalidationGeneration + 1 :=
            congrArg ObligationClaimToken.invalidationGeneration further
          have incarnation : new.obligationIncarnation = row.obligationIncarnation :=
            congrArg ObligationClaimToken.obligationIncarnation further
          rw [generation]
          exact Nat.le_succ_of_le
            (sound.reached other row token stands old (together.trans incarnation))
      · cases mem_singleton.mp isNew
        exact Nat.le_refl _
    · rw [obligations_setObligation, update_of_ne here] at found
      rcases mem_append.mp member with old | isNew
      · exact sound.reached other row token found old together
      · cases mem_singleton.mp isNew
        exact absurd rfl here
  · intro other
    rw [tokensOf_append]
    by_cases here : other = path
    · subst here
      have only : tokensOf other [(.bumped other new.token : Entry P H)] = [new.token] := by
        simp [tokensOf]
      rw [only, nodup_append]
      refine ⟨sound.distinct other, nodup_singleton _, ?_⟩
      intro token old again isNew
      rw [mem_singleton.mp isNew]
      rintro rfl
      exact given (mem_tokensOf.mp old)
    · have none : tokensOf other [(.bumped path new.token : Entry P H)] = [] := by
        apply tokensOf_of_quiet
        intro entry member
        rw [mem_singleton.mp member]
        exact fun same => here same.symm
      rw [none, append_nil]
      exact sound.distinct other

theorem TokensSound.bumpEach {now : Int} {origin : ObligationOrigin} {touched : List P}
    (tables : Tables P H) (sound : TokensSound incarnation tables.obligations log) :
    TokensSound (incarnation + touched.length)
      (Tables.bumpEach now origin incarnation touched tables).1.obligations
      (log ++ (Tables.bumpEach now origin incarnation touched tables).2) := by
  induction touched generalizing incarnation tables log with
  | nil =>
    rw [bumpEach, append_nil]
    exact sound
  | cons path paths induction =>
    rw [bumpEach, append_cons, length_cons, Nat.add_comm paths.length 1,
      ← Nat.add_assoc]
    exact induction _ (sound.bump now origin path)

theorem not_closed_bumpEach (now : Int) (origin : ObligationOrigin) (incarnation : Nat)
    (touched : List P) (tables : Tables P H) {hash : H} :
    .closed path token hash ∉ (Tables.bumpEach now origin incarnation touched tables).2 := by
  induction touched generalizing incarnation tables with
  | nil => rintro ⟨⟩
  | cons first rest induction =>
    intro member
    rcases mem_cons.mp member with same | later
    · cases same
    · exact induction _ _ later

theorem bumpEach_spec (now : Int) (origin : ObligationOrigin) (incarnation : Nat)
    (touched : List P) (tables : Tables P H) :
    (Tables.bumpEach now origin incarnation touched tables).1.lastIncarnation =
        tables.lastIncarnation ∧
      (Tables.bumpEach now origin incarnation touched tables).1.fences = tables.fences ∧
      (Tables.bumpEach now origin incarnation touched tables).1.generations = tables.generations ∧
      ∀ path, ∀ entry ∈ (Tables.bumpEach now origin incarnation touched tables).2,
        ¬entry.IsAdvance path := by
  induction touched generalizing incarnation tables with
  | nil => exact ⟨rfl, rfl, rfl, by rintro _ _ ⟨⟩⟩
  | cons path paths induction =>
    rcases induction (incarnation + 1) (tables.setObligation path
      (some (tables.bumpedRow now origin incarnation path))) with
      ⟨last, fences, generations, quiet⟩
    refine ⟨last, fences, generations, ?_⟩
    intro other entry member
    rcases mem_cons.mp member with rfl | later
    · exact id
    · exact quiet other entry later

/-! ## The generations and the fences -/

/-- A generation that matches its path's fence was published with no advance since. -/
def GenerationsSound (tables : Tables P H) (log : List (Entry P H)) : Prop :=
  ∀ path generation, tables.generations path = some generation →
    ∃ fence, tables.fences path = some fence ∧ generation.publishedUnder ≤ fence ∧
      (generation.publishedUnder = fence →
        Since (· = .published path generation.resolvedPathStateHash fence)
          (Entry.IsAdvance path) log)

omit [DecidableEq P] in
theorem GenerationsSound.keep {before after : Tables P H} (sound : GenerationsSound before log)
    (sameFences : after.fences = before.fences)
    (sameGenerations : after.generations = before.generations)
    (quiet : ∀ path, ∀ entry ∈ more, ¬entry.IsAdvance path) :
    GenerationsSound after (log ++ more) := by
  intro path generation found
  rw [sameGenerations] at found
  rcases sound path generation found with ⟨fence, stands, bounded, published⟩
  rw [sameFences]
  exact ⟨fence, stands, bounded, fun same => (published same).append (quiet path)⟩

theorem GenerationsSound.advance (sound : GenerationsSound tables log) {next : Nat}
    (above : ∀ fence, tables.fences path = some fence → fence < next) :
    GenerationsSound (tables.setFence path next) (log ++ [Entry.advanced path next]) := by
  intro other generation found
  rcases sound other generation found with ⟨fence, stands, bounded, published⟩
  by_cases here : other = path
  · subst here
    have further := above fence stands
    refine ⟨next, by rw [fences_setFence, update_self], by omega, ?_⟩
    intro same
    omega
  · refine ⟨fence, by rw [fences_setFence, update_of_ne here]; exact stands, bounded, ?_⟩
    intro same
    apply (published same).append
    intro entry member
    rw [mem_singleton.mp member]
    exact fun isHere => here isHere.symm

theorem GenerationsSound.publish (sound : GenerationsSound tables log) {fence : Nat} (hash : H)
    (live : tables.fences path = some fence) :
    GenerationsSound (tables.writeGeneration path hash fence).1
      (log ++ (tables.writeGeneration path hash fence).2) := by
  intro other generation found
  by_cases here : other = path
  · subst here
    rw [generations_writeGeneration, update_self] at found
    cases found
    exact ⟨fence, live, Nat.le_refl _, fun _ => since_append_singleton rfl⟩
  · rw [generations_writeGeneration, update_of_ne here] at found
    rcases sound other generation found with ⟨stood, stands, bounded, published⟩
    refine ⟨stood, stands, bounded, fun same => (published same).append ?_⟩
    intro entry member
    rw [writeGeneration, mem_singleton] at member
    rw [member]
    exact id

theorem GenerationsSound.snapshot (sound : GenerationsSound tables log) (path : P) :
    GenerationsSound (tables.snapshotMutationFence path) log := by
  rw [snapshotMutationFence]
  split
  · rename_i missing
    intro other generation found
    rcases sound other generation found with ⟨fence, stands, bounded, published⟩
    have elsewhere : other ≠ path := by
      rintro rfl
      rw [missing] at stands
      cases stands
    exact ⟨fence, by rw [fences_setFence, update_of_ne elsewhere]; exact stands,
      bounded, published⟩
  · exact sound

omit [DecidableEq P] in
theorem lt_nextFence {fence : Nat} (stands : tables.fences path = some fence) :
    fence < tables.nextFence path := by
  rw [nextFence, stands]
  exact Nat.lt_succ_self _

/-! ## Completions -/

section Completions

variable [DecidableEq H] {run : Run P H}

omit [DecidableEq P] in
/-- A close that goes through finds its path's row with its token and a generation of
its state under the live fence. -/
theorem closable_iff {close : ExactClose P H} : tables.closable close = true ↔
      (∃ row, tables.obligations close.path = some row ∧ row.token = close.token) ∧
        ∃ generation, tables.generations close.path = some generation ∧
          tables.fences close.path = some generation.publishedUnder ∧
            generation.resolvedPathStateHash = close.hash := by
  rw [closable, Bool.and_eq_true, isSome_iff_exists]
  constructor
  · rintro ⟨⟨row, found⟩, proven⟩
    refine ⟨⟨row, claimedRow_eq_some found⟩, ?_⟩
    rw [exactProofCurrent] at proven
    cases stands : tables.generations close.path with
    | none =>
      rw [stands] at proven
      cases proven
    | some generation =>
      rw [stands, any_some, Bool.and_eq_true] at proven
      exact ⟨generation, rfl, of_decide_eq_true proven.1, of_decide_eq_true proven.2⟩
  · rintro ⟨⟨row, stands, same⟩, generation, found, live, proves⟩
    refine ⟨⟨row, ?_⟩, ?_⟩
    · rw [claimedRow, stands, filter_some, if_pos (decide_eq_true same)]
    · rw [exactProofCurrent, found, any_some, live, proves]
      simp

omit [DecidableEq H] in
theorem keepsTokens_deleteEach (closed : List (ExactClose P H)) (tables : Tables P H) :
    KeepsTokens tables.obligations
        (closed.foldl (fun left close => left.setObligation close.path none) tables).obligations ∧
      (closed.foldl (fun left close => left.setObligation close.path none)
        tables).lastIncarnation = tables.lastIncarnation ∧
      (closed.foldl (fun left close => left.setObligation close.path none) tables).fences =
        tables.fences ∧
      (closed.foldl (fun left close => left.setObligation close.path none) tables).generations =
        tables.generations := by
  induction closed generalizing tables with
  | nil => exact ⟨.refl _, rfl, rfl, rfl⟩
  | cons close closed induction =>
    rcases induction (tables.setObligation close.path none) with
      ⟨keeps, last, fences, generations⟩
    refine ⟨.trans (keepsTokens_update ?_) keeps, last, fences, generations⟩
    rintro new ⟨⟩

theorem completeChunks_spec (chunks : List (List (ExactClose P H))) (tables : Tables P H) :
    KeepsTokens tables.obligations (Tables.completeChunks chunks tables).1.obligations ∧
      (Tables.completeChunks chunks tables).1.lastIncarnation = tables.lastIncarnation ∧
      (Tables.completeChunks chunks tables).1.fences = tables.fences ∧
      (Tables.completeChunks chunks tables).1.generations = tables.generations ∧
      ∀ entry ∈ (Tables.completeChunks chunks tables).2, ∃ close : ExactClose P H,
        entry = .closed close.path close.token close.hash ∧ tables.closable close = true := by
  induction chunks generalizing tables with
  | nil => exact ⟨.refl _, rfl, rfl, rfl, by rintro _ ⟨⟩⟩
  | cons chunk chunks induction =>
    rcases keepsTokens_deleteEach (chunk.filter tables.closable) tables with
      ⟨first, firstLast, firstFences, firstGenerations⟩
    rcases induction (tables.completeChunk chunk).1 with
      ⟨rest, restLast, restFences, restGenerations, closes⟩
    refine ⟨.trans first rest, restLast.trans firstLast, restFences.trans firstFences,
      restGenerations.trans firstGenerations, ?_⟩
    intro entry member
    rw [completeChunks] at member
    rcases mem_append.mp member with here | later
    · rcases mem_map.mp here with ⟨close, listed, rfl⟩
      exact ⟨close, rfl, (mem_filter.mp listed).2⟩
    · rcases closes entry later with ⟨close, rfl, closable⟩
      refine ⟨close, rfl, closable_iff.mpr ?_⟩
      rcases closable_iff.mp closable with
        ⟨⟨row, stands, same⟩, generation, found, live, proves⟩
      rcases first close.path row stands with ⟨old, stood, also⟩
      exact ⟨⟨old, stood, also.trans same⟩, generation, firstGenerations ▸ found,
        firstFences ▸ live, proves⟩

/-! ## One transaction -/

/-- The tables and the log of a run agree. -/
structure Run.Sound (run : Run P H) : Prop where
  tokens : TokensSound (run.tables.lastIncarnation + 1) run.tables.obligations run.log
  generations : GenerationsSound run.tables run.log

omit [DecidableEq H] in
theorem sound_start : Run.Sound (⟨.empty P H, []⟩ : Run P H) where
  tokens := by
    constructor
    · rintro path row ⟨⟩
    · rintro path token ⟨⟩
    · rintro path row token ⟨⟩
    · exact fun _ => nodup_nil
  generations := by
    rintro path generation ⟨⟩

omit [DecidableEq H] in
theorem Run.Sound.quiet (sound : run.Sound) {after : Tables P H}
    (keeps : KeepsTokens run.tables.obligations after.obligations)
    (last : after.lastIncarnation = run.tables.lastIncarnation)
    (fences : after.fences = run.tables.fences)
    (generations : after.generations = run.tables.generations)
    (closes : ∀ entry ∈ more, ∃ path token hash, entry = .closed path token hash) :
    Run.Sound ⟨after, run.log ++ more⟩ := by
  constructor
  · rw [last]
    apply sound.tokens.keep keeps
    intro path entry member
    rcases closes entry member with ⟨other, token, hash, rfl⟩
    exact id
  · apply sound.generations.keep fences generations
    intro path entry member
    rcases closes entry member with ⟨other, token, hash, rfl⟩
    exact id

omit [DecidableEq H] in
theorem Run.Sound.fenced (sound : run.Sound) {after : Tables P H}
    (same : after.obligations = run.tables.obligations)
    (last : after.lastIncarnation = run.tables.lastIncarnation)
    (quiet : ∀ path, ∀ entry ∈ more, ¬entry.IsBump path)
    (generations : GenerationsSound after (run.log ++ more)) :
    Run.Sound ⟨after, run.log ++ more⟩ := by
  constructor
  · rw [last, same]
    exact sound.tokens.keep (.refl _) quiet
  · exact generations

omit [DecidableEq H] in
theorem Run.Sound.bumped (sound : run.Sound) (touched : List P) (now : Int)
    (origin : ObligationOrigin) :
    Run.Sound ⟨(run.tables.bumpProjectionObligations touched now origin).1,
      run.log ++ (run.tables.bumpProjectionObligations touched now origin).2⟩ := by
  rw [bumpProjectionObligations]
  split
  · rw [append_nil]
    exact sound
  · dsimp only
    rw [Nat.add_sub_cancel]
    have each := bumpEach_spec now origin (run.tables.lastIncarnation + 1) touched
      { run.tables with lastIncarnation := run.tables.lastIncarnation + touched.length }
    rcases each with ⟨last, fences, generations, quiet⟩
    constructor
    · rw [last, Nat.add_right_comm]
      apply TokensSound.bumpEach
        { run.tables with lastIncarnation := run.tables.lastIncarnation + touched.length }
      exact sound.tokens
    · exact sound.generations.keep fences generations quiet

omit [DecidableEq H] in
theorem Run.Sound.unchanged (sound : run.Sound) : Run.Sound ⟨run.tables, run.log ++ []⟩ :=
  sound.quiet (.refl _) rfl rfl rfl (by rintro _ ⟨⟩)

omit [DecidableEq H] in
theorem Run.Sound.rowSet (sound : run.Sound) {row : Option ProjectionObligation}
    (same : ∀ new, row = some new →
      ∃ old, run.tables.obligations path = some old ∧ old.token = new.token) :
    Run.Sound ⟨run.tables.setObligation path row, run.log ++ []⟩ :=
  sound.quiet (keepsTokens_update same) rfl rfl rfl (by rintro _ ⟨⟩)

omit [DecidableEq H] in
theorem Run.Sound.advanced (sound : run.Sound) {next : Nat}
    (above : ∀ fence, run.tables.fences path = some fence → fence < next) :
    Run.Sound ⟨run.tables.setFence path next, run.log ++ [Entry.advanced path next]⟩ := by
  refine sound.fenced rfl rfl ?_
    (sound.generations.advance above)
  intro other entry member
  rw [mem_singleton.mp member]
  exact id

omit [DecidableEq H] in
theorem Run.Sound.written (sound : run.Sound) {fence : Nat} (hash : H)
    (live : run.tables.fences path = some fence) :
    Run.Sound ⟨(run.tables.writeGeneration path hash fence).1,
      run.log ++ (run.tables.writeGeneration path hash fence).2⟩ := by
  refine sound.fenced rfl rfl ?_ (sound.generations.publish hash live)
  intro other entry member
  rw [writeGeneration, mem_singleton] at member
  rw [member]
  exact id

theorem Run.Sound.step (sound : run.Sound) (event : Event P H) : (run.step event).Sound := by
  -- A statement that finds a claimed row and keeps its token.
  have claimed : ∀ {path token row new}, run.tables.claimedRow path token = some row →
      row.token = new.token → Run.Sound ⟨run.tables.setObligation path (some new), run.log ++ []⟩ := by
    intro path token row new found same
    apply sound.rowSet
    rintro _ ⟨⟩
    exact ⟨row, (claimedRow_eq_some found).1, same⟩
  cases event with
  | bump touched now origin => exact sound.bumped touched now origin
  | claim => exact sound.unchanged
  | attemptFailed path token nextAttemptAt now =>
    rw [Run.step, transact, markObligationAttemptFailed]
    split
    · exact sound.unchanged
    · rename_i found
      exact claimed found rfl
  | deferred path token nextAttemptAt now =>
    rw [Run.step, transact, deferObligationWithoutPenalty]
    split
    · exact sound.unchanged
    · rename_i found
      exact claimed found rfl
  | complete close =>
    rw [Run.step, transact, completeObligationIfExactProofCurrent]
    split
    · refine sound.quiet (keepsTokens_update ?_) rfl rfl rfl ?_
      · rintro new ⟨⟩
      · intro entry member
        exact ⟨_, _, _, mem_singleton.mp member⟩
    · exact sound.unchanged
  | completeBatch closes =>
    have spec := completeChunks_spec (closes.toChunks closesPerStatement) run.tables
    rcases spec with ⟨keeps, last, fences, generations, closed⟩
    apply sound.quiet keeps last fences generations
    intro entry member
    rcases closed entry member with ⟨close, rfl, _⟩
    exact ⟨_, _, _, rfl⟩
  | completeNonExact path token proof proven =>
    rw [Run.step, transact, completeObligationIfNonExactProofCurrent]
    split
    · exact sound.unchanged
    · rename_i found
      split
      · split
        · exact claimed found rfl
        · exact sound.unchanged
      · split
        · apply sound.rowSet
          rintro new ⟨⟩
        · exact sound.unchanged
  | rearm path now =>
    rw [Run.step, transact, rearmIgnoreBlockedObligation]
    split
    · exact sound.unchanged
    · rename_i row stands
      split
      · apply sound.rowSet
        rintro new ⟨⟩
        exact ⟨row, stands, rfl⟩
      · exact sound.unchanged
  | bumpFence frozen path =>
    rw [Run.step, transact, bumpMutationFence]
    split
    · exact sound.unchanged
    · exact sound.advanced fun fence stands => lt_nextFence stands
  | snapshotFence path =>
    rw [Run.step, transact]
    apply sound.fenced _ _ (by rintro _ _ ⟨⟩)
    · rw [append_nil]
      exact sound.generations.snapshot path
    · rw [snapshotMutationFence]
      split <;> rfl
    · rw [snapshotMutationFence]
      split <;> rfl
  | invalidate path =>
    rw [Run.step, transact, invalidatePublishedGenerations]
    split
    · exact sound.unchanged
    · rename_i fence stands
      apply sound.advanced
      intro other found
      rw [stands] at found
      cases found
      exact Nat.lt_succ_self _
  | publish path hash expected =>
    rw [Run.step, transact, publishMaterializedGenerationIfFenceCurrent]
    split
    · rename_i live
      exact sound.written hash live
    · exact sound.unchanged
  | adopt frozen path hash =>
    rw [Run.step, transact, adoptObservedActualGeneration]
    split
    · exact sound.unchanged
    · have moved := sound.advanced fun fence (stands : run.tables.fences path = some fence) =>
        lt_nextFence stands
      have adopted := moved.written hash (by
        rw [fences_setFence, update_self])
      rw [append_cons]
      exact adopted

theorem sound_run (events : List (Event P H)) : (runAll events).Sound := by
  rw [runAll]
  -- The tables of the runs so far are kept sound, event by event.
  have kept : ∀ (rest : List (Event P H)) (run : Run P H), run.Sound →
      (rest.foldl Run.step run).Sound := by
    intro rest
    induction rest with
    | nil => exact fun _ sound => sound
    | cons event rest induction => exact fun _ sound => induction _ (sound.step event)
  exact kept events _ sound_start

/-! ## Current claims and current proofs -/

theorem closable_of_closed {event : Event P H} {hash : H}
    (closed : .closed path token hash ∈ (transact tables event).2) :
    tables.closable ⟨path, token, hash⟩ = true := by
  cases event with
  | complete close =>
    rw [transact, completeObligationIfExactProofCurrent] at closed
    split at closed
    · rename_i closable
      cases mem_singleton.mp closed
      exact closable
    · cases closed
  | completeBatch closes =>
    have spec := completeChunks_spec (closes.toChunks closesPerStatement) tables
    rcases spec.2.2.2.2 _ closed with ⟨close, same, closable⟩
    cases same
    exact closable
  | bump touched now origin =>
    rw [transact, bumpProjectionObligations] at closed
    split at closed
    · cases closed
    · exact absurd closed (not_closed_bumpEach _ _ _ _ _)
  | bumpFence frozen path =>
    rw [transact, bumpMutationFence] at closed
    split at closed
    · cases closed
    · cases mem_singleton.mp closed
  | invalidate path =>
    rw [transact, invalidatePublishedGenerations] at closed
    split at closed
    · cases closed
    · cases mem_singleton.mp closed
  | publish path hash expected =>
    rw [transact, publishMaterializedGenerationIfFenceCurrent] at closed
    split at closed
    · cases mem_singleton.mp closed
    · cases closed
  | adopt frozen path hash =>
    rw [transact, adoptObservedActualGeneration] at closed
    split at closed
    · cases closed
    · rcases mem_cons.mp closed with same | later
      · cases same
      · cases mem_singleton.mp later
  | claim | attemptFailed | deferred | completeNonExact | rearm | snapshotFence => cases closed

/-- In every run, an exact completion closes a path's obligation only for the token of
its last bump and under a proof of the desired state published with no advance of the
fence since; and no path is ever given a token twice. -/
theorem obligations_close_only_current (events : List (Event P H)) :
    (∀ event path token hash, .closed path token hash ∈ (transact (runAll events).tables event).2 →
      Since (· = .bumped path token) (Entry.IsBump path) (runAll events).log ∧
        ∃ fence, (runAll events).tables.fences path = some fence ∧
          Since (· = .published path hash fence) (Entry.IsAdvance path) (runAll events).log) ∧
      ∀ path, (tokensOf path (runAll events).log).Nodup := by
  have sound := sound_run events
  refine ⟨?_, sound.tokens.distinct⟩
  intro event path token hash closed
  rcases closable_iff.mp (closable_of_closed closed) with
    ⟨⟨row, stands, same⟩, generation, found, live, proves⟩
  rcases sound.generations path generation found with ⟨fence, fenced, _, published⟩
  rw [live] at fenced
  cases fenced
  dsimp only at same proves
  subst same proves
  exact ⟨sound.tokens.last path row stands, generation.publishedUnder, live, published rfl⟩

end Completions

end Yadorilink.Obligations
