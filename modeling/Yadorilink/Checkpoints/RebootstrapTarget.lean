import Yadorilink.Checkpoints.HistoryFloor

/-! The choice of the checkpoint to rebootstrap to. Of the candidates that preservation accepts it
drops those another one provably descends from, and takes of the rest the one that covers the most
of this replica's own chain. -/

namespace Yadorilink.Checkpoints

open Std NativeAuthorFrontier Undominated List Option

structure TargetCandidate where
  checkpointId : CheckpointId
  frontier : NativeAuthorFrontier

/-- The replica's own chain for each incarnation: the delta hashes in the order of their sequence
numbers, from 1 on. -/
abbrev OwnChains := ExtTreeMap AuthorId (List DeltaHash)

/-- Where the choice would abort. -/
inductive Panic where
  | subtractWithOverflow
  | expectedBlocked
  deriving DecidableEq

/-! ## The rule -/

def hashAt (chain : List DeltaHash) (seq : Nat) : Except Panic (Option DeltaHash) :=
  if seq = 0 then .error .subtractWithOverflow else .ok chain[seq - 1]?

/-- The highest sequence of an own incarnation that the entry covers: none where the chain has
another delta at the entry's sequence. -/
def coveredLimit (entry : Option NativeAuthorFrontierEntry)
    (hashAt : Nat → Except Panic (Option DeltaHash)) : Except Panic Nat :=
  match entry with
  | none => .ok 0
  | some entry => (hashAt entry.seq).map fun found =>
    if found.any fun hash => decide (hash ≠ entry.tip) then 0 else entry.seq

def onChain (chain : List DeltaHash) (entry : NativeAuthorFrontierEntry) : Bool :=
  decide (1 ≤ entry.seq) && decide (chain[entry.seq - 1]? = some entry.tip)

/-- Where `newer` is further along for an own incarnation, both positions are on its chain. -/
def agreesOnChain (own : OwnChains) (newer : NativeAuthorFrontier)
    (entry : AuthorId × NativeAuthorFrontierEntry) : Bool :=
  match own[entry.1]?, newer[entry.1]? with
  | none, _ => true
  | some _, none => false
  | some chain, some new =>
    if new.seq = entry.2.seq then true else onChain chain new && onChain chain entry.2

/-- `newer` covers `older`, is not covered by it, and is further along for own incarnations only on
the local chain. -/
def provablyDescends (own : OwnChains) (newer older : TargetCandidate) : Bool :=
  if !frontierCovers newer.frontier older.frontier ||
      frontierCovers older.frontier newer.frontier then
    false
  else
    older.frontier.toList.all (agreesOnChain own newer.frontier)

/-- How much of the own chains the candidate covers. -/
def covered (own : OwnChains) (candidate : TargetCandidate) : Except Panic Nat :=
  (own.toList.mapM fun author =>
    (coveredLimit candidate.frontier[author.1]? (hashAt author.2)).map fun limit =>
      min limit author.2.length).map List.sum

/-- The rank of a candidate, which is computed for each of the pool. -/
def ranked (own : OwnChains) (candidate : TargetCandidate) :
    Except Panic ((Nat ×ₗ Nat) × TargetCandidate) :=
  (covered own candidate).map fun count =>
    (toLex (count, candidate.checkpointId.toNat), candidate)

def best (own : OwnChains) (pool : List TargetCandidate) :
    Except Panic (Option CheckpointId) :=
  ((undominated (provablyDescends own) pool).mapM (ranked own)).map fun keyed =>
    (maxByKey Prod.fst keyed).map fun chosen => chosen.2.checkpointId

variable {ρ : Type}

/-- The reason preservation refuses the candidate that would otherwise have been chosen. -/
def refusal (blocked : ExtTreeMap CheckpointId ρ) :
    Option CheckpointId → Except Panic (Except ρ (Option CheckpointId))
  | none => .ok (.ok none)
  | some checkpointId =>
    match blocked[checkpointId]? with
    | some reason => .ok (.error reason)
    | none => .error .expectedBlocked

def usable (blocked : ExtTreeMap CheckpointId ρ) (candidates : List TargetCandidate) :
    List TargetCandidate :=
  candidates.filter fun candidate => !blocked.contains candidate.checkpointId

def orRefusal (candidates : List TargetCandidate) (own : OwnChains)
    (blocked : ExtTreeMap CheckpointId ρ) :
    Option CheckpointId → Except Panic (Except ρ (Option CheckpointId))
  | some chosen => .ok (.ok (some chosen))
  | none => best own candidates >>= refusal blocked

/-- The choice of the target: `blocked` has the reason preservation refuses a candidate. -/
def chooseRebootstrapTarget (candidates : List TargetCandidate) (own : OwnChains)
    (blocked : ExtTreeMap CheckpointId ρ) : Except Panic (Except ρ (Option CheckpointId)) :=
  best own (usable blocked candidates) >>= orRefusal candidates own blocked

/-! ## What it is for -/

/-- The entry covers the delta an own chain has at a sequence number: it is at or below the entry,
and the chain has no other delta at the entry. -/
def coversOwn (entry : Option NativeAuthorFrontierEntry) (chain : List DeltaHash) (seq : Nat) :
    Bool :=
  entry.any fun entry => decide (seq ≤ entry.seq) &&
    chain[entry.seq - 1]?.all fun hash => decide (hash = entry.tip)

/-- The number of this replica's own deltas that the candidate covers. -/
def coveredDeltas (own : OwnChains) (candidate : TargetCandidate) : Nat :=
  (own.toList.map fun author =>
    (List.range' 1 author.2.length).countP
      (coversOwn candidate.frontier[author.1]? author.2)).sum

/-- No position of the frontier is before an author's first delta. -/
def TargetCandidate.Positive (candidate : TargetCandidate) : Prop :=
  ∀ (author : AuthorId) (entry : NativeAuthorFrontierEntry),
    candidate.frontier[author]? = some entry → 1 ≤ entry.seq

section Coverage

variable {own : OwnChains} {candidate : TargetCandidate}

theorem mapM_eq_ok {α β ε : Type} {items : List α} {action : α → Except ε β} {value : α → β}
    (total : ∀ item ∈ items, action item = .ok (value item)) :
    items.mapM action = .ok (items.map value) := by
  induction items with
  | nil => rfl
  | cons item rest induction =>
    rw [mapM_cons, total item (.head _),
      induction fun other member => total other (.tail item member)]
    rfl

theorem countP_range_le (bound length : Nat) :
    (List.range' 1 length).countP (fun seq => decide (seq ≤ bound)) = min bound length := by
  induction length with
  | zero => simp
  | succ length induction =>
    rw [List.range'_1_concat, countP_append, induction, countP_singleton]
    simp only [decide_eq_true_eq]
    split
    · omega
    · omega

theorem coveredLimit_eq {entry : Option NativeAuthorFrontierEntry} {chain : List DeltaHash}
    (positive : ∀ found, entry = some found → 1 ≤ found.seq) :
    (coveredLimit entry (hashAt chain)).map (fun limit => min limit chain.length) =
      .ok ((List.range' 1 chain.length).countP (coversOwn entry chain)) := by
  cases entry with
  | none =>
    have nothing : (List.range' 1 chain.length).countP (coversOwn none chain) = 0 :=
      countP_eq_zero.mpr fun _ _ covers => by cases covers
    rw [nothing, coveredLimit]
    exact congrArg Except.ok (Nat.zero_min _)
  | some entry =>
    have real : entry.seq ≠ 0 := Nat.one_le_iff_ne_zero.mp (positive entry rfl)
    rw [coveredLimit, hashAt, if_neg real]
    apply congrArg Except.ok
    have covers : coversOwn (some entry) chain = fun seq => decide (seq ≤ entry.seq) &&
        chain[entry.seq - 1]?.all fun hash => decide (hash = entry.tip) := rfl
    rw [covers]
    cases found : chain[entry.seq - 1]? with
    | none => simp [countP_range_le]
    | some hash =>
      by_cases same : hash = entry.tip
      · simp [same, countP_range_le]
      · simp [same]

theorem covered_eq (positive : candidate.Positive) :
    covered own candidate = .ok (coveredDeltas own candidate) := by
  rw [covered, mapM_eq_ok fun author _ => coveredLimit_eq (positive author.1)]
  rfl

end Coverage

/-! ## The best of a pool -/

section Best

variable {own : OwnChains} {pool : List TargetCandidate}

def rank (own : OwnChains) (candidate : TargetCandidate) : Nat ×ₗ Nat :=
  toLex (coveredDeltas own candidate, candidate.checkpointId.toNat)

theorem dominates_of_provablyDescends {newer older : TargetCandidate}
    (descends : provablyDescends own newer older = true) :
    dominates newer.frontier older.frontier = true := by
  rw [provablyDescends] at descends
  split at descends
  · cases descends
  · rename_i strictly
    simpa [dominates] using strictly

theorem undescended_ne_nil (inhabited : pool ≠ []) : undominated (provablyDescends own) pool ≠ [] :=
  undominated_ne_nil (provablyDescends own)
    (fun newer older => dominates newer.frontier older.frontier)
    (fun candidate => dominates_irrefl candidate.frontier) (fun _ _ _ => dominates_trans)
    (fun _ _ => dominates_of_provablyDescends) inhabited

theorem maxByKey_map {α β κ : Type} [LinearOrder κ] (key : β → κ) (made : α → β) (items : List α) :
    maxByKey key (items.map made) = (maxByKey (fun item => key (made item)) items).map made := by
  induction items with
  | nil => rfl
  | cons item rest induction =>
    rw [map_cons, maxByKey, maxByKey, induction]
    cases maxByKey (fun item => key (made item)) rest with
    | none => rfl
    | some best =>
      simp only [map_some]
      split
      · rfl
      · rfl

theorem best_eq (positive : ∀ candidate ∈ pool, candidate.Positive) :
    best own pool = .ok ((maxByKey (rank own) (undominated (provablyDescends own) pool)).map
      (·.checkpointId)) := by
  have total : ∀ candidate ∈ undominated (provablyDescends own) pool,
      ranked own candidate = .ok (rank own candidate, candidate) := by
    intro candidate member
    rw [ranked, covered_eq (positive candidate (mem_undominated.mp member).1)]
    rfl
  rw [best, mapM_eq_ok total]
  apply congrArg Except.ok
  dsimp only
  rw [maxByKey_map, Option.map_map]
  rfl

theorem best_perm {reordered : List TargetCandidate} (permuted : pool.Perm reordered)
    (positive : ∀ candidate ∈ pool, candidate.Positive) : best own pool = best own reordered := by
  rw [best_eq positive, best_eq fun candidate member =>
    positive candidate (permuted.mem_iff.mpr member)]
  have keys := maxByKey_perm (rank own) (undominated_perm (provablyDescends own) permuted)
  have ids := congrArg (Option.map fun key => BitVec.ofNat 256 (ofLex key).2) keys
  simp only [Option.map_map, Function.comp_def, rank, ofLex_toLex, BitVec.ofNat_toNat,
    BitVec.setWidth_eq] at ids
  exact congrArg Except.ok ids

theorem best_eq_none (positive : ∀ candidate ∈ pool, candidate.Positive) :
    best own pool = .ok none ↔ pool = [] := by
  rw [best_eq positive, Except.ok.injEq, map_eq_none_iff, maxByKey_eq_none]
  constructor
  · intro empty
    by_contra inhabited
    exact undescended_ne_nil inhabited empty
  · rintro rfl
    rfl

theorem best_spec (positive : ∀ candidate ∈ pool, candidate.Positive) {chosen : CheckpointId}
    (found : best own pool = .ok (some chosen)) :
    ∃ candidate ∈ pool, candidate.checkpointId = chosen ∧
      (∀ other ∈ pool, provablyDescends own other candidate = false) ∧
      ∀ other ∈ pool, (∀ newer ∈ pool, provablyDescends own newer other = false) →
        coveredDeltas own other ≤ coveredDeltas own candidate := by
  rw [best_eq positive, Except.ok.injEq] at found
  rcases map_eq_some_iff.mp found with ⟨candidate, greatest, named⟩
  rcases maxByKey_spec greatest with ⟨member, most⟩
  rcases mem_undominated.mp member with ⟨inPool, undescended⟩
  refine ⟨candidate, inPool, named, undescended, fun other listed free => ?_⟩
  have below := most other (mem_undominated.mpr ⟨listed, free⟩)
  rcases Prod.Lex.le_iff.mp below with less | equal
  · exact less.le
  · exact equal.1.le

end Best

/-! ## The choice -/

section Choice

variable {own : OwnChains} {blocked : ExtTreeMap CheckpointId ρ} {candidates : List TargetCandidate}

theorem mem_usable {candidate : TargetCandidate} : candidate ∈ usable blocked candidates ↔
      candidate ∈ candidates ∧ candidate.checkpointId ∉ blocked := by
  rw [usable, mem_filter, Bool.not_eq_true', ← Bool.not_eq_true, ExtTreeMap.contains_iff_mem]

theorem chooseRebootstrapTarget_perm {reordered : List TargetCandidate}
    (permuted : candidates.Perm reordered)
    (positive : ∀ candidate ∈ candidates, candidate.Positive) :
    chooseRebootstrapTarget candidates own blocked =
      chooseRebootstrapTarget reordered own blocked := by
  have accepted : best own (usable blocked candidates) = best own (usable blocked reordered) :=
    best_perm (permuted.filter _) fun candidate member =>
      positive candidate (mem_filter.mp member).1
  have refused : orRefusal candidates own blocked = orRefusal reordered own blocked := by
    funext chosen
    cases chosen with
    | none => rw [orRefusal, orRefusal, best_perm permuted positive]
    | some chosen => rfl
  rw [chooseRebootstrapTarget, chooseRebootstrapTarget, accepted, refused]

/-- The choice is a best one of those accepted, or the reason for a candidate when all of them are
refused, or nothing when there are none. -/
theorem chooseRebootstrapTarget_cases (positive : ∀ candidate ∈ candidates, candidate.Positive) :
    (∃ chosen, best own (usable blocked candidates) = .ok (some chosen) ∧
        chooseRebootstrapTarget candidates own blocked = .ok (.ok (some chosen))) ∨
      usable blocked candidates = [] ∧
        ((candidates = [] ∧ chooseRebootstrapTarget candidates own blocked = .ok (.ok none)) ∨
          ∃ reason, chooseRebootstrapTarget candidates own blocked = .ok (.error reason)) := by
  have positiveUsable : ∀ candidate ∈ usable blocked candidates, candidate.Positive :=
    fun candidate member => positive candidate (mem_usable.mp member).1
  have bestUsable := @best_eq own _ positiveUsable
  cases found : (maxByKey (rank own) (undominated (provablyDescends own)
      (usable blocked candidates))).map (·.checkpointId) with
  | some chosen =>
    rw [found] at bestUsable
    refine .inl ⟨chosen, bestUsable, ?_⟩
    rw [chooseRebootstrapTarget, bestUsable]
    rfl
  | none =>
    rw [found] at bestUsable
    have refused := (best_eq_none positiveUsable).mp bestUsable
    refine .inr ⟨refused, ?_⟩
    have second : chooseRebootstrapTarget candidates own blocked =
        (best own candidates >>= refusal blocked) := by
      rw [chooseRebootstrapTarget, bestUsable]
      rfl
    cases named : (maxByKey (rank own) (undominated (provablyDescends own) candidates)).map
        (·.checkpointId) with
    | none =>
      have bestAll := @best_eq own _ positive
      rw [named] at bestAll
      refine .inl ⟨(best_eq_none positive).mp bestAll, ?_⟩
      rw [second, bestAll]
      rfl
    | some chosen =>
      have bestAll := @best_eq own _ positive
      rw [named] at bestAll
      rcases best_spec positive bestAll with ⟨candidate, member, rfl, -⟩
      have inBlocked : candidate.checkpointId ∈ blocked := by
        by_contra free
        have accepted := mem_usable.mpr ⟨member, free⟩
        rw [refused] at accepted
        cases accepted
      rcases isSome_iff_exists.mp
        (ExtTreeMap.mem_iff_isSome_getElem?.mp inBlocked) with ⟨reason, held⟩
      refine .inr ⟨reason, ?_⟩
      rw [second, bestAll]
      change refusal blocked (some candidate.checkpointId) = _
      rw [refusal, held]

/-- The choice returns, whatever the order of the candidates, and what it returns is a best one of
those preservation accepts. -/
theorem rebootstrap_target_chosen (own : OwnChains) (blocked : ExtTreeMap CheckpointId ρ)
    (positive : ∀ candidate ∈ candidates, candidate.Positive) :
    ∃ choice, chooseRebootstrapTarget candidates own blocked = .ok choice ∧
      (∀ reordered, candidates.Perm reordered →
        chooseRebootstrapTarget reordered own blocked = .ok choice) ∧
      (choice = .ok none → candidates = []) ∧
      (∀ reason, choice = .error reason →
        ∀ candidate ∈ candidates, candidate.checkpointId ∈ blocked) ∧
      ∀ chosen, choice = .ok (some chosen) →
        ∃ candidate ∈ candidates, candidate.checkpointId = chosen ∧ chosen ∉ blocked ∧
          (∀ other ∈ candidates, other.checkpointId ∉ blocked →
            provablyDescends own other candidate = false) ∧
          ∀ other ∈ candidates, other.checkpointId ∉ blocked →
            (∀ newer ∈ candidates, newer.checkpointId ∉ blocked →
              provablyDescends own newer other = false) →
            coveredDeltas own other ≤ coveredDeltas own candidate := by
  have reordering : ∀ choice, chooseRebootstrapTarget candidates own blocked = .ok choice →
      ∀ reordered, candidates.Perm reordered →
        chooseRebootstrapTarget reordered own blocked = .ok choice :=
    fun choice made reordered permuted =>
      (chooseRebootstrapTarget_perm permuted positive).symm.trans made
  rcases @chooseRebootstrapTarget_cases ρ own blocked candidates positive with
    ⟨chosen, found, made⟩ | ⟨refused, ⟨empty, made⟩ | ⟨reason, made⟩⟩
  · refine ⟨_, made, reordering _ made, fun nothing => ?_, fun _ failed => ?_, fun named same => ?_⟩
    · cases nothing
    · cases failed
    · cases same
      rcases best_spec (fun candidate member => positive candidate (mem_usable.mp member).1) found
        with ⟨candidate, accepted, rfl, undescended, most⟩
      refine ⟨candidate, (mem_usable.mp accepted).1, rfl, (mem_usable.mp accepted).2, ?_, ?_⟩
      · exact fun other listed free => undescended other (mem_usable.mpr ⟨listed, free⟩)
      · intro other listed free last
        apply most other (mem_usable.mpr ⟨listed, free⟩)
        exact fun newer member => last newer (mem_usable.mp member).1 (mem_usable.mp member).2
  · refine ⟨_, made, reordering _ made, fun _ => empty, fun _ failed => ?_, fun _ same => ?_⟩
    · cases failed
    · cases same
  · refine ⟨_, made, reordering _ made, fun nothing => ?_, fun _ _ => ?_, fun _ same => ?_⟩
    · cases nothing
    · intro candidate member
      by_contra free
      have accepted := mem_usable.mpr ⟨member, free⟩
      rw [refused] at accepted
      cases accepted
    · cases same

end Choice

/-! ## Two checkpoints of an own chain -/

/-- A checkpoint over the first deltas of one author. -/
def checkpointAt (number : Nat) : TargetCandidate :=
  ⟨BitVec.ofNat 256 number, (generation number 0).frontier⟩

theorem checkpointAt_positive {number : Nat} (real : 1 ≤ number) :
    (checkpointAt number).Positive := by
  intro author entry held
  rw [checkpointAt, generation] at held
  dsimp only at held
  rw [OrderedMap.getElem?_insert_eq] at held
  split at held
  · cases held
    exact real
  · rw [ExtTreeMap.getElem?_empty] at held
    cases held

/-- The later of two checkpoints is refused, so the earlier one is the target, in both orders. -/
theorem refused_checkpoint_passed_over :
    ∃ choice, chooseRebootstrapTarget [checkpointAt 1, checkpointAt 2]
        ((∅ : OwnChains).insert ⟨"a", 1⟩ [⟨1⟩, ⟨2⟩])
        ((∅ : ExtTreeMap CheckpointId Unit).insert 2 ()) = .ok choice ∧
      choice = .ok (some 1) ∧
      chooseRebootstrapTarget [checkpointAt 2, checkpointAt 1]
        ((∅ : OwnChains).insert ⟨"a", 1⟩ [⟨1⟩, ⟨2⟩])
        ((∅ : ExtTreeMap CheckpointId Unit).insert 2 ()) = .ok choice := by
  have positive : ∀ candidate ∈ [checkpointAt 1, checkpointAt 2], candidate.Positive := by
    intro candidate member
    rcases List.mem_cons.mp member with rfl | member
    · exact checkpointAt_positive (by decide)
    · rw [List.mem_singleton.mp member]
      exact checkpointAt_positive (by decide)
  rcases rebootstrap_target_chosen ((∅ : OwnChains).insert ⟨"a", 1⟩ [⟨1⟩, ⟨2⟩])
    ((∅ : ExtTreeMap CheckpointId Unit).insert 2 ()) positive with ⟨choice, made, reordered, -⟩
  have first : chooseRebootstrapTarget [checkpointAt 1, checkpointAt 2]
      ((∅ : OwnChains).insert ⟨"a", 1⟩ [⟨1⟩, ⟨2⟩])
      ((∅ : ExtTreeMap CheckpointId Unit).insert 2 ()) = .ok (.ok (some 1)) := by
    decide
  exact ⟨choice, made, (Except.ok.inj (first.symm.trans made)).symm,
    reordered _ (List.Perm.swap ..)⟩

end Yadorilink.Checkpoints
