import Yadorilink.Checkpoints.FrontierOrder
import Yadorilink.Foundation.Machine

/-! The history floor: the trusted checkpoint a replica treats as the boundary of the history it
keeps, the rule for the checkpoint it may advance to, and its adoption. -/

namespace Yadorilink.Checkpoints

open Std NativeAuthorFrontier Undominated List Option

abbrev CheckpointId := BitVec 256

/-! ## The rule -/

/-- When a newer trusted checkpoint may become the floor. The numbers are a `u64` and a `usize`. -/
structure HistoryHorizon where
  minAgeDays : Nat
  minNewerGenerations : Nat
  pressureOverride : Bool

structure FloorCandidate where
  checkpointId : CheckpointId
  adoptedAtUnixtime : Int
  frontier : NativeAuthorFrontier

structure FloorChoice where
  checkpointId : CheckpointId
  byteLimit : Bool
  deriving DecidableEq

def secondsPerDay : Int := 86400

def saturated (value : Int) : Int :=
  max (-2 ^ 63) (min (2 ^ 63 - 1) value)

def asI64 (value : Nat) : Int :=
  (value : Int).bmod (2 ^ 64)

def furtherThan (newer older : FloorCandidate) : Bool :=
  dominates newer.frontier older.frontier

/-- One of the candidates that no other of them dominates, with the greatest id. -/
def furthest (candidates : List FloorCandidate) : Option FloorCandidate :=
  maxByKey (·.checkpointId.toNat) (undominated furtherThan candidates)

def floorFrontier : Option FloorCandidate → NativeAuthorFrontier
  | none => ∅
  | some floor => floor.frontier

/-- The candidate is not the floor, and strictly further than it. -/
def isBeyond (currentFloor : Option FloorCandidate) (candidate : FloorCandidate) : Bool :=
  (currentFloor.all fun floor => decide (floor.checkpointId ≠ candidate.checkpointId)) &&
    dominates candidate.frontier (floorFrontier currentFloor)

/-- How many of the candidates are strictly further than this one. -/
def newerGenerations (candidates : List FloorCandidate) (candidate : FloorCandidate) : Nat :=
  candidates.countP fun other => dominates other.frontier candidate.frontier

def meetsNormal (candidates : List FloorCandidate) (nowUnixtime : Int) (horizon : HistoryHorizon)
    (candidate : FloorCandidate) : Bool :=
  decide (saturated (asI64 horizon.minAgeDays * secondsPerDay) ≤
      saturated (nowUnixtime - candidate.adoptedAtUnixtime)) &&
    decide (horizon.minNewerGenerations ≤ newerGenerations candidates candidate)

def chooseFloor (candidates : List FloorCandidate) (currentFloor : Option FloorCandidate)
    (nowUnixtime : Int) (horizon : HistoryHorizon) : Option FloorChoice :=
  let qualifying := candidates.filter (isBeyond currentFloor)
  let byHorizon := qualifying.filter (meetsNormal candidates nowUnixtime horizon)
  match furthest byHorizon with
  | some candidate => some ⟨candidate.checkpointId, false⟩
  | none =>
    if horizon.pressureOverride then
      (furthest qualifying).map fun candidate => ⟨candidate.checkpointId, true⟩
    else
      none

/-! ## What the rule is for -/

/-- The candidate has been trusted for the days asked for, and as many of the candidates as asked
for are strictly further. -/
def MeetsHorizon (candidates : List FloorCandidate) (nowUnixtime : Int)
    (horizon : HistoryHorizon) (candidate : FloorCandidate) : Prop :=
  candidate.adoptedAtUnixtime + horizon.minAgeDays * secondsPerDay ≤ nowUnixtime ∧
    horizon.minNewerGenerations ≤ newerGenerations candidates candidate

instance (candidates : List FloorCandidate) (nowUnixtime : Int) (horizon : HistoryHorizon)
    (candidate : FloorCandidate) :
    Decidable (MeetsHorizon candidates nowUnixtime horizon candidate) :=
  inferInstanceAs (Decidable (_ ∧ _))

/-- The age asked for is a number of seconds that an `i64` holds. -/
def HistoryHorizon.AgeInRange (horizon : HistoryHorizon) : Prop :=
  horizon.minAgeDays * secondsPerDay < 2 ^ 63

instance (horizon : HistoryHorizon) : Decidable horizon.AgeInRange :=
  inferInstanceAs (Decidable (_ < _))

section Rule

variable {candidates : List FloorCandidate} {currentFloor : Option FloorCandidate}
  {nowUnixtime : Int} {horizon : HistoryHorizon} {candidate : FloorCandidate}

theorem furthest_eq_none (pool : List FloorCandidate) : furthest pool = none ↔ pool = [] := by
  rw [furthest, maxByKey_eq_none]
  constructor
  · intro empty
    by_contra inhabited
    exact undominated_ne_nil furtherThan furtherThan
      (fun element => dominates_irrefl element.frontier)
      (fun _ _ _ => dominates_trans) (fun _ _ => id) inhabited empty
  · rintro rfl
    rfl

theorem furthest_spec {pool : List FloorCandidate} (chosen : furthest pool = some candidate) :
    candidate ∈ pool ∧ ∀ other ∈ pool, dominates other.frontier candidate.frontier = false :=
  mem_undominated.mp (maxByKey_spec chosen).1

theorem furthest_perm {first second : List FloorCandidate} (permuted : first.Perm second) :
    (furthest first).map (·.checkpointId) = (furthest second).map (·.checkpointId) := by
  have keys := maxByKey_perm (fun best : FloorCandidate => best.checkpointId.toNat)
    (undominated_perm furtherThan permuted)
  have ids := congrArg (Option.map (BitVec.ofNat 256)) keys
  simp only [Option.map_map, Function.comp_def, BitVec.ofNat_toNat, BitVec.setWidth_eq] at ids
  exact ids

theorem meetsNormal_iff (inRange : horizon.AgeInRange) :
    meetsNormal candidates nowUnixtime horizon candidate = true ↔
      MeetsHorizon candidates nowUnixtime horizon candidate := by
  have bound : (horizon.minAgeDays : Int) * 86400 < 2 ^ 63 := inRange
  have asked : asI64 horizon.minAgeDays = horizon.minAgeDays := by
    apply Int.bmod_eq_of_le
    · omega
    · omega
  rw [meetsNormal, Bool.and_eq_true, decide_eq_true_iff, decide_eq_true_iff, MeetsHorizon, asked]
  apply and_congr_left'
  rw [saturated, saturated, secondsPerDay]
  omega

theorem meetsNormal_perm {first second : List FloorCandidate} (permuted : first.Perm second) :
    meetsNormal first nowUnixtime horizon = meetsNormal second nowUnixtime horizon := by
  funext candidate
  rw [meetsNormal, meetsNormal, newerGenerations, newerGenerations, permuted.countP_eq]

theorem chooseFloor_perm {first second : List FloorCandidate} (permuted : first.Perm second) :
    chooseFloor first currentFloor nowUnixtime horizon =
      chooseFloor second currentFloor nowUnixtime horizon := by
  have qualifying := permuted.filter (isBeyond currentFloor)
  have byHorizon := furthest_perm (qualifying.filter (meetsNormal second nowUnixtime horizon))
  have byPressure := furthest_perm qualifying
  rw [chooseFloor, chooseFloor, meetsNormal_perm permuted]
  generalize furthest (List.filter (meetsNormal second nowUnixtime horizon)
    (List.filter (isBeyond currentFloor) first)) = left at byHorizon ⊢
  generalize furthest (List.filter (meetsNormal second nowUnixtime horizon)
    (List.filter (isBeyond currentFloor) second)) = right at byHorizon ⊢
  generalize furthest (List.filter (isBeyond currentFloor) first) = leftWaived at byPressure ⊢
  generalize furthest (List.filter (isBeyond currentFloor) second) = rightWaived at byPressure ⊢
  cases left <;> cases right <;> cases leftWaived <;> cases rightWaived <;>
    simp_all

/-- What the rule answers with: under the horizon when a candidate meets it, and only else on
account of the pressure. -/
theorem chooseFloor_cases (inRange : horizon.AgeInRange) (choice : FloorChoice)
    (chosen : chooseFloor candidates currentFloor nowUnixtime horizon = some choice) :
    ∃ candidate ∈ candidates, candidate.checkpointId = choice.checkpointId ∧
      isBeyond currentFloor candidate = true ∧
      (choice.byteLimit = false ∧ MeetsHorizon candidates nowUnixtime horizon candidate ∧
          (∀ other ∈ candidates, isBeyond currentFloor other = true →
            MeetsHorizon candidates nowUnixtime horizon other →
            dominates other.frontier candidate.frontier = false) ∨
        choice.byteLimit = true ∧ horizon.pressureOverride = true ∧
          (∀ other ∈ candidates, isBeyond currentFloor other = true →
            ¬ MeetsHorizon candidates nowUnixtime horizon other ∧
              dominates other.frontier candidate.frontier = false)) := by
  rw [chooseFloor] at chosen
  split at chosen
  · rename_i candidate found
    cases chosen
    rcases furthest_spec found with ⟨member, best⟩
    simp only [mem_filter] at member best
    refine ⟨candidate, member.1.1, rfl, member.1.2, .inl ⟨rfl, ?_, ?_⟩⟩
    · exact (meetsNormal_iff inRange).mp member.2
    · intro other listed beyond meets
      exact best other ⟨⟨listed, beyond⟩, (meetsNormal_iff inRange).mpr meets⟩
  · rename_i nothing
    have unmet := (furthest_eq_none _).mp nothing
    split at chosen
    · rename_i pressed
      rcases map_eq_some_iff.mp chosen with ⟨candidate, found, made⟩
      cases made
      rcases furthest_spec found with ⟨member, best⟩
      simp only [mem_filter] at member best
      refine ⟨candidate, member.1, rfl, member.2, .inr ⟨rfl, pressed, ?_⟩⟩
      intro other listed beyond
      refine ⟨fun meets => ?_, best other ⟨listed, beyond⟩⟩
      have kept : other ∈ (candidates.filter (isBeyond currentFloor)).filter
          (meetsNormal candidates nowUnixtime horizon) :=
        mem_filter.mpr
          ⟨mem_filter.mpr ⟨listed, beyond⟩, (meetsNormal_iff inRange).mpr meets⟩
      rw [unmet] at kept
      cases kept
    · cases chosen

theorem chooseFloor_isSome (inRange : horizon.AgeInRange) :
    (chooseFloor candidates currentFloor nowUnixtime horizon).isSome = true ↔
      ∃ candidate ∈ candidates, isBeyond currentFloor candidate = true ∧
        (MeetsHorizon candidates nowUnixtime horizon candidate ∨
          horizon.pressureOverride = true) := by
  constructor
  · intro some
    rcases isSome_iff_exists.mp some with ⟨choice, chosen⟩
    rcases chooseFloor_cases inRange choice chosen with ⟨candidate, member, _, beyond, why⟩
    refine ⟨candidate, member, beyond, ?_⟩
    rcases why with normal | waived
    · exact .inl normal.2.1
    · exact .inr waived.2.1
  · rintro ⟨candidate, member, beyond, qualified⟩
    have qualifies : candidate ∈ candidates.filter (isBeyond currentFloor) :=
      mem_filter.mpr ⟨member, beyond⟩
    rw [chooseFloor]
    split
    · rfl
    · rename_i nothing
      have unmet := (furthest_eq_none _).mp nothing
      rcases qualified with meets | pressed
      · have kept : candidate ∈ (candidates.filter (isBeyond currentFloor)).filter
            (meetsNormal candidates nowUnixtime horizon) :=
          mem_filter.mpr ⟨qualifies, (meetsNormal_iff inRange).mpr meets⟩
        rw [unmet] at kept
        cases kept
      · rw [if_pos pressed, isSome_map, isSome_iff_ne_none]
        intro none
        rw [(furthest_eq_none _).mp none] at qualifies
        cases qualifies

end Rule

def generation (number : Nat) (adoptedAtUnixtime : Int) : FloorCandidate :=
  ⟨BitVec.ofNat 256 number, adoptedAtUnixtime,
    (∅ : NativeAuthorFrontier).insert ⟨"a", 1⟩ ⟨number, ⟨BitVec.ofNat 256 number⟩⟩⟩

end Yadorilink.Checkpoints
