import Yadorilink.Checkpoints.HistoryFloor
import Yadorilink.Foundation.Lists

/-! Adoption of history floors. The marker names a trusted checkpoint, whose rows are the floor;
each adoption is compared with the rows of the floor before it and with this replica's own
frontier. -/

namespace Yadorilink.Checkpoints

open Std NativeAuthorFrontier Machine List

/-! ## What a checkpoint covers -/

inductive AuthorState where
  | opened (entry : NativeAuthorFrontierEntry)
  | closed (frontier : Option NativeAuthorFrontierEntry)
  deriving DecidableEq

def AuthorState.entry : AuthorState → Option NativeAuthorFrontierEntry
  | .opened entry => some entry
  | .closed frontier => frontier

abbrev NativeAuthorStates := ExtTreeMap AuthorId AuthorState

def frontierOfStates (states : NativeAuthorStates) : NativeAuthorFrontier :=
  states.filterMap fun _ state => state.entry

/-! ## The tables -/

structure HistoryFloor where
  checkpointId : CheckpointId
  floorFrontierRoot : BitVec 256
  adoptedAtUnixtime : Int

/-- The rows of one group that floors are adopted from. -/
structure FloorTables where
  /-- The root a checkpoint was signed with, and when it was installed. -/
  checkpoints : ExtTreeMap CheckpointId (BitVec 256 × Int)
  /-- The checkpoints that were adopted with verified seal evidence. -/
  sealEvidence : List CheckpointId
  /-- The author states of each adopted checkpoint. -/
  coverage : ExtTreeMap CheckpointId NativeAuthorStates
  /-- This replica's own frontier. -/
  frontier : NativeAuthorFrontier
  floor : Option HistoryFloor

namespace FloorTables

def checkpointCoverage (tables : FloorTables) (checkpointId : CheckpointId) :
    NativeAuthorStates :=
  tables.coverage[checkpointId]?.getD ∅

def checkpointFrontier (tables : FloorTables) (checkpointId : CheckpointId) :
    NativeAuthorFrontier :=
  frontierOfStates (tables.checkpointCoverage checkpointId)

/-- The frontier of the checkpoint the marker names, empty before the first one. -/
def retainedFrontier (tables : FloorTables) : NativeAuthorFrontier :=
  match tables.floor with
  | some floor => tables.checkpointFrontier floor.checkpointId
  | none => ∅

/-- The signed root of a checkpoint that is stored with its seal evidence. -/
def trustedRoot (tables : FloorTables) (checkpointId : CheckpointId) : Option (BitVec 256) :=
  if checkpointId ∈ tables.sealEvidence then
    tables.checkpoints[checkpointId]?.map Prod.fst
  else
    none

def refuse (detail : String) : Except String FloorTables :=
  .error ("history floor refused: " ++ detail)

/-- `authorStateRoot` is the digest a checkpoint signs over its author states. -/
def adoptHistoryFloor (authorStateRoot : NativeAuthorStates → BitVec 256) (tables : FloorTables)
    (checkpointId : CheckpointId) (nowUnixtime : Int) : Except String FloorTables :=
  match tables.trustedRoot checkpointId with
  | none => refuse "the checkpoint is not a trusted checkpoint of this group"
  | some signedRoot =>
    if authorStateRoot (tables.checkpointCoverage checkpointId) ≠ signedRoot then
      refuse "the checkpoint's stored author states do not build its root"
    else if !frontierCovers tables.frontier (tables.checkpointFrontier checkpointId) then
      refuse "this replica's state does not descend from the checkpoint"
    else if tables.floor.any fun floor => floor.checkpointId == checkpointId then
      .ok tables
    else if !frontierCovers (tables.checkpointFrontier checkpointId)
        tables.retainedFrontier then
      refuse "the checkpoint does not cover the current floor"
    else
      .ok { tables with floor := some ⟨checkpointId, signedRoot, nowUnixtime⟩ }

/-- Adopts a verified checkpoint. Rows that are already there stay as they are. -/
def adoptVerifiedCheckpoint (authorStateRoot : NativeAuthorStates → BitVec 256)
    (tables : FloorTables) (checkpointId : CheckpointId) (signedRoot : BitVec 256)
    (states : NativeAuthorStates) (nowUnixtime : Int) : FloorTables :=
  if authorStateRoot states ≠ signedRoot then
    tables
  else
    { tables with
      checkpoints := tables.checkpoints.insertIfNew checkpointId (signedRoot, nowUnixtime)
      sealEvidence := checkpointId :: tables.sealEvidence
      coverage := tables.coverage.insert checkpointId
        (states ∪ tables.checkpointCoverage checkpointId) }

end FloorTables

/-! ## Runs -/

/-- A floor that was adopted, with the frontier this replica had then. -/
structure Adoption where
  floor : NativeAuthorFrontier
  own : NativeAuthorFrontier

structure FloorRun where
  tables : FloorTables
  adoptions : List Adoption

inductive FloorEvent where
  | adopt (checkpointId : CheckpointId) (nowUnixtime : Int)
  | trust (checkpointId : CheckpointId) (signedRoot : BitVec 256) (states : NativeAuthorStates)
      (nowUnixtime : Int)
  /-- Deltas move this replica's own frontier, anywhere. -/
  | advance (frontier : NativeAuthorFrontier)

namespace FloorRun

variable (authorStateRoot : NativeAuthorStates → BitVec 256)

/-- A refused adoption changes nothing; one that is accepted is noted. -/
def adopt (run : FloorRun) (checkpointId : CheckpointId) (nowUnixtime : Int) : FloorRun :=
  match run.tables.adoptHistoryFloor authorStateRoot checkpointId nowUnixtime with
  | .error _ => run
  | .ok tables =>
    ⟨tables, run.adoptions ++ [⟨run.tables.checkpointFrontier checkpointId, run.tables.frontier⟩]⟩

def step (run : FloorRun) : FloorEvent → Option FloorRun
  | .adopt checkpointId nowUnixtime => some (run.adopt authorStateRoot checkpointId nowUnixtime)
  | .trust checkpointId signedRoot states nowUnixtime =>
    some ⟨run.tables.adoptVerifiedCheckpoint authorStateRoot checkpointId signedRoot states
      nowUnixtime, run.adoptions⟩
  | .advance frontier => some { run with tables.frontier := frontier }

/-- Every adopted floor covers the ones before it, was covered by this replica's own frontier, and
is covered by what is retained now. -/
structure Forward (run : FloorRun) : Prop where
  ordered : run.adoptions.Pairwise fun earlier later => Reaches later.floor earlier.floor
  descended : ∀ adoption ∈ run.adoptions, Reaches adoption.own adoption.floor
  retained : ∀ adoption ∈ run.adoptions, Reaches run.tables.retainedFrontier adoption.floor

end FloorRun

/-! ## One step -/

namespace FloorTables

variable {authorStateRoot : NativeAuthorStates → BitVec 256} {tables next : FloorTables}

theorem adoptHistoryFloor_ok {checkpointId : CheckpointId} {nowUnixtime : Int}
    (adopted : tables.adoptHistoryFloor authorStateRoot checkpointId nowUnixtime = .ok next) :
    Reaches tables.frontier (tables.checkpointFrontier checkpointId) ∧
      Reaches (tables.checkpointFrontier checkpointId) tables.retainedFrontier ∧
      next.retainedFrontier = tables.checkpointFrontier checkpointId := by
  rw [adoptHistoryFloor] at adopted
  split at adopted
  · cases adopted
  · rename_i signedRoot trusted
    split at adopted
    · cases adopted
    · split at adopted
      · cases adopted
      · rename_i descends
        rw [Bool.not_eq_true', Bool.not_eq_false, frontierCovers_iff] at descends
        refine ⟨descends, ?_⟩
        split at adopted
        · rename_i same
          cases adopted
          rcases (Option.any_eq_true ..).mp same with ⟨floor, held, named⟩
          have retained : tables.retainedFrontier = tables.checkpointFrontier checkpointId := by
            rw [retainedFrontier, held, ← eq_of_beq named]
          exact ⟨retained ▸ Reaches.refl _, retained⟩
        · split at adopted
          · cases adopted
          · rename_i covers
            rw [Bool.not_eq_true', Bool.not_eq_false, frontierCovers_iff] at covers
            cases adopted
            exact ⟨covers, rfl⟩

theorem reaches_adoptVerifiedCheckpoint (tables : FloorTables) (checkpointId : CheckpointId)
    (signedRoot : BitVec 256) (states : NativeAuthorStates) (nowUnixtime : Int)
    (other : CheckpointId) :
    Reaches ((tables.adoptVerifiedCheckpoint authorStateRoot checkpointId signedRoot states
      nowUnixtime).checkpointFrontier other) (tables.checkpointFrontier other) := by
  rw [adoptVerifiedCheckpoint]
  split
  · exact Reaches.refl _
  · intro author old held
    refine ⟨old, ?_, .inr rfl⟩
    rw [checkpointFrontier, frontierOfStates, ExtTreeMap.getElem?_filterMap'] at held ⊢
    rcases Option.bind_eq_some_iff.mp held with ⟨state, stored, entry⟩
    rw [checkpointCoverage]
    dsimp only
    rw [OrderedMap.getElem?_insert_eq]
    by_cases same : checkpointId = other
    · subst same
      rw [if_pos rfl, Option.getD_some, ExtTreeMap.getElem?_union, stored]
      exact entry
    · rw [if_neg same]
      exact held

theorem reaches_retained_adoptVerifiedCheckpoint (tables : FloorTables)
    (checkpointId : CheckpointId) (signedRoot : BitVec 256) (states : NativeAuthorStates)
    (nowUnixtime : Int) :
    Reaches (tables.adoptVerifiedCheckpoint authorStateRoot checkpointId signedRoot states
      nowUnixtime).retainedFrontier tables.retainedFrontier := by
  have sameFloor : (tables.adoptVerifiedCheckpoint authorStateRoot checkpointId signedRoot states
      nowUnixtime).floor = tables.floor := by
    rw [adoptVerifiedCheckpoint]
    split
    · rfl
    · rfl
  rw [retainedFrontier, retainedFrontier, sameFloor]
  cases tables.floor with
  | none => exact Reaches.refl _
  | some floor =>
    exact reaches_adoptVerifiedCheckpoint tables checkpointId signedRoot states nowUnixtime _

end FloorTables

namespace FloorRun

variable {authorStateRoot : NativeAuthorStates → BitVec 256} {run next : FloorRun}

theorem Forward.adopt (forward : run.Forward) (checkpointId : CheckpointId)
    (nowUnixtime : Int) : (run.adopt authorStateRoot checkpointId nowUnixtime).Forward := by
  rw [FloorRun.adopt]
  split
  · exact forward
  · rename_i tables adopted
    rcases FloorTables.adoptHistoryFloor_ok adopted with ⟨descends, covers, retained⟩
    have earlier : ∀ adoption ∈ run.adoptions,
        Reaches (run.tables.checkpointFrontier checkpointId) adoption.floor :=
      fun adoption member => covers.trans (forward.retained adoption member)
    constructor
    · rw [pairwise_append]
      refine ⟨forward.ordered, pairwise_singleton .., fun adoption member later made => ?_⟩
      rw [mem_singleton.mp made]
      exact earlier adoption member
    · exact forall_mem_concat forward.descended descends
    · intro adoption member
      dsimp only
      rw [retained]
      rcases mem_append.mp member with past | here
      · exact earlier adoption past
      · rw [mem_singleton.mp here]
        exact Reaches.refl _

theorem Forward.step (forward : run.Forward) {event : FloorEvent}
    (stepped : run.step authorStateRoot event = some next) : next.Forward := by
  cases event with
  | adopt checkpointId nowUnixtime =>
    cases stepped
    exact forward.adopt checkpointId nowUnixtime
  | trust checkpointId signedRoot states nowUnixtime =>
    cases stepped
    refine ⟨forward.ordered, forward.descended, fun adoption member => ?_⟩
    exact (FloorTables.reaches_retained_adoptVerifiedCheckpoint run.tables checkpointId signedRoot
      states nowUnixtime).trans (forward.retained adoption member)
  | advance frontier =>
    cases stepped
    exact ⟨forward.ordered, forward.descended, forward.retained⟩

theorem forward_run {tables : FloorTables} {events : List FloorEvent} {last : FloorRun}
    (ran : Machine.run (FloorRun.step authorStateRoot) ⟨tables, []⟩ events = some last) :
    last.Forward := by
  apply invariant_run_always (fun _ _ _ forward stepped => Forward.step forward stepped) _ ran
  refine ⟨List.Pairwise.nil, fun _ member => ?_, fun _ member => ?_⟩
  · cases member
  · cases member

end FloorRun

/-! ## The floor moves forward, to a best candidate -/

/-- The rule is a function of the set of candidates; it answers exactly when a candidate beyond
the floor meets the horizon or is under pressure, and with a best one: of those that meet the
horizon if there are any, and only else of all those beyond the floor. Adopted floors only move
forward. -/
theorem history_floor_moves_forward (authorStateRoot : NativeAuthorStates → BitVec 256)
    {candidates reordered : List FloorCandidate} (permuted : candidates.Perm reordered)
    (currentFloor : Option FloorCandidate) (nowUnixtime : Int) {horizon : HistoryHorizon}
    (inRange : horizon.AgeInRange) {tables : FloorTables} {events : List FloorEvent}
    {last : FloorRun}
    (ran : Machine.run (FloorRun.step authorStateRoot) ⟨tables, []⟩ events = some last) :
    chooseFloor candidates currentFloor nowUnixtime horizon =
        chooseFloor reordered currentFloor nowUnixtime horizon ∧
      ((chooseFloor candidates currentFloor nowUnixtime horizon).isSome = true ↔
        ∃ candidate ∈ candidates, isBeyond currentFloor candidate = true ∧
          (MeetsHorizon candidates nowUnixtime horizon candidate ∨
            horizon.pressureOverride = true)) ∧
      (∀ choice, chooseFloor candidates currentFloor nowUnixtime horizon = some choice →
        ∃ candidate ∈ candidates, candidate.checkpointId = choice.checkpointId ∧
          isBeyond currentFloor candidate = true ∧
          (choice.byteLimit = false ∧ MeetsHorizon candidates nowUnixtime horizon candidate ∧
              (∀ other ∈ candidates, isBeyond currentFloor other = true →
                MeetsHorizon candidates nowUnixtime horizon other →
                dominates other.frontier candidate.frontier = false) ∨
            choice.byteLimit = true ∧ horizon.pressureOverride = true ∧
              (∀ other ∈ candidates, isBeyond currentFloor other = true →
                ¬ MeetsHorizon candidates nowUnixtime horizon other ∧
                  dominates other.frontier candidate.frontier = false))) ∧
      last.adoptions.Pairwise (fun earlier later => Reaches later.floor earlier.floor) ∧
      ∀ adoption ∈ last.adoptions, Reaches adoption.own adoption.floor := by
  have forward := FloorRun.forward_run ran
  exact ⟨chooseFloor_perm permuted, chooseFloor_isSome inRange, chooseFloor_cases inRange,
    forward.ordered, forward.descended⟩

/-- Three generations, the first two of them old enough for the default horizon. -/
def threeGenerations : List FloorCandidate :=
  [generation 1 0, generation 2 (10 * secondsPerDay), generation 3 (59 * secondsPerDay)]

def pressedHorizon : HistoryHorizon := ⟨30, 2, true⟩

def endlessHorizon : HistoryHorizon := ⟨2 ^ 63, 0, false⟩

/-- Under pressure the first generation is chosen, which qualifying later ones dominate; and an age
beyond the range of an `i64` is no requirement at all. -/
theorem horizon_comes_before_pressure : ¬ (∀ choice,
        chooseFloor threeGenerations none (60 * secondsPerDay) pressedHorizon = some choice →
        ∀ candidate ∈ threeGenerations, candidate.checkpointId = choice.checkpointId →
        ∀ other ∈ threeGenerations, isBeyond none other = true →
        MeetsHorizon threeGenerations (60 * secondsPerDay) pressedHorizon other ∨
          pressedHorizon.pressureOverride = true →
        dominates other.frontier candidate.frontier = false) ∧
      ¬ ((chooseFloor threeGenerations none (60 * secondsPerDay) endlessHorizon).isSome = true ↔
        ∃ candidate ∈ threeGenerations, isBeyond none candidate = true ∧
          (MeetsHorizon threeGenerations (60 * secondsPerDay) endlessHorizon candidate ∨
            endlessHorizon.pressureOverride = true)) := by
  constructor
  · intro undominated
    have contrary := undominated ⟨1, false⟩ (by decide) (generation 1 0)
      (.head _) rfl (generation 3 (59 * secondsPerDay))
      (.tail _ (.tail _ (.head _)))
      (by decide) (.inr rfl)
    revert contrary
    decide
  · decide

/-- The tables of a replica that holds the three generations and is at the last of them. -/
def threeGenerationTables : FloorTables :=
  ⟨∅, [], ∅, (generation 3 0).frontier, none⟩

def generationStates (number : Nat) : NativeAuthorStates :=
  (∅ : NativeAuthorStates).insert ⟨"a", 1⟩ (.opened ⟨number, ⟨BitVec.ofNat 256 number⟩⟩)

/-- The floor is moved to the first generation, then to the third, and not back to the second. -/
def floorsMoved : List FloorEvent :=
  [.trust 1 7 (generationStates 1) 0, .trust 2 7 (generationStates 2) 0,
    .trust 3 7 (generationStates 3) 0, .adopt 1 1, .adopt 3 2, .adopt 2 3]

theorem three_generations_move_forward :
    ∃ last, Machine.run (FloorRun.step fun _ => 7) ⟨threeGenerationTables, []⟩ floorsMoved =
        some last ∧
      last.adoptions.length = 2 ∧
      last.adoptions.Pairwise (fun earlier later => Reaches later.floor earlier.floor) ∧
      chooseFloor threeGenerations none (60 * secondsPerDay) pressedHorizon =
        chooseFloor threeGenerations.reverse none (60 * secondsPerDay) pressedHorizon := by
  have ran : ((Machine.run (FloorRun.step fun _ => 7) ⟨threeGenerationTables, []⟩
      floorsMoved).map fun last => last.adoptions.length) = some 2 := by
    with_unfolding_all decide
  rcases Option.map_eq_some_iff.mp ran with ⟨last, reached, count⟩
  have pressedInRange : pressedHorizon.AgeInRange := by decide
  have result := history_floor_moves_forward (fun _ => 7) (List.reverse_perm threeGenerations).symm
    none (60 * secondsPerDay) pressedInRange reached
  exact ⟨last, reached, count, result.2.2.2.1, result.1⟩

end Yadorilink.Checkpoints
