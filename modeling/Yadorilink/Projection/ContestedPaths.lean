import Yadorilink.Foundation.Undominated
import Yadorilink.Projection.HeadRanges

/-! The readers of a projected tree. The detector of contests and the rule that names the losing
heads are written apart: they agree on every path whose records have arrived, and a path without
its losing heads is settled. The tree itself holds exactly the paths with heads and their
ancestors, and the paths below a contest are those a materializer leaves alone. -/

namespace Yadorilink

open Std ExtTreeMap

/-! ## The order of the winning keys -/

instance winKeyTransOrd : TransOrd WinKey :=
  inferInstanceAs (TransCmp (compareLex (compareOn WinKey.isDirectory) (compareOn WinKey.version)))

def winKeyOf (kindOf : VersionHash → Option RecordKind) (version : VersionHash) : WinKey :=
  winKey (kindOf version = some .directory) version

theorem compare_winKey_directory (first second : VersionHash) :
    compare (winKey false first) (winKey true second) = .lt := rfl

theorem compare_larger_iff {own first second : WinKey} : compare own (first.larger second) = .lt ↔
      compare own first = .lt ∨ compare own second = .lt := by
  rw [WinKey.larger]
  split
  · rename_i above
    constructor
    · exact .inl
    · rintro (low | low)
      · exact low
      · exact TransCmp.lt_trans low (OrientedCmp.lt_of_gt above)
  · rename_i notAbove
    constructor
    · exact .inr
    · rintro (low | low)
      · exact TransCmp.lt_of_lt_of_isLE low (Ordering.isLE_iff_ne_gt.mpr notAbove)
      · exact low

section Losers

variable {kindOf : VersionHash → Option RecordKind}

theorem largestKey_lt_iff {own start : WinKey} {entries : List (Dot × HeadPayload)}
    (known : ∀ head ∈ entries, kindOf head.2.version ≠ none) :
    ∃ largest, largestKey kindOf start entries = some largest ∧
      (compare own largest = .lt ↔ compare own start = .lt ∨
        ∃ head ∈ entries, compare own (winKeyOf kindOf head.2.version) = .lt) := by
  induction entries generalizing start with
  | nil => exact ⟨start, rfl, by simp⟩
  | cons entry rest induction =>
    rcases entry with ⟨dot, payload⟩
    rcases Option.ne_none_iff_exists'.mp (known _ List.mem_cons_self) with ⟨kind, found⟩
    rcases @induction (start.larger (winKey (kind = .directory) payload.version))
      (fun head later => known head (List.mem_cons_of_mem _ later)) with ⟨largest, finds, lower⟩
    refine ⟨largest, ?_, ?_⟩
    · rw [largestKey, found]
      exact finds
    · have key : winKeyOf kindOf payload.version = winKey (kind = .directory) payload.version := by
        rw [winKeyOf, found]
        simp
      rw [lower, compare_larger_iff, ← key, or_assoc]
      simp only [List.mem_cons, exists_eq_or_imp]

/-- A head loses when it is file-like and the path has to be a directory, or a larger key holds
it. -/
theorem loses_eq_true_iff {heads : PathHeads} {below : Bool} {head : LiveHead}
    (known : ∀ other ∈ heads.toList, kindOf other.2.version ≠ none)
    (own : kindOf head.payload.version ≠ none) :
    loses head kindOf heads below = some true ↔ kindOf head.payload.version ≠ some .directory ∧
        (below = true ∨ ∃ other ∈ heads.toList, compare (winKey false head.payload.version)
          (winKeyOf kindOf other.2.version) = .lt) := by
  rcases Option.ne_none_iff_exists'.mp own with ⟨kind, found⟩
  rcases @largestKey_lt_iff kindOf (winKey false head.payload.version)
    (winKey false head.payload.version) heads.toList known with ⟨largest, finds, lower⟩
  rw [found, loses]
  by_cases directory : kind = .directory
  · simp [found, directory]
  · cases below with
    | true => simp [found, directory]
    | false => simp [found, directory, finds, lower]

end Losers

/-! ## Contests and losing heads -/

section Contests

variable {heads : List LiveHead} {kindOf : VersionHash → Option RecordKind} {below : Bool}

/-- A path whose records have arrived is pending when a file-like head meets a directory that is
there or required, or a file-like head of another version. -/
theorem isPending_iff (known : ∀ head ∈ heads, kindOf head.payload.version ≠ none) :
    (projectPath heads kindOf below).isPending = true ↔
      ∃ head ∈ heads, kindOf head.payload.version ≠ some .directory ∧
        (below = true ∨ (∃ other ∈ heads, kindOf other.payload.version = some .directory) ∨
          ∃ other ∈ heads, other.payload.version ≠ head.payload.version) := by
  have finds := @finds_scanHeads kindOf heads
  have unknown := finds.unknown.mpr known
  have fileLike : ∀ head ∈ heads, kindOf head.payload.version ≠ some .directory →
      ∃ kind, (head, kind) ∈ (scanHeads kindOf heads).fileLike := by
    intro head member notDirectory
    rcases Option.ne_none_iff_exists'.mp (known head member) with ⟨kind, found⟩
    refine ⟨kind, (finds.fileLike head kind).mpr ⟨member, found, ?_⟩⟩
    rintro rfl
    exact notDirectory found
  have heldOf : ∀ found ∈ (scanHeads kindOf heads).fileLike,
      found.1 ∈ heads ∧ kindOf found.1.payload.version ≠ some .directory := by
    intro found member
    have held := (finds.fileLike found.1 found.2).mp member
    refine ⟨held.1, ?_⟩
    rw [held.2.1]
    exact fun same => held.2.2 (Option.some.inj same)
  rw [projectPath]
  simp only [unknown]
  cases files : (scanHeads kindOf heads).fileLike with
  | nil =>
    have none : ∀ head ∈ heads, kindOf head.payload.version = some .directory := by
      intro head member
      by_contra notDirectory
      rcases fileLike head member notDirectory with ⟨kind, listed⟩
      rw [files] at listed
      exact absurd listed List.not_mem_nil
    constructor
    · intro pending
      exfalso
      revert pending
      dsimp only
      split
      · simp [Projection.isPending]
      · split
        · simp [Projection.isPending]
        · simp [Projection.isPending]
    · intro contested
      rcases contested with ⟨head, member, notDirectory, _⟩
      exact absurd (none head member) notDirectory
  | cons first rest =>
    rw [files] at heldOf fileLike
    have firstHeld := heldOf first List.mem_cons_self
    dsimp only
    by_cases required : ((scanHeads kindOf heads).bestDirectory.isSome || below) = true
    · rw [if_pos required]
      refine iff_of_true rfl ⟨first.1, firstHeld.1, firstHeld.2, ?_⟩
      rcases Bool.or_eq_true _ _ ▸ required with directory | descendant
      · refine .inr (.inl ?_)
        by_contra absent
        rw [finds.directory.mpr fun head member found => absent ⟨head, member, found⟩] at directory
        cases directory
      · exact .inl descendant
    · rw [if_neg required]
      rw [Bool.or_eq_true, not_or, Option.not_isSome_iff_eq_none] at required
      have noDirectory := finds.directory.mp required.1
      by_cases distinct : (rest.any fun other =>
          decide (other.1.payload.version ≠ first.1.payload.version)) = true
      · rw [if_pos distinct]
        rcases List.any_eq_true.mp distinct with ⟨other, member, differs⟩
        have otherHeld := heldOf other (.tail _ member)
        exact iff_of_true rfl ⟨first.1, firstHeld.1, firstHeld.2,
          .inr (.inr ⟨other.1, otherHeld.1, of_decide_eq_true differs⟩)⟩
      · rw [if_neg distinct]
        refine iff_of_false (by simp [Projection.isPending]) ?_
        have ofFirst : ∀ head ∈ heads, head.payload.version = first.1.payload.version := by
          intro head member
          rcases fileLike head member (noDirectory head member) with ⟨kind, listed⟩
          rcases List.mem_cons.mp listed with here | later
          · rw [← here]
          · by_contra differs
            exact distinct (List.any_eq_true.mpr ⟨_, later, decide_eq_true differs⟩)
        rintro ⟨head, member, _, descendant | ⟨other, held, directory⟩ | ⟨other, held, differs⟩⟩
        · exact required.2 descendant
        · exact noDirectory other held directory
        · exact differs ((ofFirst other held).trans (ofFirst head member).symm)

theorem projectPath_of_directories (known : ∀ head ∈ heads, kindOf head.payload.version ≠ none)
    (only : ∀ head ∈ heads, kindOf head.payload.version = some .directory) (held : heads ≠ []) :
    ∃ version, projectPath heads kindOf below = .settled (.directory (.explicit version)) := by
  have finds := @finds_scanHeads kindOf heads
  have files : (scanHeads kindOf heads).fileLike = [] := by
    rw [List.eq_nil_iff_forall_not_mem]
    intro found member
    have listed := (finds.fileLike found.1 found.2).mp member
    rw [only found.1 listed.1] at listed
    exact listed.2.2 (Option.some.inj listed.2.1).symm
  cases best : (scanHeads kindOf heads).bestDirectory with
  | none =>
    rcases List.exists_mem_of_ne_nil _ held with ⟨head, member⟩
    exact absurd (only head member) (finds.directory.mp best head member)
  | some key =>
    refine ⟨key.version, ?_⟩
    rw [projectPath]
    simp only [finds.unknown.mpr known, files, best]

end Contests

/-! ## A path without its losing heads -/

theorem mem_headsAt {state : NativeState} {path : SyncPath} {head : LiveHead} :
    head ∈ state.headsAt path ↔ (head.dot, head.payload) ∈ (state.pathHeads path).toList := by
  rw [NativeState.headsAt, List.mem_map]
  constructor
  · rintro ⟨entry, member, rfl⟩
    exact member
  · exact fun member => ⟨_, member, rfl⟩

section Resolution

variable (state : NativeState) (kindOf : VersionHash → Option RecordKind) (path : SyncPath)

def losesAt (head : LiveHead) : Bool :=
  loses head kindOf (state.pathHeads path) (hasDescendant state path) = some true

/-- The state once every head that loses `path` has left it. -/
def withoutLosers : NativeState :=
  { state with heads := changeHeads state.heads path fun heads =>
      heads.filter fun dot payload => !losesAt state kindOf path ⟨dot, payload⟩ }

theorem pathHeads_withoutLosers : (withoutLosers state kindOf path).pathHeads path =
      (state.pathHeads path).filter fun dot payload => !losesAt state kindOf path ⟨dot, payload⟩ := by
  rw [NativeState.pathHeads, withoutLosers, getElem?_changeHeads, if_pos rfl, getD_storedHeads]
  rfl

theorem mem_headsAt_withoutLosers {head : LiveHead} :
    head ∈ (withoutLosers state kindOf path).headsAt path ↔
      head ∈ state.headsAt path ∧ losesAt state kindOf path head = false := by
  rw [mem_headsAt, mem_headsAt, pathHeads_withoutLosers, toList_filter, List.mem_filter]
  simp

theorem hasDescendant_withoutLosers :
    hasDescendant (withoutLosers state kindOf path) path = hasDescendant state path := by
  have elsewhere : ∀ (key : SyncPath) (rest : List Char), key.toList = path.toList ++ '/' :: rest →
      (withoutLosers state kindOf path).heads[key]? = state.heads[key]? := by
    intro key rest below
    rw [withoutLosers, getElem?_changeHeads, if_neg]
    rintro rfl
    have longer := congrArg List.length below
    simp at longer
  rw [Bool.eq_iff_iff, hasDescendant_iff, hasDescendant_iff]
  constructor
  · rintro ⟨key, stored, held, rest, below⟩
    exact ⟨key, stored, (elsewhere key rest below) ▸ held, rest, below⟩
  · rintro ⟨key, stored, held, rest, below⟩
    exact ⟨key, stored, (elsewhere key rest below).trans held, rest, below⟩

variable {state kindOf path}

theorem winKeyOf_directory {version : VersionHash} (directory : kindOf version = some .directory) :
    winKeyOf kindOf version = winKey true version := by
  rw [winKeyOf, decide_eq_true directory]

theorem winKeyOf_fileLike {version : VersionHash} (fileLike : kindOf version ≠ some .directory) :
    winKeyOf kindOf version = winKey false version := by
  rw [winKeyOf, decide_eq_false fileLike]

variable (known : ∀ head ∈ state.headsAt path, kindOf head.payload.version ≠ none)

include known

theorem losesAt_iff {head : LiveHead} (live : head ∈ state.headsAt path) :
    losesAt state kindOf path head = true ↔ kindOf head.payload.version ≠ some .directory ∧
      (hasDescendant state path = true ∨ ∃ other ∈ state.headsAt path,
        compare (winKey false head.payload.version)
          (winKeyOf kindOf other.payload.version) = .lt) := by
  have listed : ∀ other ∈ (state.pathHeads path).toList, kindOf other.2.version ≠ none :=
    fun other member => known ⟨other.1, other.2⟩ (mem_headsAt.mpr member)
  rw [losesAt, decide_eq_true_iff, loses_eq_true_iff listed (known head live)]
  constructor
  · rintro ⟨fileLike, below | ⟨other, member, lower⟩⟩
    · exact ⟨fileLike, .inl below⟩
    · exact ⟨fileLike, .inr ⟨⟨other.1, other.2⟩, mem_headsAt.mpr member, lower⟩⟩
  · rintro ⟨fileLike, below | ⟨other, member, lower⟩⟩
    · exact ⟨fileLike, .inl below⟩
    · exact ⟨fileLike, .inr ⟨_, mem_headsAt.mp member, lower⟩⟩

theorem isPending_iff_losesAt : (projectionOf state kindOf path).isPending = true ↔
      ∃ head ∈ state.headsAt path, losesAt state kindOf path head = true := by
  rw [projectionOf, isPending_iff known]
  constructor
  · rintro ⟨head, live, fileLike, contested⟩
    by_cases directory : ∃ other ∈ state.headsAt path,
        kindOf other.payload.version = some .directory
    · rcases directory with ⟨other, held, isDirectory⟩
      refine ⟨head, live, (losesAt_iff known live).mpr ⟨fileLike, .inr ⟨other, held, ?_⟩⟩⟩
      rw [winKeyOf_directory isDirectory]
      exact compare_winKey_directory _ _
    · have plain : ∀ other ∈ state.headsAt path, kindOf other.payload.version ≠ some .directory :=
        fun other held isDirectory => directory ⟨other, held, isDirectory⟩
      rcases contested with below | found | ⟨other, held, differs⟩
      · exact ⟨head, live, (losesAt_iff known live).mpr ⟨fileLike, .inl below⟩⟩
      · exact absurd found directory
      · -- Of two versions the one with the smaller key loses.
        cases order : compare head.payload.version other.payload.version with
        | lt =>
          refine ⟨head, live, (losesAt_iff known live).mpr ⟨fileLike, .inr ⟨other, held, ?_⟩⟩⟩
          rw [winKeyOf_fileLike (plain other held), compare_winKey, order]
        | eq => exact absurd (LawfulEqCmp.eq_of_compare order).symm differs
        | gt =>
          refine ⟨other, held, (losesAt_iff known held).mpr
            ⟨plain other held, .inr ⟨head, live, ?_⟩⟩⟩
          rw [winKeyOf_fileLike fileLike, compare_winKey]
          exact OrientedCmp.lt_of_gt order
  · rintro ⟨head, live, losing⟩
    rcases (losesAt_iff known live).mp losing with ⟨fileLike, below | ⟨other, held, lower⟩⟩
    · exact ⟨head, live, fileLike, .inl below⟩
    · by_cases directory : kindOf other.payload.version = some .directory
      · exact ⟨head, live, fileLike, .inr (.inl ⟨other, held, directory⟩)⟩
      · refine ⟨head, live, fileLike, .inr (.inr ⟨other, held, ?_⟩)⟩
        intro same
        rw [winKeyOf_fileLike directory, compare_winKey, same] at lower
        simp at lower

theorem projectionOf_withoutLosers_directory
    (directory : ∃ head ∈ state.headsAt path, kindOf head.payload.version = some .directory) :
    ∃ version, projectionOf (withoutLosers state kindOf path) kindOf path =
      .settled (.directory (.explicit version)) := by
  rcases directory with ⟨found, live, isDirectory⟩
  apply projectPath_of_directories
  · exact fun head member => known head ((mem_headsAt_withoutLosers ..).mp member).1
  · intro head member
    rcases (mem_headsAt_withoutLosers ..).mp member with ⟨held, stays⟩
    by_contra fileLike
    rw [(losesAt_iff known held).mpr ⟨fileLike, .inr ⟨found, live, ?_⟩⟩] at stays
    · cases stays
    · rw [winKeyOf_directory isDirectory]
      exact compare_winKey_directory _ _
  · apply List.ne_nil_of_mem ((mem_headsAt_withoutLosers ..).mpr ⟨live, ?_⟩)
    rw [← Bool.not_eq_true, losesAt_iff known live]
    exact fun losing => losing.1 isDirectory

theorem headsAt_withoutLosers_eq_nil
    (plain : ∀ head ∈ state.headsAt path, kindOf head.payload.version ≠ some .directory)
    (below : hasDescendant state path = true) :
    (withoutLosers state kindOf path).headsAt path = [] := by
  rw [List.eq_nil_iff_forall_not_mem]
  intro head member
  rcases (mem_headsAt_withoutLosers ..).mp member with ⟨held, stays⟩
  rw [(losesAt_iff known held).mpr ⟨plain head held, .inl below⟩] at stays
  cases stays

/-- Without directories the heads of the largest version stay, and they show it. -/
theorem projectionOf_withoutLosers_fileLike
    (plain : ∀ head ∈ state.headsAt path, kindOf head.payload.version ≠ some .directory)
    (alone : hasDescendant state path = false) (held : state.headsAt path ≠ []) :
    ∃ kind version representative, projectionOf (withoutLosers state kindOf path) kindOf path =
        .settled (.entry kind version representative) ∧
      (∃ head ∈ state.headsAt path, head.payload.version = version) ∧
      ∀ head ∈ state.headsAt path,
        compare (winKeyOf kindOf head.payload.version) (winKeyOf kindOf version) ≠ .gt := by
  rcases @Undominated.exists_last _
    (fun further nearer : LiveHead =>
      decide (compare nearer.payload.version further.payload.version = .lt))
    (fun head => by simp)
    (fun last middle first later earlier => by
      rw [decide_eq_true_iff] at later earlier ⊢
      exact TransCmp.lt_trans earlier later) _ held with ⟨last, live, latest⟩
  have top : ∀ other ∈ state.headsAt path,
      compare last.payload.version other.payload.version ≠ .lt :=
    fun other member => of_decide_eq_false (latest other member)
  have stays : ∀ head ∈ state.headsAt path, losesAt state kindOf path head = false ↔
      ∀ other ∈ state.headsAt path,
        compare head.payload.version other.payload.version ≠ .lt := by
    intro head member
    rw [← Bool.not_eq_true, losesAt_iff known member, alone]
    constructor
    · intro kept other otherHeld lower
      refine kept ⟨plain head member, .inr ⟨other, otherHeld, ?_⟩⟩
      rw [winKeyOf_fileLike (plain other otherHeld), compare_winKey, lower]
    · rintro kept ⟨_, below | ⟨other, otherHeld, lower⟩⟩
      · cases below
      · rw [winKeyOf_fileLike (plain other otherHeld), compare_winKey] at lower
        exact kept other otherHeld lower
  have lastStays := (mem_headsAt_withoutLosers ..).mpr ⟨live, (stays last live).mpr top⟩
  have ofLast : ∀ head ∈ (withoutLosers state kindOf path).headsAt path,
      head.payload.version = last.payload.version := by
    intro head member
    rcases (mem_headsAt_withoutLosers ..).mp member with ⟨headHeld, kept⟩
    have notLower := (stays head headHeld).mp kept last live
    have notHigher := top head headHeld
    cases order : compare head.payload.version last.payload.version with
    | lt => exact absurd order notLower
    | eq => exact LawfulEqCmp.eq_of_compare order
    | gt => exact absurd (OrientedCmp.lt_of_gt order) notHigher
  have settled : (projectionOf (withoutLosers state kindOf path) kindOf path).isPending = false := by
    rw [← Bool.not_eq_true, projectionOf, isPending_iff fun head member =>
      known head ((mem_headsAt_withoutLosers ..).mp member).1, hasDescendant_withoutLosers, alone]
    rintro ⟨head, member, _, below | ⟨other, otherHeld, directory⟩ | ⟨other, otherHeld, differs⟩⟩
    · cases below
    · exact plain other ((mem_headsAt_withoutLosers ..).mp otherHeld).1 directory
    · exact differs ((ofLast other otherHeld).trans (ofLast head member).symm)
  rcases Option.ne_none_iff_exists'.mp (known last live) with ⟨kind, found⟩
  have fileLike : kind ≠ .directory := by
    rintro rfl
    exact plain last live found
  rcases projectPath_of_fileLike settled lastStays found fileLike with ⟨representative, shown⟩
  refine ⟨kind, last.payload.version, representative, shown, ⟨last, live, rfl⟩, ?_⟩
  intro head member above
  rw [winKeyOf_fileLike (plain head member), winKeyOf_fileLike (plain last live),
    compare_winKey] at above
  exact top head member (OrientedCmp.lt_of_gt above)

end Resolution

/-- Where every record has arrived, a path is pending exactly when one of its heads loses. Once the
losing heads have left it is settled: an explicit directory if one lives there, a structural one if
only what lies below requires it, and else the version with the largest key, if there is one. -/
theorem contests_end_without_losers (state : NativeState)
    (kindOf : VersionHash → Option RecordKind) (path : SyncPath)
    (known : ∀ head ∈ state.headsAt path, kindOf head.payload.version ≠ none) :
    ((projectPath (state.headsAt path) kindOf (hasDescendant state path)).isPending = true ↔
      ∃ head ∈ state.headsAt path,
        loses head kindOf (state.pathHeads path) (hasDescendant state path) = some true) ∧
    ((∃ head ∈ state.headsAt path, kindOf head.payload.version = some .directory) →
      ∃ version, projectionOf (withoutLosers state kindOf path) kindOf path =
        .settled (.directory (.explicit version))) ∧
    ((∀ head ∈ state.headsAt path, kindOf head.payload.version ≠ some .directory) →
      (hasDescendant state path = true →
        projectionOf (withoutLosers state kindOf path) kindOf path =
          .settled (.directory .structural)) ∧
      (hasDescendant state path = false → state.headsAt path ≠ [] → ∃ kind version representative,
          projectionOf (withoutLosers state kindOf path) kindOf path =
            .settled (.entry kind version representative) ∧
          (∃ head ∈ state.headsAt path, head.payload.version = version) ∧
          ∀ head ∈ state.headsAt path,
            compare (winKeyOf kindOf head.payload.version) (winKeyOf kindOf version) ≠ .gt) ∧
      (hasDescendant state path = false → state.headsAt path = [] →
        projectionOf (withoutLosers state kindOf path) kindOf path = .absent)) := by
  refine ⟨?_, projectionOf_withoutLosers_directory known, fun plain => ⟨?_, ?_, ?_⟩⟩
  · have agree := isPending_iff_losesAt known
    simp only [losesAt, decide_eq_true_iff] at agree
    exact agree
  · intro below
    rw [projectionOf, headsAt_withoutLosers_eq_nil known plain below,
      hasDescendant_withoutLosers, below]
    rfl
  · exact projectionOf_withoutLosers_fileLike known plain
  · intro alone empty
    have none : (withoutLosers state kindOf path).headsAt path = [] := by
      rw [List.eq_nil_iff_forall_not_mem]
      intro head member
      have held := ((mem_headsAt_withoutLosers ..).mp member).1
      rw [empty] at held
      cases held
    rw [projectionOf, none, hasDescendant_withoutLosers, alone]
    rfl

/-- Two devices have saved the same file. -/
def twoFiles : NativeState :=
  let laptop : Dot × HeadPayload := (⟨⟨"laptop", 1⟩, 1⟩, ⟨⟨7⟩, ⟨1⟩⟩)
  let phone : Dot × HeadPayload := (⟨⟨"phone", 1⟩, 1⟩, ⟨⟨8⟩, ⟨2⟩⟩)
  ⟨∅, ExtTreeMap.ofList [("notes", ExtTreeMap.ofList [laptop, phone])]⟩

theorem contests_end_without_losers_two_files : (twoFiles.headsAt "notes").length = 2 ∧
      ((projectPath (twoFiles.headsAt "notes") (fun _ => some .file)
          (hasDescendant twoFiles "notes")).isPending = true ↔
        ∃ head ∈ twoFiles.headsAt "notes", loses head (fun _ => some .file)
          (twoFiles.pathHeads "notes") (hasDescendant twoFiles "notes") = some true) :=
  ⟨by decide, (contests_end_without_losers twoFiles (fun _ => some .file) "notes"
    fun _ _ => Option.some_ne_none _).1⟩

/-! ## What lies below a path -/

def componentsOf (path : SyncPath) : List (List Char) := path.toList.splitOn '/'

/-- The components of `key` begin with those of `path` and go on. -/
def Below (path key : SyncPath) : Prop :=
  ∃ first rest, componentsOf key = componentsOf path ++ first :: rest

theorem intercalate_append_cons {front : List (List Char)} (nonempty : front ≠ [])
    (first : List Char) (rest : List (List Char)) :
    ['/'].intercalate (front ++ first :: rest) =
      ['/'].intercalate front ++ '/' :: ['/'].intercalate (first :: rest) := by
  induction front with
  | nil => exact absurd rfl nonempty
  | cons lead front induction =>
    cases front with
    | nil => simp
    | cons next front =>
      have later := induction (List.cons_ne_nil next front)
      rw [List.cons_append] at later
      rw [List.cons_append, List.cons_append, List.intercalate_cons_cons, later,
        List.intercalate_cons_cons]
      simp only [List.append_assoc]

theorem below_iff_slash {path key : SyncPath} :
    Below path key ↔ ∃ rest, key.toList = path.toList ++ '/' :: rest := by
  constructor
  · rintro ⟨first, rest, parts⟩
    refine ⟨['/'].intercalate (first :: rest), ?_⟩
    have joined : ['/'].intercalate (componentsOf key) =
        ['/'].intercalate (componentsOf path ++ first :: rest) := congrArg _ parts
    rw [componentsOf, componentsOf, intercalate_append_cons (List.splitOn_ne_nil _ _),
      List.intercalate_splitOn, List.intercalate_splitOn] at joined
    exact joined
  · rintro ⟨rest, whole⟩
    rcases List.exists_cons_of_ne_nil (List.splitOn_ne_nil '/' rest) with ⟨first, others, parts⟩
    refine ⟨first, others, ?_⟩
    rw [componentsOf, whole, List.splitOn_append_cons_self, parts, componentsOf]

/-! ## The paths below a contest -/

/-- Whether `path` starts with `ancestor` and goes on with a separator. -/
def liesBelow (ancestor path : SyncPath) : Bool :=
  ancestor.toList.length < path.toList.length && ancestor.toList.isPrefixOf path.toList &&
    path.toList[ancestor.toList.length]? = some '/'

/-- The paths of `tree` below a pending one. Nothing is created or deleted there until the contest
above is resolved. -/
def blockedByPending (tree : ExtTreeMap SyncPath Projection) : ExtTreeSet SyncPath :=
  let pending := (tree.toList.filter fun entry => entry.2.isPending).map Prod.fst
  ExtTreeSet.ofList (tree.keys.filter fun path =>
    pending.any fun ancestor => liesBelow ancestor path)

theorem liesBelow_iff {ancestor path : SyncPath} :
    liesBelow ancestor path = true ↔ Below ancestor path := by
  rw [below_iff_slash, liesBelow, Bool.and_eq_true, Bool.and_eq_true, decide_eq_true_iff,
    decide_eq_true_iff, List.isPrefixOf_iff_prefix]
  constructor
  · rintro ⟨⟨longer, rest, whole⟩, separator⟩
    rw [← whole] at separator longer ⊢
    cases rest with
    | nil => simp at longer
    | cons first rest =>
      rw [List.getElem?_append_right (Nat.le_refl _), Nat.sub_self] at separator
      cases separator
      exact ⟨rest, rfl⟩
  · rintro ⟨rest, whole⟩
    rw [whole]
    refine ⟨⟨?_, List.prefix_append _ _⟩, ?_⟩
    · simp
    · rw [List.getElem?_append_right (Nat.le_refl _), Nat.sub_self]
      rfl

theorem mem_blockedByPending {tree : ExtTreeMap SyncPath Projection} {path : SyncPath} :
    path ∈ blockedByPending tree ↔ path ∈ tree ∧
      ∃ (ancestor : SyncPath) (reason : PendingReason), Below ancestor path ∧
        tree[ancestor]? = some (Projection.pending reason) := by
  rw [blockedByPending, ExtTreeSet.mem_ofList, List.contains_iff_mem, List.mem_filter,
    mem_keys, List.any_eq_true]
  refine and_congr_right fun _ => ?_
  constructor
  · rintro ⟨ancestor, listed, below⟩
    rcases List.mem_map.mp listed with ⟨⟨key, shown⟩, member, rfl⟩
    rcases List.mem_filter.mp member with ⟨held, isPending⟩
    rw [mem_toList_iff_getElem?_eq_some] at held
    cases shown with
    | pending reason => exact ⟨key, reason, liesBelow_iff.mp below, held⟩
    | settled => cases isPending
    | absent => cases isPending
  · rintro ⟨ancestor, reason, below, held⟩
    refine ⟨ancestor, List.mem_map.mpr ⟨(ancestor, .pending reason), ?_, rfl⟩,
      liesBelow_iff.mpr below⟩
    rw [List.mem_filter, mem_toList_iff_getElem?_eq_some]
    exact ⟨held, rfl⟩

/-! ## What the tree holds -/

theorem projectPath_eq_absent_iff {heads : List LiveHead}
    {kindOf : VersionHash → Option RecordKind} {below : Bool} :
    projectPath heads kindOf below = .absent ↔ heads = [] ∧ below = false := by
  constructor
  · intro absent
    cases heads with
    | nil =>
      cases below with
      | false => exact ⟨rfl, rfl⟩
      | true => cases absent
    | cons head rest =>
      have settled : (projectPath (head :: rest) kindOf below).isPending = false := by
        rw [absent]
        rfl
      rcases projectPath_below below settled with same | ⟨structural, _⟩
      · exact absurd (same.symm.trans absent) (projectPath_ne_absent List.mem_cons_self)
      · rw [absent] at structural
        cases structural
  · rintro ⟨rfl, rfl⟩
    rfl

theorem hasDescendant_iff_below {state : NativeState} {path : SyncPath} :
    hasDescendant state path = true ↔ ∃ key ∈ state.heads, Below path key := by
  rw [hasDescendant_iff]
  constructor
  · rintro ⟨key, stored, held, below⟩
    exact ⟨key, mem_iff_isSome_getElem?.mpr (by rw [held]; rfl),
      below_iff_slash.mpr below⟩
  · rintro ⟨key, member, below⟩
    rcases Option.isSome_iff_exists.mp (mem_iff_isSome_getElem?.mp member) with
      ⟨stored, held⟩
    exact ⟨key, stored, held, below_iff_slash.mp below⟩

/-- The tree holds the paths with heads and those above a path of the head map, each with what its
heads and the paths below it make of it. Paths are read by component: one that only shares the
beginning of a name is not below. Where no path is stored without heads, the paths above one are
those with a head below. -/
theorem projectTree_exact (state : NativeState) (kindOf : VersionHash → Option RecordKind) :
    (∀ path, path ∈ projectTree state kindOf ↔
      state.headsAt path ≠ [] ∨ ∃ key ∈ state.heads, Below path key) ∧
    (NoEmptyPath state.heads → ∀ path, path ∈ projectTree state kindOf ↔
      state.headsAt path ≠ [] ∨ ∃ key, state.headsAt key ≠ [] ∧ Below path key) ∧
    (∀ path projection, (projectTree state kindOf)[path]? = some projection →
      ∃ below : Bool, (below = true ↔ ∃ key ∈ state.heads, Below path key) ∧
        projection = projectPath (state.headsAt path) kindOf below) ∧
    ∀ path, path ∈ blockedByPending (projectTree state kindOf) ↔
      path ∈ projectTree state kindOf ∧ ∃ (ancestor : SyncPath) (reason : PendingReason),
        Below ancestor path ∧ (projectTree state kindOf)[ancestor]? = some (.pending reason) := by
  have contains : ∀ path, path ∈ projectTree state kindOf ↔
      state.headsAt path ≠ [] ∨ ∃ key ∈ state.heads, Below path key := by
    intro path
    rw [ExtTreeMap.mem_iff_isSome_getElem?, getElem?_projectTree, ← hasDescendant_iff_below]
    by_cases absent : projectionOf state kindOf path = .absent
    · rw [if_pos absent]
      rw [projectionOf, projectPath_eq_absent_iff] at absent
      simp [absent]
    · rw [if_neg absent]
      rw [projectionOf, projectPath_eq_absent_iff, not_and_or, Bool.not_eq_false] at absent
      simpa using absent
  refine ⟨contains, ?_, ?_, fun path => mem_blockedByPending⟩
  · intro stored path
    rw [contains]
    refine or_congr_right (exists_congr fun key => and_congr_left fun _ => ?_)
    rw [ExtTreeMap.mem_iff_isSome_getElem?, NativeState.headsAt, NativeState.pathHeads]
    cases found : state.heads[key]? with
    | none => simp
    | some heads =>
      have nonempty := stored key heads found
      rw [← ExtTreeMap.isEmpty_toList, List.isEmpty_eq_false_iff] at nonempty
      simpa using nonempty
  · intro path projection shown
    rw [getElem?_projectTree] at shown
    split at shown
    · cases shown
    · cases shown
      exact ⟨hasDescendant state path, hasDescendant_iff_below, rfl⟩

end Yadorilink
