import Yadorilink.Domain.NativeFork

/-! What a path shows, as a pure function of the replicated head state. A path
is contested when file-like heads of two versions hold it, or when a file-like
head holds a path that has to be a directory; a contested path is pending, and
so is one whose version records have not all arrived. -/

namespace Yadorilink

open List

/-! ## Projections -/

/-- How a directory at a path came to be. -/
inductive DirectoryNode where
  | explicit (version : VersionHash)
  | structural
deriving DecidableEq

/-- What a settled path shows. -/
inductive Settled where
  | entry (kind : RecordKind) (version : VersionHash) (representative : Dot)
  | directory (node : DirectoryNode)
deriving DecidableEq

/-- Why a path cannot be settled yet. -/
inductive PendingReason where
  | distinctVersions
  | directoryRequired
  | unknownKind (version : VersionHash)
deriving DecidableEq

inductive Projection where
  | settled (shown : Settled)
  | absent
  | pending (reason : PendingReason)
deriving DecidableEq

def Projection.isPending : Projection → Bool
  | .pending _ => true
  | _ => false

/-! ## Sorting the heads of one path -/

/-- What the walk over a path's heads has found so far. -/
structure HeadScan where
  bestDirectory : Option WinKey
  fileLike : List (LiveHead × RecordKind)
  unknown : Option VersionHash

def HeadScan.start : HeadScan := ⟨none, [], none⟩

def smallerVersion (first second : VersionHash) : VersionHash :=
  if compare first second = .gt then second else first

/-- One head: its version's record is missing, a directory's or file-like. -/
def HeadScan.visit (kindOf : VersionHash → Option RecordKind) (scan : HeadScan)
    (head : LiveHead) : HeadScan :=
  match kindOf head.payload.version with
  | none =>
    { scan with unknown := some (match scan.unknown with
        | none => head.payload.version
        | some version => smallerVersion version head.payload.version) }
  | some .directory =>
    let key := winKey true head.payload.version
    { scan with bestDirectory := some (match scan.bestDirectory with
        | none => key
        | some best => best.larger key) }
  | some kind => { scan with fileLike := scan.fileLike ++ [(head, kind)] }

def scanHeads (kindOf : VersionHash → Option RecordKind) (heads : List LiveHead) : HeadScan :=
  heads.foldl (HeadScan.visit kindOf) .start

/-- The last of the heads with the largest provenance. -/
def largestProvenance (first : LiveHead × RecordKind) (rest : List (LiveHead × RecordKind)) :
    LiveHead × RecordKind :=
  rest.foldl (fun best next =>
    if compare best.1.payload.provenance next.1.payload.provenance = .gt then best else next) first

/-- Projects one path from its live heads. `hasLiveDescendant` is true when
some live head exists strictly below the path. -/
def projectPath (heads : List LiveHead) (kindOf : VersionHash → Option RecordKind)
    (hasLiveDescendant : Bool) : Projection :=
  let scan := scanHeads kindOf heads
  match scan.unknown, scan.fileLike with
  | some version, _ => .pending (.unknownKind version)
  | none, first :: rest =>
    if scan.bestDirectory.isSome || hasLiveDescendant then .pending .directoryRequired
    else if rest.any fun other =>
        other.1.payload.version ≠ first.1.payload.version then .pending .distinctVersions
    else
      let winner := largestProvenance first rest
      .settled (.entry winner.2 winner.1.payload.version winner.1.dot)
  | none, [] =>
    match scan.bestDirectory with
    | some key => .settled (.directory (.explicit key.version))
    | none => if hasLiveDescendant then .settled (.directory .structural) else .absent

/-! ## What the walk finds -/

section Scans

variable {kindOf : VersionHash → Option RecordKind}

/-- What the walk over `heads` ends with. -/
structure HeadScan.Finds (kindOf : VersionHash → Option RecordKind) (heads : List LiveHead)
    (scan : HeadScan) : Prop where
  unknown : (scan.unknown = none) ↔ ∀ head ∈ heads, kindOf head.payload.version ≠ none
  directory : (scan.bestDirectory = none) ↔
    ∀ head ∈ heads, kindOf head.payload.version ≠ some .directory
  fileLike : ∀ head kind, (head, kind) ∈ scan.fileLike ↔
    head ∈ heads ∧ kindOf head.payload.version = some kind ∧ kind ≠ .directory

theorem HeadScan.finds_start : HeadScan.start.Finds kindOf [] := by
  constructor
  · simp [HeadScan.start]
  · simp [HeadScan.start]
  · simp [HeadScan.start]

theorem HeadScan.Finds.visit {heads : List LiveHead} {scan : HeadScan}
    (finds : scan.Finds kindOf heads) (head : LiveHead) :
    (scan.visit kindOf head).Finds kindOf (heads ++ [head]) := by
  have later : ∀ {P : LiveHead → Prop}, (∀ other ∈ heads ++ [head], P other) ↔
      (∀ other ∈ heads, P other) ∧ P head := by
    intro P
    constructor
    · intro all
      exact ⟨fun other member => all other (mem_append_left _ member),
        all head (mem_append_right _ (.head _))⟩
    · intro both other member
      rcases mem_append.mp member with old | new
      · exact both.1 other old
      · rw [mem_singleton.mp new]
        exact both.2
  have known := finds.unknown
  have plain := finds.directory
  have files := finds.fileLike
  cases found : kindOf head.payload.version with
  | none =>
    rw [HeadScan.visit, found]
    constructor
    · rw [later]
      simp [found]
    · rw [later, found]
      simpa using plain
    · intro other kind
      rw [files]
      constructor
      · exact fun held => ⟨mem_append_left _ held.1, held.2⟩
      · intro held
        rcases mem_append.mp held.1 with old | new
        · exact ⟨old, held.2⟩
        · rw [mem_singleton.mp new, found] at held
          cases held.2.1
  | some kind =>
    by_cases directory : kind = .directory
    · subst directory
      rw [HeadScan.visit, found]
      constructor
      · rw [later, found]
        simpa using known
      · rw [later]
        simp [found]
      · intro other kind
        rw [files]
        constructor
        · exact fun held => ⟨mem_append_left _ held.1, held.2⟩
        · intro held
          rcases mem_append.mp held.1 with old | new
          · exact ⟨old, held.2⟩
          · rw [mem_singleton.mp new, found] at held
            exact absurd (Option.some.inj held.2.1).symm held.2.2
    · have visited : scan.visit kindOf head =
          { scan with fileLike := scan.fileLike ++ [(head, kind)] } := by
        rw [HeadScan.visit, found]
        cases kind with
        | directory => exact absurd rfl directory
        | file => rfl
        | symlink => rfl
      rw [visited]
      constructor
      · rw [later, found]
        simpa using known
      · rw [later, found]
        simpa [directory] using plain
      · intro other otherKind
        rw [mem_append, files, mem_append, mem_singleton, mem_singleton]
        constructor
        · rintro (held | same)
          · exact ⟨.inl held.1, held.2⟩
          · cases same
            exact ⟨.inr rfl, found, directory⟩
        · rintro ⟨old | rfl, held⟩
          · exact .inl ⟨old, held⟩
          · rw [found] at held
            rw [Option.some.inj held.1]
            exact .inr rfl

theorem finds_scanHeads (heads : List LiveHead) : (scanHeads kindOf heads).Finds kindOf heads := by
  -- The walk over `rest` starts from what it found in `before`.
  have walk : ∀ (rest before : List LiveHead) (scan : HeadScan), scan.Finds kindOf before →
      (rest.foldl (HeadScan.visit kindOf) scan).Finds kindOf (before ++ rest) := by
    intro rest
    induction rest with
    | nil =>
      intro before scan finds
      rw [append_nil]
      exact finds
    | cons head rest induction =>
      intro before scan finds
      rw [append_cons]
      exact induction _ _ (finds.visit head)
  exact walk heads [] .start HeadScan.finds_start

theorem largestProvenance_mem (first : LiveHead × RecordKind)
    (rest : List (LiveHead × RecordKind)) :
    largestProvenance first rest ∈ first :: rest := by
  rw [largestProvenance]
  induction rest generalizing first with
  | nil => exact mem_singleton_self _
  | cons next rest induction =>
    rw [foldl_cons]
    split
    · rcases mem_cons.mp (induction first) with here | later
      · rw [here]
        exact .head _
      · exact .tail _ (.tail _ later)
    · exact .tail _ (induction next)

end Scans

/-! ## What a projection says about the heads -/

section Projections

variable {heads : List LiveHead} {kindOf : VersionHash → Option RecordKind}
  {hasLiveDescendant : Bool}

theorem kindOf_ne_none_of_settled
    (settled : (projectPath heads kindOf hasLiveDescendant).isPending = false) :
    ∀ head ∈ heads, kindOf head.payload.version ≠ none := by
  apply (finds_scanHeads heads).unknown.mp
  cases unknown : (scanHeads kindOf heads).unknown with
  | none => rfl
  | some version =>
    rw [projectPath] at settled
    simp only [unknown] at settled
    cases settled

theorem projectPath_entry {kind : RecordKind} {version : VersionHash} {representative : Dot}
    (projected : projectPath heads kindOf hasLiveDescendant =
      .settled (.entry kind version representative)) :
    kindOf version = some kind ∧ kind ≠ .directory ∧
      (∃ head ∈ heads, head.payload.version = version ∧ head.dot = representative) ∧
      ∀ head ∈ heads, head.payload.version = version := by
  have finds := @finds_scanHeads kindOf heads
  rw [projectPath] at projected
  dsimp only at projected
  split at projected
  · cases projected
  · rename_i first rest known files
    split at projected
    · cases projected
    · rename_i plain
      split at projected
      · cases projected
      · rename_i same
        cases projected
        rw [Bool.or_eq_true, not_or] at plain
        have noDirectory := finds.directory.mp (by
          rw [← Option.not_isSome_iff_eq_none]
          exact plain.1)
        have winnerIn : largestProvenance first rest ∈ (scanHeads kindOf heads).fileLike := by
          rw [files]
          exact largestProvenance_mem first rest
        have winner := (finds.fileLike (largestProvenance first rest).1
          (largestProvenance first rest).2).mp winnerIn
        -- Every file-like head is of the first one's version.
        have ofFirst : ∀ found ∈ first :: rest,
            found.1.payload.version = first.1.payload.version := by
          intro found member
          rcases mem_cons.mp member with here | later
          · rw [here]
          · rw [any_eq_true, not_exists] at same
            have agree := same found
            simpa [later] using agree
        have ofWinner := ofFirst _ (largestProvenance_mem first rest)
        refine ⟨winner.2.1, winner.2.2, ⟨_, winner.1, rfl, rfl⟩, ?_⟩
        intro head member
        have kindKnown := finds.unknown.mp known head member
        cases found : kindOf head.payload.version with
        | none => exact absurd found kindKnown
        | some headKind =>
          have notDirectory : headKind ≠ .directory := by
            intro directory
            rw [directory] at found
            exact noDirectory head member found
          have inFiles := (finds.fileLike head headKind).mpr ⟨member, found, notDirectory⟩
          rw [files] at inFiles
          rw [ofWinner]
          exact ofFirst _ inFiles
  · split at projected
    · cases projected
    · split at projected
      · cases projected
      · cases projected

theorem projectPath_of_fileLike {head : LiveHead} {kind : RecordKind}
    (settled : (projectPath heads kindOf hasLiveDescendant).isPending = false)
    (member : head ∈ heads) (known : kindOf head.payload.version = some kind)
    (fileLike : kind ≠ .directory) :
    ∃ representative, projectPath heads kindOf hasLiveDescendant =
      .settled (.entry kind head.payload.version representative) := by
  have finds := @finds_scanHeads kindOf heads
  have inFiles := (finds.fileLike head kind).mpr ⟨member, known, fileLike⟩
  cases projected : projectPath heads kindOf hasLiveDescendant with
  | pending reason =>
    rw [projected] at settled
    cases settled
  | absent =>
    rw [projectPath] at projected
    dsimp only at projected
    split at projected
    · cases projected
    · split at projected
      · cases projected
      · split at projected
        · cases projected
        · cases projected
    · rename_i files
      rw [files] at inFiles
      cases inFiles
  | settled shown =>
    cases shown with
    | entry shownKind version representative =>
      have entry := projectPath_entry projected
      have same := entry.2.2.2 head member
      rw [same, entry.1] at known
      rw [same, Option.some.inj known]
      exact ⟨representative, rfl⟩
    | directory node =>
      rw [projectPath] at projected
      dsimp only at projected
      split at projected
      · cases projected
      · split at projected
        · cases projected
        · split at projected
          · cases projected
          · cases projected
      · rename_i files
        rw [files] at inFiles
        cases inFiles

end Projections

end Yadorilink
