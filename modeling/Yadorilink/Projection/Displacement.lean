import Yadorilink.Projection.DisplacementGuard

/-! What the displacement guard does for a group: a path never gives up the last
copy on disk of a version that is live somewhere, and which paths wait for each
other while the disk is brought up to date path by path. -/

namespace Yadorilink

open Std Function Option

namespace Group

section Steps

variable (kind : VersionHash → RecordKind)

/-- The file version `version` is named by the row or by the last proof. -/
def Names (group : Group) (path : SyncPath) (version : VersionHash) : Prop :=
  group.rowVersion kind path = some version ∨ group.proofVersion path = some version

/-- Every file version on disk is named by its path's row or its last proof. -/
def Named (group : Group) : Prop :=
  ∀ path version, group.disk path = some (.entry version) → group.Names kind path version

/-- What is on disk once a path shows what native state projects there. -/
def projectedObject (group : Group) (path : SyncPath) : Option DiskObject :=
  match group.projectionAt kind path with
  | .settled (.entry _ version _) => some (.entry version)
  | .settled (.directory _) => some .directory
  | _ => none

/-- The replacement or removal of what an uncontested path shows. The row, the
proof and the fence are left in any state that names what is on disk. -/
inductive Replaces (group : Group) : Group → Prop where
  | placed (path : SyncPath) (row : Option CanonicalCurrentRow) (proof : Option DiskGenerationBasis)
      (fence : Option Nat) (next : Group)
      (uncontested : (group.projectionAt kind path).isPending = false)
      (allowed : group.displacementAllowed kind path (group.plannedVersion kind path) = true)
      (result : next = { group with
        disk := Function.update group.disk path (group.projectedObject kind path)
        rows := Function.update group.rows path row
        proofs := Function.update group.proofs path proof
        fences := Function.update group.fences path fence })
      (named : ∀ version, next.disk path = some (.entry version) → next.Names kind path version) :
      Replaces group next
  /-- The row moved and the write failed: disk and proof stay as they were. -/
  | failed (path : SyncPath) (row : Option CanonicalCurrentRow) (fence : Option Nat)
      (uncontested : (group.projectionAt kind path).isPending = false)
      (allowed : group.displacementAllowed kind path (group.plannedVersion kind path) = true)
      (proven : ∀ version, group.disk path = some (.entry version) →
        group.proofVersion path = some version) :
      Replaces group { group with
        rows := Function.update group.rows path row
        fences := Function.update group.fences path fence }

/-- One atomic step: the live heads, the records held and what the device can
do change in any way, or a path is replaced. -/
inductive Step (group : Group) : Group → Prop where
  | heads (state : NativeState) (recordHeld : VersionHash → Bool)
      (locallyIgnored identityTold : SyncPath → Bool) (linked durable : Bool) :
      Step group { group with
        state := state
        recordHeld := recordHeld
        locallyIgnored := locallyIgnored
        identityTold := identityTold
        linked := linked
        durable := durable }
  | replaces (next : Group) (replaced : group.Replaces kind next) : Step group next

def OnDisk (group : Group) (version : VersionHash) : Prop :=
  ∃ path, group.disk path = some (.entry version)

end Steps

variable {path : SyncPath}

section Runs

variable {kind : VersionHash → RecordKind} {group next : Group} {version : VersionHash}

/-! ## No last copy is lost -/

theorem Replaces.named (replaced : group.Replaces kind next) (named : group.Named kind) :
    next.Named kind := by
  intro other version shown
  cases replaced with
  | placed path row proof fence _ uncontested allowed result names =>
    by_cases here : other = path
    · rw [here] at shown ⊢
      exact names version shown
    · subst result
      simp only [update_of_ne here] at shown
      rcases named other version shown with byRow | byProof
      · left
        simpa only [rowVersion, update_of_ne here] using byRow
      · right
        simpa only [proofVersion, update_of_ne here] using byProof
  | failed path row fence uncontested allowed proven =>
    by_cases here : other = path
    · rw [here] at shown ⊢
      exact .inr (proven version shown)
    · rcases named other version shown with byRow | byProof
      · left
        simpa only [rowVersion, update_of_ne here] using byRow
      · exact .inr byProof

theorem Step.named (step : group.Step kind next) (named : group.Named kind) : next.Named kind := by
  cases step with
  | heads => exact named
  | replaces _ replaced => exact replaced.named named

theorem named_run {start : Group} (named : start.Named kind)
    (run : Relation.ReflTransGen (Step kind) start group) : group.Named kind := by
  induction run with
  | refl => exact named
  | tail _ step induction => exact step.named induction

theorem projectionAt_of_live (uncontested : (group.projectionAt kind path).isPending = false)
    (fileLike : kind version ≠ .directory) (live : group.LiveAt path version) :
    ∃ entryKind representative,
      group.projectionAt kind path = .settled (.entry entryKind version representative) := by
  rcases live with ⟨head, member, rfl⟩
  have known := kindOf_ne_none_of_settled uncontested head member
  have found : group.kindOf kind head.payload.version = some (kind head.payload.version) := by
    rw [kindOf] at known ⊢
    split at known
    · rename_i held
      rw [if_pos held]
    · exact absurd rfl known
  rcases projectPath_of_fileLike uncontested member found fileLike with ⟨representative, shows⟩
  exact ⟨_, representative, shows⟩

theorem Replaces.keeps (replaced : group.Replaces kind next) (named : group.Named kind)
    (fileLike : kind version ≠ .directory) (live : ∃ path, group.LiveAt path version)
    (onDisk : group.OnDisk version) : next.OnDisk version := by
  cases replaced with
  | failed path row fence uncontested allowed proven => exact onDisk
  | placed path row proof fence _ uncontested allowed result names =>
    subst result
    rcases onDisk with ⟨place, shown⟩
    by_cases here : place = path
    · subst here
      by_cases planned : group.plannedVersion kind place = some version
      · refine ⟨place, ?_⟩
        rw [plannedVersion] at planned
        split at planned
        · rename_i projected
          cases planned
          simp only [update_self, projectedObject, projected]
        · cases planned
      · -- The version goes: it is live at another path, and on disk there.
        have gone : version ∈ group.displaced kind place (group.plannedVersion kind place) :=
          mem_displaced.mpr ⟨named place version shown, planned⟩
        rcases live with ⟨other, live⟩
        by_cases same : other = place
        · subst same
          rcases projectionAt_of_live uncontested fileLike live with
            ⟨entryKind, representative, projected⟩
          rw [plannedVersion, projected] at planned
          exact absurd rfl planned
        · have holder : other ∈ group.elsewhere place version := mem_elsewhere.mpr ⟨live, same⟩
          have exact := onDiskAt_of_displacementAllowed allowed gone holder
          rcases disk_of_onDiskAt exact with ⟨entryKind, held, representative, projected, holds⟩
          rcases live with ⟨head, member, rfl⟩
          have only := (projectPath_entry projected).2.2.2 head member
          refine ⟨other, ?_⟩
          simp only [update_of_ne same]
          rw [only]
          exact holds
    · refine ⟨place, ?_⟩
      simp only [update_of_ne here]
      exact shown

/-- In every run, a replacement or removal keeps every file or symlink version
that is live somewhere and on disk somewhere on disk somewhere. -/
theorem guarded_projection_keeps_last_copy {start : Group} (named : start.Named kind)
    (run : Relation.ReflTransGen (Step kind) start group)
    (replaced : group.Replaces kind next) (version : VersionHash)
    (fileLike : kind version = .file ∨ kind version = .symlink)
    (live : ∃ path, group.LiveAt path version) (onDisk : group.OnDisk version) :
    next.OnDisk version := by
  have notDirectory : kind version ≠ .directory := by
    intro directory
    rw [directory] at fileLike
    rcases fileLike with impossible | impossible <;> cases impossible
  exact replaced.keeps (named_run named run) notDirectory live onDisk

/-! ## Paths that wait for each other -/

/-- The disk shows something other than what native state projects at a path. -/
def Stale (kind : VersionHash → RecordKind) (group : Group) (path : SyncPath) : Prop :=
  group.disk path ≠ group.projectedObject kind path

/-- Every record is held, no path is contested, every live file is to be on disk
and no path is ignored, and each path's row and proof name exactly the file
version its disk shows. -/
structure Eager (kind : VersionHash → RecordKind) (group : Group) : Prop where
  records : ∀ path, ∀ head ∈ group.state.headsAt path, group.recordHeld head.payload.version
  uncontested : ∀ path, (group.projectionAt kind path).isPending = false
  present : ∀ path row, group.rows path = some row → row.deleted = false →
    row.materialization = some .present
  noticed : ∀ path, group.locallyIgnored path = false
  row : ∀ path version, group.rowVersion kind path = some version ↔
    group.disk path = some (.entry version)
  proof : ∀ path version, group.proofVersion path = some version ↔
    group.disk path = some (.entry version)

/-- `path` shows a file version that the stale path `other` is to show. -/
def WaitsFor (kind : VersionHash → RecordKind) (group : Group) (path other : SyncPath) : Prop :=
  other ≠ path ∧ group.Stale kind other ∧ ∃ version, group.disk path = some (.entry version) ∧
      group.plannedVersion kind other = some version

theorem rowHolds_of_rowVersion (shown : group.rowVersion kind path = some version) :
    group.rowHolds version path = true := by
  rw [rowVersion] at shown
  rcases bind_eq_some_iff.mp shown with ⟨row, found, shown⟩
  split at shown
  · rename_i conditions
    cases shown
    rw [rowHolds, found]
    simp_all
  · cases shown

theorem rowVersion_of_rowHolds (fileLike : kind version ≠ .directory)
    (held : group.rowHolds version path = true) : group.rowVersion kind path = some version := by
  rw [rowHolds] at held
  cases found : group.rows path with
  | none =>
    rw [found] at held
    cases held
  | some row =>
    rw [found, any_some] at held
    rw [rowVersion, found]
    simp_all

theorem kind_of_rowVersion (shown : group.rowVersion kind path = some version) :
    kind version ≠ .directory := by
  rw [rowVersion] at shown
  rcases bind_eq_some_iff.mp shown with ⟨row, found, shown⟩
  split at shown
  · rename_i conditions
    cases shown
    simp_all
  · cases shown

theorem projectedObject_of_planned (planned : group.plannedVersion kind path = some version) :
    group.projectedObject kind path = some (.entry version) := by
  rw [plannedVersion] at planned
  split at planned
  · rename_i projected
    cases planned
    rw [projectedObject, projected]
  · cases planned

theorem liveAt_of_planned (planned : group.plannedVersion kind path = some version) :
    group.LiveAt path version := by
  rw [plannedVersion] at planned
  split at planned
  · rename_i projected
    cases planned
    rcases (projectPath_entry projected).2.2.1 with ⟨head, member, same, _⟩
    exact ⟨head, member, same⟩
  · cases planned

/-- A stale path is told to wait exactly while another stale path is to show
the version it shows. -/
theorem Eager.wait_iff (eager : group.Eager kind) (stale : group.Stale kind path) :
    group.displacementGuard kind path (group.plannedVersion kind path) = .wait ↔
      ∃ other, group.WaitsFor kind path other := by
  rw [displacementGuard_eq_wait]
  constructor
  · rintro ⟨version, gone, other, lives, lacks⟩
    rcases mem_elsewhere.mp lives with ⟨live, apart⟩
    have shown : group.disk path = some (.entry version) := by
      rcases (mem_displaced.mp gone).1 with byRow | byProof
      · exact (eager.row path version).mp byRow
      · exact (eager.proof path version).mp byProof
    have fileLike := kind_of_rowVersion ((eager.row path version).mpr shown)
    rcases projectionAt_of_live (eager.uncontested other) fileLike live with
      ⟨entryKind, representative, projected⟩
    have planned : group.plannedVersion kind other = some version := by
      rw [plannedVersion, projected]
    refine ⟨other, apart, ?_, version, shown, planned⟩
    intro same
    rw [projectedObject_of_planned planned] at same
    rw [rowHolds_of_rowVersion ((eager.row other version).mpr same)] at lacks
    cases lacks
  · rintro ⟨other, apart, staleToo, version, shown, planned⟩
    have byRow := (eager.row path version).mpr shown
    have unplanned : group.plannedVersion kind path ≠ some version := by
      intro planned
      apply stale
      rw [shown, projectedObject_of_planned planned]
    refine ⟨version, mem_displaced.mpr ⟨.inl byRow, unplanned⟩, other, ?_, ?_⟩
    · exact mem_elsewhere.mpr ⟨liveAt_of_planned planned, apart⟩
    · rw [Bool.eq_false_iff]
      intro holds
      apply staleToo
      rw [projectedObject_of_planned planned]
      exact (eager.row other version).mp
        (rowVersion_of_rowHolds (kind_of_rowVersion byRow) holds)

/-- Some stale path may be brought up to date exactly when one of them shows no
file version that another of them is to show. -/
theorem pending_path_may_proceed_iff (eager : group.Eager kind) : (∃ path, group.Stale kind path ∧
        group.displacementGuard kind path (group.plannedVersion kind path) ≠ .wait) ↔
      ∃ path, group.Stale kind path ∧ ∀ other, ¬group.WaitsFor kind path other := by
  apply exists_congr
  intro path
  apply and_congr_right
  intro stale
  rw [ne_eq, eager.wait_iff stale, not_exists]

end Runs

/-! ## Two files that trade places -/

namespace Swap

def first : VersionHash := ⟨1⟩

def second : VersionHash := ⟨2⟩

def kind : VersionHash → RecordKind := fun _ => .file

def heads (seq : Nat) (version : VersionHash) : PathHeads :=
  (∅ : PathHeads).insert ⟨⟨"phone", 1⟩, seq⟩ ⟨version, ⟨0⟩⟩

def state : NativeState :=
  ⟨∅, ((∅ : HeadMap).insert "a" (heads 1 second)).insert "b" (heads 2 first)⟩

/-- What is at "a" and at "b", and nothing anywhere else. -/
def two {α : Type} (atA atB : α) (path : SyncPath) : Option α :=
  if path = "a" then some atA else if path = "b" then some atB else none

/-- The disk shows the versions the other way round than native state does. -/
def group : Group where
  state := state
  recordHeld := fun _ => true
  rows := two ⟨false, first, some .present⟩ ⟨false, second, some .present⟩
  proofs := two ⟨.regularFile, some first, 1⟩ ⟨.regularFile, some second, 1⟩
  fences := two 1 1
  disk := two (.entry first) (.entry second)
  locallyIgnored := fun _ => false
  identityTold := fun _ => true
  linked := true
  durable := true

theorem headsAt_other (notA : path ≠ "a") (notB : path ≠ "b") : state.headsAt path = [] := by
  have missing : state.heads[path]? = none := by
    rw [state, ExtTreeMap.getElem?_insert, if_neg, ExtTreeMap.getElem?_insert, if_neg,
      ExtTreeMap.getElem?_empty]
    · rw [LawfulEqCmp.compare_eq_iff_eq]
      exact notA.symm
    · rw [LawfulEqCmp.compare_eq_iff_eq]
      exact notB.symm
  rw [NativeState.headsAt, NativeState.pathHeads, missing, getD_none]
  decide

theorem not_hasDescendant (path : SyncPath) : hasDescendant state path = false := by
  rw [hasDescendant, any_eq_false]
  intro key found
  have keys : state.heads.keys = ["a", "b"] := by decide
  have member := List.mem_of_find?_eq_some found
  rw [Bool.eq_false_iff]
  intro below
  have slash : '/' ∈ key.toList := by
    apply (List.isPrefixOf_iff_prefix.mp below).subset
    rw [String.toList_append]
    exact List.mem_append_right _ (.head _)
  rw [keys] at member
  have either : key = "a" ∨ key = "b" := by simpa using member
  rcases either with rfl | rfl
  · exact absurd slash (by decide)
  · exact absurd slash (by decide)

theorem projectionAt_a :
    group.projectionAt kind "a" = .settled (.entry .file second ⟨⟨"phone", 1⟩, 1⟩) := by
  decide

theorem projectionAt_b :
    group.projectionAt kind "b" = .settled (.entry .file first ⟨⟨"phone", 1⟩, 2⟩) := by
  decide

theorem projectionAt_other (notA : path ≠ "a") (notB : path ≠ "b") :
    group.projectionAt kind path = .absent := by
  have noHeads : group.state.headsAt path = [] := headsAt_other notA notB
  have noneBelow : hasDescendant group.state path = false := not_hasDescendant path
  rw [projectionAt, noHeads, noneBelow]
  rfl

theorem eager : group.Eager kind where
  records := fun _ _ _ => rfl
  uncontested := by
    intro path
    by_cases atA : path = "a"
    · rw [atA, projectionAt_a]
      rfl
    · by_cases atB : path = "b"
      · rw [atB, projectionAt_b]
        rfl
      · rw [projectionAt_other atA atB]
        rfl
  present := by
    intro path row found _
    simp only [group, two] at found
    split at found
    · cases found
      rfl
    · split at found
      · cases found
        rfl
      · cases found
  noticed := fun _ => rfl
  row := by
    intro path version
    simp only [rowVersion, group, two]
    split
    · simp [kind]
    · split
      · simp [kind]
      · simp
  proof := by
    intro path version
    simp only [proofVersion, group, two]
    split
    · simp
    · split
      · simp
      · simp

end Swap

/-- A path that only gives up what no other stale path is to show may proceed;
in the trade neither does. -/
theorem pending_path_may_proceed_iff_swap : Swap.group.Eager Swap.kind ∧
      ((∃ path, Swap.group.Stale Swap.kind path ∧ Swap.group.displacementGuard Swap.kind path
          (Swap.group.plannedVersion Swap.kind path) ≠ .wait) ↔
        ∃ path, Swap.group.Stale Swap.kind path ∧
          ∀ other, ¬Swap.group.WaitsFor Swap.kind path other) :=
  ⟨Swap.eager, pending_path_may_proceed_iff Swap.eager⟩

/-- Two files that trade places: both paths are stale, and each is told to wait
for the other. -/
theorem swapped_files_wait_for_each_other :
    ∃ (kind : VersionHash → RecordKind) (group : Group), group.Eager kind ∧
      (∃ path, group.Stale kind path) ∧
      ∀ path, group.Stale kind path →
        group.displacementGuard kind path (group.plannedVersion kind path) = .wait := by
  refine ⟨Swap.kind, Swap.group, Swap.eager, ⟨"a", ?_⟩, ?_⟩
  · rw [Stale, projectedObject, Swap.projectionAt_a]
    decide
  · intro path stale
    by_cases atA : path = "a"
    · rw [atA]
      decide
    · by_cases atB : path = "b"
      · rw [atB]
        decide
      · rw [Stale, projectedObject, Swap.projectionAt_other atA atB] at stale
        simp [Swap.group, Swap.two, atA, atB] at stale

namespace Swap

/-- "a" is to show the second version and "b", its copy path, holds the first. -/
def copied : Group :=
  { group with
    rows := two ⟨false, first, some .present⟩ ⟨false, first, some .present⟩
    proofs := two ⟨.regularFile, some first, 1⟩ ⟨.regularFile, some first, 1⟩
    disk := two (.entry first) (.entry first) }

def replaced : Group :=
  { copied with
    disk := Function.update copied.disk "a" (copied.projectedObject kind "a")
    rows := Function.update copied.rows "a" (some ⟨false, second, some .present⟩)
    proofs := Function.update copied.proofs "a" (some ⟨.regularFile, some second, 2⟩)
    fences := Function.update copied.fences "a" (some 2) }

theorem replaces : copied.Replaces kind replaced := by
  refine .placed "a" _ _ _ replaced (by decide) (by decide) rfl ?_
  intro version shown
  have second : replaced.disk "a" = some (.entry second) := by decide
  rw [second] at shown
  cases shown
  exact .inl (by decide)

theorem named : copied.Named kind := by
  intro path version shown
  left
  simp only [copied, two] at shown ⊢
  simp only [rowVersion]
  split at shown
  · rename_i atA
    cases shown
    simp [two, atA, kind]
  · split at shown
    · rename_i notA atB
      cases shown
      simp [two, atB, kind]
    · cases shown

end Swap

theorem guarded_projection_keeps_last_copy_of_fork : Swap.replaced.OnDisk Swap.first := by
  apply @guarded_projection_keeps_last_copy Swap.kind Swap.copied Swap.replaced
    { Swap.copied with state := .new } Swap.named
  · exact .single (.heads Swap.state _ _ _ _ _)
  · exact Swap.replaces
  · exact .inl rfl
  · exact ⟨"b", ⟨⟨⟨"phone", 1⟩, 2⟩, ⟨Swap.first, ⟨0⟩⟩⟩, by decide, rfl⟩
  · exact ⟨"a", by decide⟩

end Group

end Yadorilink
