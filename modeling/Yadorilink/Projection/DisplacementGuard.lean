import Yadorilink.Projection.ProjectPath

/-! The displacement guard: replacing or removing what a path shows on disk
must not lose a version the replicated state still holds elsewhere. Before a
path gives up its content, the guard asks where else that version is live and
whether each of those paths already holds it. -/

namespace Yadorilink

open Std List NativeState

/-! ## What the index and the disk hold -/

inductive MaterializationState where
  | remote
  | hydrating
  | present
  | evicting
deriving DecidableEq

/-- The current row of a path. Its version is the hash of its snapshot, so the
record kind is the version's. -/
structure CanonicalCurrentRow where
  deleted : Bool
  version : VersionHash
  materialization : Option MaterializationState
deriving DecidableEq

/-- The last proof published for a path. -/
structure DiskGenerationBasis where
  objectKind : MaterializedObjectKind
  version : Option VersionHash
  publishedUnder : Nat
deriving DecidableEq

inductive DiskObject where
  /-- A file or a symlink, of one version. -/
  | entry (version : VersionHash)
  | directory
deriving DecidableEq

/-- One group on one device: the live heads and the records held for them, the
index's rows, proofs and mutation fences, and the disk. -/
structure Group where
  state : NativeState
  recordHeld : VersionHash → Bool
  rows : SyncPath → Option CanonicalCurrentRow
  proofs : SyncPath → Option DiskGenerationBasis
  fences : SyncPath → Option Nat
  disk : SyncPath → Option DiskObject
  locallyIgnored : SyncPath → Bool
  /-- Whether the identity of what is on disk at a path can be told. -/
  identityTold : SyncPath → Bool
  linked : Bool
  /-- Whether the volume of the sync root offers durable namespace changes. -/
  durable : Bool

def mapRecordKind : RecordKind → MaterializedObjectKind
  | .file => .regularFile
  | .directory => .directory
  | .symlink => .symlink

/-- What native state requires at one path. -/
inductive DesiredPathState where
  | absent
  | entry (kind : RecordKind) (version : VersionHash)
  | explicitDirectory (version : VersionHash)
  | structuralDirectory
deriving DecidableEq

/-- The kind and version a state is proven by. The proof's state hash is the
hash of this pair, and stands for it here. -/
def DesiredPathState.objectKindAndVersion :
    DesiredPathState → MaterializedObjectKind × Option VersionHash
  | .absent => (.absent, none)
  | .entry kind version => (mapRecordKind kind, some version)
  | .explicitDirectory version => (.directory, some version)
  | .structuralDirectory => (.structuralDirectory, none)

/-- What closes an obligation without any physical work. -/
inductive SettlementEvidence where
  | exactObject (kind : RecordKind) (version : VersionHash)
  | exactAbsent
deriving DecidableEq

/-- What the guard finds for one path about to give up its content. -/
inductive DisplacementGuard where
  | clear
  | wait
  | guarded (holders : List SyncPath)
deriving DecidableEq

namespace Group

/-! ## Native state's plan -/

section Guards

variable (kind : VersionHash → RecordKind) (group : Group)

def kindOf (version : VersionHash) : Option RecordKind :=
  if group.recordHeld version then some (kind version) else none

def projectionAt (path : SyncPath) : Projection :=
  projectPath (group.state.headsAt path) (group.kindOf kind) (hasDescendant group.state path)

/-- What native state requires at a path, unless the path is contested. -/
def desiredPathState (path : SyncPath) : Option DesiredPathState :=
  match group.projectionAt kind path with
  | .pending _ => none
  | .absent => some .absent
  | .settled (.entry kind version _) => some (.entry kind version)
  | .settled (.directory (.explicit version)) => some (.explicitDirectory version)
  | .settled (.directory .structural) => some .structuralDirectory

/-- The version a path is about to show: none for a directory or nothing. -/
def plannedVersion (path : SyncPath) : Option VersionHash :=
  match group.projectionAt kind path with
  | .settled (.entry _ version _) => some version
  | _ => none

/-- Every path that holds a live head of `version`, in path order. -/
def nativePathsWithVersion (version : VersionHash) : List SyncPath :=
  (group.state.heads.toList.filter fun entry =>
    entry.2.toList.any fun head => head.2.version = version).map Prod.fst

/-! ## The guard -/

/-- The version a path's row shows on disk, if it shows a file or a symlink. -/
def rowVersion (path : SyncPath) : Option VersionHash :=
  (group.rows path).bind fun row =>
    if !row.deleted && kind row.version ≠ .directory && row.materialization = some .present then
      some row.version
    else none

/-- The file or symlink version of a path's last proof, whether or not its
fence has moved. -/
def proofVersion (path : SyncPath) : Option VersionHash :=
  (group.proofs path).bind fun proof =>
    if proof.objectKind = .regularFile || proof.objectKind = .symlink then proof.version else none

/-- What the disk at `path` may hold and `planned` would displace. -/
def displaced (path : SyncPath) (planned : Option VersionHash) : List VersionHash :=
  let shown := (group.rowVersion kind path).toList
  let proven := (group.proofVersion path).toList.filter fun version => version ∉ shown
  (shown ++ proven).filter fun version => planned ≠ some version

/-- Whether the row of a path says it holds `version`. -/
def rowHolds (version : VersionHash) (path : SyncPath) : Bool :=
  (group.rows path).any fun row =>
    !row.deleted && row.materialization = some .present && row.version = version

def elsewhere (path : SyncPath) (version : VersionHash) : List SyncPath :=
  (group.nativePathsWithVersion version).filter fun other => other ≠ path

/-- The paths that hold the displaced versions as well, unless one of them does
not hold its version yet. -/
def holdersOf (path : SyncPath) : List VersionHash → Option (List SyncPath)
  | [] => some []
  | version :: rest =>
    if (group.elsewhere path version).isEmpty then holdersOf path rest
    else if !(group.elsewhere path version).all (group.rowHolds version) then none
    else (holdersOf path rest).map (group.elsewhere path version ++ ·)

/-- The guard for `path`, which is about to show `planned`. -/
def displacementGuard (path : SyncPath) (planned : Option VersionHash) : DisplacementGuard :=
  match group.holdersOf path (group.displaced kind path planned) with
  | none => .wait
  | some [] => .clear
  | some holders => .guarded (ExtTreeSet.ofList holders compare).toList

/-! ## The disk check -/

/-- The proof of a path, when it was published under the live fence. -/
def lookupMaterializedGeneration (path : SyncPath) : Option DiskGenerationBasis :=
  (group.proofs path).filter fun proof =>
    group.fences path = some proof.publishedUnder &&
      (proof.objectKind = .absent || proof.objectKind = .structuralDirectory ||
        proof.version.isSome)

/-- Whether the disk still holds exactly what a proof claims. Whatever keeps
the identity from being told counts as a mismatch. -/
def revalidateIdentityAgainstDisk (path : SyncPath) (proof : DiskGenerationBasis) : Bool :=
  match proof.objectKind with
  | .absent => group.disk path = none
  | .regularFile | .symlink =>
    group.identityTold path &&
      proof.version.any fun version => group.disk path = some (.entry version)
  | .directory | .structuralDirectory =>
    group.identityTold path && group.disk path = some .directory

/-- Whether the disk already, verifiably, holds what native state requires. -/
def zeroWorkSettlementIfAlreadyCurrent (path : SyncPath) : Option SettlementEvidence := do
  let desired ← group.desiredPathState kind path
  let proof ← group.lookupMaterializedGeneration path
  if (proof.objectKind, proof.version) ≠ desired.objectKindAndVersion then none
  else if !group.linked then none
  else if !group.revalidateIdentityAgainstDisk path proof then none
  else
    match proof.objectKind with
    | .structuralDirectory => none
    | .absent => some .exactAbsent
    | .regularFile => proof.version.map (.exactObject .file)
    | .directory => proof.version.map (.exactObject .directory)
    | .symlink => proof.version.map (.exactObject .symlink)

/-- The zero-work check under native authority: only a plain entry is confirmed. -/
def nativeZeroWorkSettlement (path : SyncPath) : Option SettlementEvidence :=
  match group.desiredPathState kind path with
  | some (.entry _ _) => group.zeroWorkSettlementIfAlreadyCurrent kind path
  | _ => none

def zeroWorkSettlementForPath (path : SyncPath) : Option SettlementEvidence :=
  if group.locallyIgnored path then none
  else if (group.lookupMaterializedGeneration path).isNone then none
  else group.nativeZeroWorkSettlement kind path

/-- Whether the disk shows an exact object at a path. -/
def onDiskAt (path : SyncPath) : Bool :=
  match group.zeroWorkSettlementForPath kind path with
  | some (.exactObject _ _) => true
  | _ => false

/-- Whether `path` may give up the content its row shows, to show `planned`. -/
def displacementAllowed (path : SyncPath) (planned : Option VersionHash) : Bool :=
  match group.displacementGuard kind path planned with
  | .clear => true
  | .wait => false
  | .guarded holders => holders.all (group.onDiskAt kind) && (group.linked && group.durable)

end Guards

/-! ## What the reads say -/

section Reads

variable {kind : VersionHash → RecordKind} {group : Group} {path : SyncPath} {version : VersionHash}
  {planned : Option VersionHash}

def LiveAt (group : Group) (path : SyncPath) (version : VersionHash) : Prop :=
  ∃ head ∈ group.state.headsAt path, head.payload.version = version

theorem mem_nativePathsWithVersion :
    path ∈ group.nativePathsWithVersion version ↔ group.LiveAt path version := by
  rw [nativePathsWithVersion, mem_map]
  constructor
  · rintro ⟨⟨key, heads⟩, member, rfl⟩
    rw [mem_filter, ExtTreeMap.mem_toList_iff_getElem?_eq_some, any_eq_true] at member
    rcases member with ⟨stored, ⟨dot, payload⟩, found, same⟩
    refine ⟨⟨dot, payload⟩, ?_, of_decide_eq_true same⟩
    rw [headsAt, pathHeads, stored]
    exact mem_map.mpr ⟨(dot, payload), found, rfl⟩
  · rintro ⟨head, member, same⟩
    rw [headsAt, pathHeads] at member
    rcases mem_map.mp member with ⟨⟨dot, payload⟩, found, rfl⟩
    cases stored : group.state.heads[path]? with
    | none =>
      rw [stored, Option.getD_none] at found
      rw [ExtTreeMap.mem_toList_iff_getElem?_eq_some] at found
      cases found
    | some heads =>
      rw [stored, Option.getD_some] at found
      refine ⟨(path, heads), ?_, rfl⟩
      rw [mem_filter, ExtTreeMap.mem_toList_iff_getElem?_eq_some, any_eq_true]
      exact ⟨stored, (dot, payload), found, decide_eq_true same⟩

theorem mem_elsewhere {other : SyncPath} :
    other ∈ group.elsewhere path version ↔ group.LiveAt other version ∧ other ≠ path := by
  rw [elsewhere, mem_filter, mem_nativePathsWithVersion, decide_eq_true_eq]

theorem mem_displaced : version ∈ group.displaced kind path planned ↔
      (group.rowVersion kind path = some version ∨ group.proofVersion path = some version) ∧
        planned ≠ some version := by
  rw [displaced, mem_filter, mem_append, mem_filter, decide_eq_true_eq,
    Option.mem_toList, Option.mem_toList, decide_eq_true_eq]
  constructor
  · rintro ⟨shown | proven, other⟩
    · exact ⟨.inl shown, other⟩
    · exact ⟨.inr proven.1, other⟩
  · rintro ⟨named, other⟩
    refine ⟨?_, other⟩
    by_cases shown : group.rowVersion kind path = some version
    · exact .inl shown
    · exact .inr ⟨named.resolve_left shown, shown⟩

/-- A displaced version is missing at one of the other paths it is live at. -/
def Awaited (group : Group) (path : SyncPath) (version : VersionHash) : Prop :=
  ∃ other ∈ group.elsewhere path version, group.rowHolds version other = false

theorem holdersOf_eq_none {versions : List VersionHash} : group.holdersOf path versions = none ↔
      ∃ version ∈ versions, group.Awaited path version := by
  induction versions with
  | nil => simp [holdersOf]
  | cons version rest induction =>
    rw [holdersOf, exists_mem_cons_iff]
    split
    · rename_i nowhere
      rw [induction]
      constructor
      · exact .inr
      · rintro (⟨other, member, _⟩ | later)
        · rw [isEmpty_iff.mp nowhere] at member
          cases member
        · exact later
    · split
      · rename_i missing
        rw [Bool.not_eq_true', all_eq_false] at missing
        rcases missing with ⟨other, member, lacks⟩
        exact ⟨fun _ => .inl ⟨other, member, Bool.eq_false_iff.mpr lacks⟩, fun _ => rfl⟩
      · rename_i held
        rw [Bool.not_eq_true', Bool.not_eq_false, all_eq_true] at held
        rw [Option.map_eq_none_iff, induction]
        constructor
        · exact .inr
        · rintro (⟨other, member, lacks⟩ | later)
          · rw [held other member] at lacks
            cases lacks
          · exact later

theorem mem_of_holdersOf {versions : List VersionHash} {holders : List SyncPath}
    (found : group.holdersOf path versions = some holders) (member : version ∈ versions)
    {other : SyncPath} (lives : other ∈ group.elsewhere path version) : other ∈ holders := by
  induction versions generalizing holders with
  | nil => cases member
  | cons first rest induction =>
    rw [holdersOf] at found
    split at found
    · rename_i nowhere
      rcases mem_cons.mp member with rfl | later
      · rw [isEmpty_iff.mp nowhere] at lives
        cases lives
      · exact induction found later
    · split at found
      · cases found
      · rcases Option.map_eq_some_iff.mp found with ⟨others, rest, rfl⟩
        rcases mem_cons.mp member with rfl | later
        · exact mem_append_left _ lives
        · exact mem_append_right _ (induction rest later)

theorem displacementGuard_eq_wait : group.displacementGuard kind path planned = .wait ↔
      ∃ version ∈ group.displaced kind path planned, group.Awaited path version := by
  rw [← holdersOf_eq_none, displacementGuard]
  split
  · rename_i waits
    exact ⟨fun _ => waits, fun _ => rfl⟩
  · rename_i none
    simp [none]
  · rename_i holders _ found
    simp [found]

/-- Where the guard allows it, every other path a displaced version is live at
shows an exact object. -/
theorem onDiskAt_of_displacementAllowed
    (allowed : group.displacementAllowed kind path planned = true)
    (gone : version ∈ group.displaced kind path planned) {other : SyncPath}
    (lives : other ∈ group.elsewhere path version) : group.onDiskAt kind other = true := by
  rw [displacementAllowed, displacementGuard] at allowed
  cases found : group.holdersOf path (group.displaced kind path planned) with
  | none =>
    rw [found] at allowed
    cases allowed
  | some holders =>
    have holder := mem_of_holdersOf found gone lives
    rw [found] at allowed
    cases holders with
    | nil => cases holder
    | cons first rest =>
      dsimp only at allowed
      rw [Bool.and_eq_true, all_eq_true] at allowed
      apply allowed.1
      rw [ExtTreeSet.mem_toList, ExtTreeSet.mem_ofList]
      exact contains_iff_mem.mpr holder

theorem projectionAt_of_desired {entryKind : RecordKind}
    (desired : group.desiredPathState kind path = some (.entry entryKind version)) :
    ∃ representative, group.projectionAt kind path =
      .settled (.entry entryKind version representative) := by
  rw [desiredPathState] at desired
  split at desired
  · cases desired
  · cases desired
  · rename_i representative projected
    cases desired
    exact ⟨representative, projected⟩
  · cases desired
  · cases desired

theorem disk_of_revalidated {proof : DiskGenerationBasis} {entryKind : RecordKind}
    (fileLike : entryKind ≠ .directory) (proves : (proof.objectKind, proof.version) =
      (DesiredPathState.entry entryKind version).objectKindAndVersion)
    (confirmed : group.revalidateIdentityAgainstDisk path proof = true) :
    group.disk path = some (.entry version) := by
  rcases Prod.mk.inj proves with ⟨sameKind, sameVersion⟩
  rw [revalidateIdentityAgainstDisk, sameKind, sameVersion] at confirmed
  cases entryKind with
  | directory => exact absurd rfl fileLike
  | file | symlink =>
    simp only [mapRecordKind, Bool.and_eq_true, Option.any_some, decide_eq_true_eq]
      at confirmed
    exact confirmed.2

theorem disk_of_onDiskAt (shown : group.onDiskAt kind path = true) :
    ∃ entryKind version representative,
      group.projectionAt kind path = .settled (.entry entryKind version representative) ∧
        group.disk path = some (.entry version) := by
  rw [onDiskAt, zeroWorkSettlementForPath] at shown
  split at shown
  · rename_i evidence
    split at evidence
    · cases evidence
    · split at evidence
      · cases evidence
      · rw [nativeZeroWorkSettlement] at evidence
        split at evidence
        · rename_i entryKind version desired
          rcases projectionAt_of_desired desired with ⟨representative, projected⟩
          refine ⟨entryKind, version, representative, projected, ?_⟩
          rw [zeroWorkSettlementIfAlreadyCurrent, desired] at evidence
          rcases Option.bind_eq_some_iff.mp evidence with ⟨_, same, evidence⟩
          cases same
          rcases Option.bind_eq_some_iff.mp evidence with ⟨proof, _, evidence⟩
          split at evidence
          · cases evidence
          · rename_i proves
            split at evidence
            · cases evidence
            · split at evidence
              · cases evidence
              · rename_i confirmed
                apply disk_of_revalidated (projectPath_entry projected).2.1 (not_not.mp proves)
                simpa using confirmed
        · cases evidence
  · cases shown

end Reads

end Group

end Yadorilink
