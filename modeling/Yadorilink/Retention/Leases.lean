import Yadorilink.Domain.FileVersion
import Yadorilink.Foundation.Machine

/-! Handoff leases against the retention sweep. A lease pins the versions of a group in one
transaction; a sweep reads the pins in one transaction and deletes in another. -/

namespace Yadorilink.Retention

open Machine List

/-! ## The rows -/

inductive VersionState where
  | current
  | superseded
  | trashed
  deriving DecidableEq, Repr

/-- A row of `files`, as far as leases and the sweep look at it. -/
structure FileRow where
  groupId : String
  path : String
  versionSeq : Int
  state : VersionState
  deleted : Bool
  recordKind : RecordKind
  mtimeUnixNanos : Int
  deriving DecidableEq

abbrev PinnedVersion := String × Int

def FileRow.key (row : FileRow) : PinnedVersion := (row.path, row.versionSeq)

inductive HandoffLeaseState where
  | provisional
  | confirmed
  | released
  | expired
  deriving DecidableEq, Repr

def HandoffLeaseState.active : HandoffLeaseState → Bool
  | .provisional => true
  | .confirmed => true
  | .released => false
  | .expired => false

structure HandoffLease where
  leaseId : String
  groupId : String
  state : HandoffLeaseState
  pinnedVersions : List PinnedVersion
  createdAtUnix : Int
  expiresAtUnix : Int
  deriving DecidableEq, Repr

/-! ## Clocks -/

/-- A sum of signed 64-bit integers, kept in range. -/
def saturatingAdd (first second : Int) : Int :=
  max (-2 ^ 63) (min (2 ^ 63 - 1) (first + second))

def saturatingSub (first second : Int) : Int :=
  max (-2 ^ 63) (min (2 ^ 63 - 1) (first - second))

def pinSafetyMarginSecs : Int := 60

/-- This device's own deadline for a pin; a TTL that is not positive gives none. -/
def computePinDeadline (createdAtUnix ttlSeconds : Int) : Except String Int :=
  if ttlSeconds ≤ 0 then
    .error ("handoff lease ttl_seconds must be positive, got " ++ toString ttlSeconds)
  else .ok (saturatingAdd (saturatingAdd createdAtUnix ttlSeconds) pinSafetyMarginSecs)

def retentionMaxVersions : Nat := 10

def retentionMaxAgeDays : Int := 30

def nanosPerDay : Int := 86400 * 1000000000

/-- The sweep's clock in the unit of the leases' deadlines. -/
def unixSeconds (nowUnixNanos : Int) : Int := nowUnixNanos.tdiv 1000000000

/-! ## Leases -/

/-- The rows a lease pins: every file version that can still be current or restored. -/
def durabilityRootVersions (files : List FileRow) (groupId : String) : List PinnedVersion :=
  ((files.filter fun row =>
    row.groupId = groupId ∧ row.deleted = false ∧ row.recordKind = .file).map FileRow.key)

/-- Inserting a lease, or replacing the one of the same id. -/
def putLease (leases : List HandoffLease) (lease : HandoffLease) : List HandoffLease :=
  lease :: leases.filter fun other => other.leaseId ≠ lease.leaseId

/-- The lease counts for a sweep of the group at that time. -/
def HandoffLease.pins (lease : HandoffLease) (groupId : String) (nowUnixSeconds : Int) : Bool :=
  lease.groupId = groupId && lease.state.active && decide (nowUnixSeconds < lease.expiresAtUnix)

def leasedVersionKeysForGroup (leases : List HandoffLease) (groupId : String)
    (nowUnixSeconds : Int) : List PinnedVersion :=
  (leases.filter fun lease => lease.pins groupId nowUnixSeconds).flatMap (·.pinnedVersions)

/-! ## The sweep -/

def FileRow.past (row : FileRow) : Bool :=
  row.state = .superseded || row.state = .trashed

/-- A past row's rank among the past rows of its path, the newest first. -/
def retentionRank (files : List FileRow) (row : FileRow) : Nat :=
  (files.countP fun other => other.groupId = row.groupId && other.past &&
    other.path = row.path && decide (row.versionSeq < other.versionSeq)) + 1

/-- The row is beyond both the count bound and the age bound. -/
def beyondBounds (files : List FileRow) (nowUnixNanos : Int) (row : FileRow) : Bool :=
  row.past && decide (retentionMaxVersions < retentionRank files row) &&
    decide (row.mtimeUnixNanos < saturatingSub nowUnixNanos (retentionMaxAgeDays * nanosPerDay))

def expiredVersions (files : List FileRow) (groupId : String) (nowUnixNanos : Int)
    (pinned : List PinnedVersion) : List PinnedVersion :=
  ((files.filter fun row => row.groupId = groupId && beyondBounds files nowUnixNanos row).map
    FileRow.key).filter fun key => key ∉ pinned

def expireSupersededAndTrashedVersions (files : List FileRow) (groupId : String)
    (nowUnixNanos : Int) (pinned : List PinnedVersion) : List FileRow :=
  files.filter fun row =>
    !(row.groupId = groupId && row.key ∈ expiredVersions files groupId nowUnixNanos pinned)

/-! ## Interleavings -/

/-- A sweep between its two transactions: it has read the pins and not deleted yet. -/
structure Pass where
  groupId : String
  nowUnixNanos : Int
  pinned : List PinnedVersion
  deriving DecidableEq, Repr

def startPass (leases : List HandoffLease) (groupId : String) (nowUnixNanos : Int) : Pass :=
  { groupId := groupId
    nowUnixNanos := nowUnixNanos
    pinned := leasedVersionKeysForGroup leases groupId (unixSeconds nowUnixNanos) }

structure Database where
  files : List FileRow
  leases : List HandoffLease
  passes : List Pass
  deriving DecidableEq

/-- One transaction. `write` stands for any other transaction on `files`. -/
inductive Event where
  | record (groupId leaseId : String) (createdAtUnix ttlSeconds : Int)
  | setState (leaseId : String) (state : HandoffLeaseState)
  | readPins (groupId : String) (nowUnixNanos : Int)
  | delete (pass : Pass)
  | write (files : List FileRow)

/-- Enumerates the group's versions and pins exactly those, in one transaction. -/
def recordHandoffLeaseAtomic (database : Database) (groupId leaseId : String)
    (createdAtUnix ttlSeconds : Int) : Except String (Database × List PinnedVersion) := do
  let expiresAtUnix ← computePinDeadline createdAtUnix ttlSeconds
  let pinnedVersions := durabilityRootVersions database.files groupId
  .ok ({ database with
    leases := putLease database.leases
      { leaseId := leaseId, groupId := groupId, state := .provisional,
        pinnedVersions := pinnedVersions, createdAtUnix := createdAtUnix,
        expiresAtUnix := expiresAtUnix } }, pinnedVersions)

def setHandoffLeaseState (leases : List HandoffLease) (leaseId : String)
    (state : HandoffLeaseState) : List HandoffLease :=
  leases.map fun lease => if lease.leaseId = leaseId then { lease with state := state } else lease

def step (database : Database) : Event → Option Database
  | .record groupId leaseId createdAtUnix ttlSeconds =>
    match recordHandoffLeaseAtomic database groupId leaseId createdAtUnix ttlSeconds with
    | .ok (recorded, _) => some recorded
    | .error _ => some database
  | .setState leaseId state =>
    some { database with leases := setHandoffLeaseState database.leases leaseId state }
  | .readPins groupId nowUnixNanos =>
    some { database with
      passes := startPass database.leases groupId nowUnixNanos :: database.passes }
  | .delete pass =>
    if pass ∈ database.passes then
      some { database with
        files := expireSupersededAndTrashedVersions database.files pass.groupId
          pass.nowUnixNanos pass.pinned
        passes := database.passes.erase pass }
    else none
  | .write files => some { database with files := files }

/-- No lease of a group starts to pin while a sweep of the group is between its two
transactions. -/
def Undisturbed (database : Database) : Event → Prop
  | .record groupId _ _ _ => ∀ pass ∈ database.passes, pass.groupId ≠ groupId
  | .setState leaseId state =>
    state.active = true → ∀ lease ∈ database.leases, lease.leaseId = leaseId →
      lease.state.active = true ∨ ∀ pass ∈ database.passes, pass.groupId ≠ lease.groupId
  | _ => True

/-! ## Pins hold -/

/-- Every sweep in flight has read the pins of the leases that count for it. -/
def PinsRead (database : Database) : Prop :=
  ∀ pass ∈ database.passes, ∀ lease ∈ database.leases,
    lease.pins pass.groupId (unixSeconds pass.nowUnixNanos) = true →
      lease.pinnedVersions ⊆ pass.pinned

theorem HandoffLease.pins_iff {lease : HandoffLease} {groupId : String} {now : Int} :
    lease.pins groupId now = true ↔
      lease.groupId = groupId ∧ lease.state.active = true ∧ now < lease.expiresAtUnix := by
  rw [pins, Bool.and_eq_true, Bool.and_eq_true, decide_eq_true_iff, decide_eq_true_iff, and_assoc]

theorem pinsRead_step {database next : Database} {event : Event} (read : PinsRead database)
    (undisturbed : Undisturbed database event) (made : step database event = some next) :
    PinsRead next := by
  cases event with
  | record groupId leaseId createdAtUnix ttlSeconds =>
    rw [step, recordHandoffLeaseAtomic] at made
    cases deadline : computePinDeadline createdAtUnix ttlSeconds with
    | error reason =>
      rw [deadline] at made
      cases made
      exact read
    | ok expiresAtUnix =>
      rw [deadline] at made
      cases made
      intro pass inFlight lease recorded counts
      rcases mem_cons.mp recorded with new | old
      · have sameGroup := (HandoffLease.pins_iff.mp counts).1
        rw [new] at sameGroup
        exact absurd sameGroup.symm (undisturbed pass inFlight)
      · exact read pass inFlight lease (mem_filter.mp old).1 counts
  | setState leaseId state =>
    cases made
    intro pass inFlight lease set counts
    obtain ⟨before, member, becomes⟩ := mem_map.mp set
    split at becomes
    · rename_i named
      rw [← becomes] at counts ⊢
      obtain ⟨sameGroup, active, current⟩ := HandoffLease.pins_iff.mp counts
      rcases undisturbed active before member named with already | alone
      · exact read pass inFlight before member
          (HandoffLease.pins_iff.mpr ⟨sameGroup, already, current⟩)
      · exact absurd sameGroup.symm (alone pass inFlight)
    · rw [← becomes] at counts ⊢
      exact read pass inFlight before member counts
  | readPins groupId nowUnixNanos =>
    cases made
    intro pass inFlight lease member counts
    rcases mem_cons.mp inFlight with new | old
    · rw [new] at counts ⊢
      intro key pinned
      exact mem_flatMap.mpr ⟨lease, mem_filter.mpr ⟨member, counts⟩, pinned⟩
    · exact read pass old lease member counts
  | delete pass =>
    rw [step] at made
    split at made
    · cases made
      intro other inFlight
      exact read other (mem_of_mem_erase inFlight)
    · cases made
  | write files =>
    cases made
    exact read

theorem step_delete {database : Database} {pass : Pass} (inFlight : pass ∈ database.passes) :
    step database (.delete pass) = some { database with
      files := expireSupersededAndTrashedVersions database.files pass.groupId pass.nowUnixNanos
        pass.pinned
      passes := database.passes.erase pass } :=
  if_pos inFlight

theorem mem_expire_of_pinned {files : List FileRow} {groupId : String} {nowUnixNanos : Int}
    {pinned : List PinnedVersion} {row : FileRow} (present : row ∈ files)
    (kept : row.key ∈ pinned) :
    row ∈ expireSupersededAndTrashedVersions files groupId nowUnixNanos pinned := by
  apply mem_filter.mpr
  refine ⟨present, ?_⟩
  have spared : row.key ∉ expiredVersions files groupId nowUnixNanos pinned := by
    intro expired
    have unpinned := (mem_filter.mp expired).2
    rw [decide_eq_true_iff] at unpinned
    exact unpinned kept
  simp [spared]

/-- Leased versions survive retention: as long as no lease of a group starts to pin between the
two transactions of a sweep of that group, the delete transaction of a sweep leaves every row
that a lease pins which is active and not past its deadline by the sweep's own clock. -/
theorem leased_versions_survive (database last next : Database) (events : List Event)
    (idle : database.passes = []) (ran : run step database events = some last)
    (undisturbed : Along step Undisturbed database events) (pass : Pass)
    (deleted : step last (.delete pass) = some next) :
    ∀ lease ∈ last.leases, lease.pins pass.groupId (unixSeconds pass.nowUnixNanos) = true →
      ∀ row ∈ last.files, row.groupId = lease.groupId → row.key ∈ lease.pinnedVersions →
        row ∈ next.files := by
  intro lease member counts row present _ pinned
  have read : PinsRead last := by
    apply invariant_run (fun _ _ _ holds allowed made => pinsRead_step holds allowed made) _
      undisturbed ran
    intro other inStart
    rw [idle] at inStart
    cases inStart
  rw [step] at deleted
  split at deleted
  · rename_i inFlight
    cases deleted
    exact mem_expire_of_pinned present (read pass inFlight lease member counts pinned)
  · cases deleted

/-! One path with eleven superseded versions, all older than the age bound. -/

namespace Sample

def day : Int := nanosPerDay

def row (versionSeq : Int) : FileRow :=
  { groupId := "g", path := "a", versionSeq := versionSeq, state := .superseded,
    deleted := false, recordKind := .file, mtimeUnixNanos := 0 }

def database : Database :=
  { files := (List.range 11).map fun (index : Nat) => row (index + 1), leases := [], passes := [] }

def now : Int := 40 * day

def grant : Event := .record "g" "lease" (unixSeconds now) 10

def pass : Pass := startPass [] "g" now

def pinnedPass : Pass :=
  { groupId := "g", nowUnixNanos := now,
    pinned := (List.range 11).map fun (index : Nat) => ("a", (index : Int) + 1) }

end Sample

instance Undisturbed.decidable (database : Database) :
    (event : Event) → Decidable (Undisturbed database event)
  | .record groupId _ _ _ =>
    inferInstanceAs (Decidable (∀ pass ∈ database.passes, pass.groupId ≠ groupId))
  | .setState leaseId state =>
    inferInstanceAs (Decidable (state.active = true → ∀ lease ∈ database.leases,
      lease.leaseId = leaseId →
        lease.state.active = true ∨ ∀ pass ∈ database.passes, pass.groupId ≠ lease.groupId))
  | .readPins _ _ => .isTrue trivial
  | .delete _ => .isTrue trivial
  | .write _ => .isTrue trivial

open Sample in
theorem leased_versions_survive_oldest :
    ∃ last next, run step Sample.database [grant, .readPins "g" now] = some last ∧
      step last (.delete pinnedPass) = some next ∧ row 1 ∈ next.files := by
  refine ⟨_, _, rfl, step_delete (by decide), ?_⟩
  exact leased_versions_survive Sample.database _ _ [grant, .readPins "g" now] rfl rfl
    (by decide) pinnedPass (step_delete (by decide)) _ List.mem_cons_self
    (by decide) (row 1) (by decide) rfl (by decide)

/-- The lease is recorded after the sweep has read the pins: the sweep deletes a version the
lease has just returned as pinned. -/
theorem lease_between_read_and_delete_ignored :
    ¬∀ (database last next : Database) (events : List Event), database.passes = [] →
      run step database events = some last → ∀ pass : Pass,
      step last (.delete pass) = some next →
      ∀ lease ∈ last.leases, lease.pins pass.groupId (unixSeconds pass.nowUnixNanos) = true →
      ∀ row ∈ last.files, row.groupId = lease.groupId → row.key ∈ lease.pinnedVersions →
        row ∈ next.files := by
  intro always
  have kept := always Sample.database _ _ [.readPins "g" Sample.now, Sample.grant] rfl rfl
    Sample.pass (step_delete (by decide)) _ List.mem_cons_self (by decide)
    (Sample.row 1) (by decide) rfl (by decide)
  exact absurd kept (by decide)

end Yadorilink.Retention
