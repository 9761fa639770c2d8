import Yadorilink.Foundation.RankedWindow
import Yadorilink.Projection.Obligations
import Yadorilink.Store.Tables

/-! The claim of runnable obligations. Each group's first runnable rows are found by one of three
access paths, chosen by how many of the group's rows are due and where they lie; the claim takes
the first of all of them. -/

namespace Yadorilink.Obligations

open RankedWindow List

/-! ## The tables a claim reads -/

structure ObligationRow where
  groupId : FolderGroupId
  path : SyncPath
  obligation : ProjectionObligation
  deriving DecidableEq

def ObligationRow.primaryKey (row : ObligationRow) : FolderGroupId × SyncPath :=
  (row.groupId, row.path)

structure ClaimTables where
  obligations : List ObligationRow
  unique : (obligations.map ObligationRow.primaryKey).Nodup
  pausedItems : List (FolderGroupId × SyncPath)
  heldPaths : List (FolderGroupId × SyncPath)
  rebootstraps : List (FolderGroupId × JournalState)
  /-- The groups of the provider's roots; `none` where the tables do not exist. -/
  providerRoots : Option (List FolderGroupId)

structure ClaimedObligation where
  groupId : FolderGroupId
  path : SyncPath
  invalidationGeneration : Nat
  obligationIncarnation : Nat
  attemptCount : Nat
  deriving DecidableEq

def ObligationRow.claimed (row : ObligationRow) : ClaimedObligation :=
  ⟨row.groupId, row.path, row.obligation.invalidationGeneration,
    row.obligation.obligationIncarnation, row.obligation.attemptCount⟩

/-! ## Orders -/

def groupKey (row : ObligationRow) : Int ×ₗ SyncPath :=
  toLex (row.obligation.updatedAt, row.path)

def claimKey (row : ObligationRow) : Int ×ₗ SyncPath ×ₗ FolderGroupId :=
  toLex (row.obligation.updatedAt, toLex (row.path, row.groupId))

/-- The order of the index that leads with the time of the next attempt. -/
def dueKey (row : ObligationRow) : Int ×ₗ Int ×ₗ SyncPath :=
  toLex (row.obligation.nextAttemptAt, toLex (row.obligation.updatedAt, row.path))

/-! ## Filters -/

namespace ClaimTables

/-- A paused item covers itself and what lies beneath it, and the empty one everything. -/
def coversPath (item path : SyncPath) : Bool :=
  item == "" || path == item ||
    path.toList.take (item.toList.length + 1) == item.toList ++ ['/']

def isPaused (tables : ClaimTables) (row : ObligationRow) : Bool :=
  tables.pausedItems.any fun item => item.1 == row.groupId && coversPath item.2 row.path

def isHeld (tables : ClaimTables) (row : ObligationRow) : Bool :=
  tables.heldPaths.any fun held => held.1 == row.groupId && held.2 == row.path

/-- The states in which a rebootstrap freezes its group. -/
def freezes : JournalState → Bool
  | .capturing => true
  | .preserving => true
  | .preserved => true
  | .quarantining => true
  | .catchingUp => true
  | .replaying => true
  | .planning => false
  | .blocked => false
  | .unknown _ => false

def groupFrozen (tables : ClaimTables) (groupId : FolderGroupId) : Bool :=
  tables.rebootstraps.any fun journal => journal.1 == groupId && freezes journal.2

def isProviderGroup (tables : ClaimTables) (groupId : FolderGroupId) : Bool :=
  tables.providerRoots.any fun roots => roots.contains groupId

def isPending (row : ObligationRow) : Bool :=
  row.obligation.state == .pending

def isDue (nowUnixNanos : Int) (row : ObligationRow) : Bool :=
  decide (row.obligation.nextAttemptAt ≤ nowUnixNanos)

def passesFilters (tables : ClaimTables) (row : ObligationRow) : Bool :=
  !tables.isPaused row && !tables.isHeld row

def pendingRows (tables : ClaimTables) (groupId : FolderGroupId) : List ObligationRow :=
  tables.obligations.filter fun row => isPending row && row.groupId == groupId

def runnableRows (tables : ClaimTables) (nowUnixNanos : Int) (groupId : FolderGroupId) :
    List ObligationRow :=
  (tables.pendingRows groupId).filter fun row =>
    isDue nowUnixNanos row && tables.passesFilters row

/-! ## The claim -/

/-- The first group after another one that has a pending row. -/
def nextPendingGroup (tables : ClaimTables) (after : Option FolderGroupId) :
    Option FolderGroupId :=
  (firstRanked id 1 (((tables.obligations.filter isPending).map ObligationRow.groupId).filter
    fun groupId => after.all fun last => decide (last < groupId))).head?

/-- Seeks from one group to the next. There are no more groups than rows. -/
def pendingGroupIdsFrom (tables : ClaimTables) : Nat → Option FolderGroupId → List FolderGroupId
  | 0, _ => []
  | _ + 1, none => []
  | turns + 1, some groupId =>
    groupId :: pendingGroupIdsFrom tables turns (tables.nextPendingGroup (some groupId))

def pendingGroupIds (tables : ClaimTables) : List FolderGroupId :=
  tables.pendingGroupIdsFrom tables.obligations.length (tables.nextPendingGroup none)

def dueProbeRows : Nat := 128

def walkRows : Nat := 1024

/-- The runnable rows in the order of the due index. -/
def dueScan (tables : ClaimTables) (nowUnixNanos : Int) (groupId : FolderGroupId) :
    List ObligationRow :=
  ranked dueKey (tables.runnableRows nowUnixNanos groupId)

/-- One group's first runnable rows: from a probe of the due rows if these are few, else from a
walk of the rows in claim order if it does not pass too many, else from all the due rows. -/
def groupWindow (tables : ClaimTables) (nowUnixNanos : Int) (limit : Nat)
    (groupId : FolderGroupId) : List ObligationRow :=
  let due := (tables.dueScan nowUnixNanos groupId).take (dueProbeRows + 1)
  if due.length ≤ dueProbeRows then
    firstRanked claimKey limit due
  else
    let walked := walk (fun row => isDue nowUnixNanos row && tables.passesFilters row) limit
      walkRows (ranked groupKey (tables.pendingRows groupId)) 0 []
    if walked.2 then
      walked.1
    else
      (tables.dueScan nowUnixNanos groupId).foldl (pushBounded groupKey limit) []

def claimRunnableObligations (tables : ClaimTables) (nowUnixNanos : Int)
    (perGroupLimit totalLimit : Nat) : List ClaimedObligation :=
  if totalLimit = 0 ∨ perGroupLimit = 0 then
    []
  else
    let candidates := (tables.pendingGroupIds.filter fun groupId =>
      !tables.groupFrozen groupId && !tables.isProviderGroup groupId).flatMap
        (tables.groupWindow nowUnixNanos perGroupLimit)
    (firstRanked claimKey totalLimit candidates).map ObligationRow.claimed

/-! ## What a claim is -/

/-- The groups of the table that are neither frozen nor the provider's. -/
def openGroups (tables : ClaimTables) : List FolderGroupId :=
  (tables.obligations.map ObligationRow.groupId).dedup.filter fun groupId =>
    !tables.groupFrozen groupId && !tables.isProviderGroup groupId

/-- The first rows of the union of the open groups' first runnable rows. -/
def rankedWindow (tables : ClaimTables) (nowUnixNanos : Int) (perGroupLimit totalLimit : Nat) :
    List ObligationRow :=
  firstRanked claimKey totalLimit (tables.openGroups.flatMap fun groupId =>
    firstRanked groupKey perGroupLimit (tables.runnableRows nowUnixNanos groupId))

/-! ## Keys -/

variable {tables : ClaimTables} {nowUnixNanos : Int} {groupId : FolderGroupId} {row : ObligationRow}
  {after : Option FolderGroupId}

theorem eq_of_primaryKey {first second : ObligationRow} (inFirst : first ∈ tables.obligations)
    (inSecond : second ∈ tables.obligations) (group : first.groupId = second.groupId)
    (path : first.path = second.path) : first = second :=
  inj_on_of_nodup_map tables.unique inFirst inSecond (Prod.ext group path)

theorem mem_pendingRows : row ∈ tables.pendingRows groupId ↔
      row ∈ tables.obligations ∧ isPending row = true ∧ row.groupId = groupId := by
  rw [pendingRows, mem_filter, Bool.and_eq_true, beq_iff_eq]

theorem mem_pendingRows_of_mem_runnableRows
    (member : row ∈ tables.runnableRows nowUnixNanos groupId) : row ∈ tables.pendingRows groupId :=
  (mem_filter.mp member).1

theorem distinct_pendingRows (tables : ClaimTables) (groupId : FolderGroupId) :
    Distinct groupKey (tables.pendingRows groupId) := by
  intro first inFirst second inSecond same
  rcases mem_pendingRows.mp inFirst with ⟨listedFirst, -, groupFirst⟩
  rcases mem_pendingRows.mp inSecond with ⟨listedSecond, -, groupSecond⟩
  have keys := congrArg ofLex same
  exact eq_of_primaryKey listedFirst listedSecond (groupFirst.trans groupSecond.symm)
    (congrArg Prod.snd keys)

theorem distinct_runnableRows (tables : ClaimTables) (nowUnixNanos : Int)
    (groupId : FolderGroupId) : Distinct groupKey (tables.runnableRows nowUnixNanos groupId) :=
  (distinct_pendingRows tables groupId).filter _

theorem distinct_claimKey {rows : List ObligationRow}
    (listed : ∀ row ∈ rows, row ∈ tables.obligations) : Distinct claimKey rows := by
  intro first inFirst second inSecond same
  have keys := congrArg Prod.snd (congrArg ofLex same)
  have names := congrArg ofLex keys
  exact eq_of_primaryKey (listed first inFirst) (listed second inSecond)
    (congrArg Prod.snd names) (congrArg Prod.fst names)

theorem groupKey_le_of_claimKey_le {first second : ObligationRow}
    (below : claimKey first ≤ claimKey second) : groupKey first ≤ groupKey second := by
  rcases Prod.Lex.le_iff.mp below with earlier | ⟨sameTime, names⟩
  · exact Prod.Lex.le_iff.mpr (.inl earlier)
  · apply Prod.Lex.le_iff.mpr
    refine .inr ⟨sameTime, ?_⟩
    rcases Prod.Lex.le_iff.mp names with path | ⟨samePath, -⟩
    · exact path.le
    · exact samePath.le

/-! ## The three access paths -/

theorem dueScan_perm (tables : ClaimTables) (nowUnixNanos : Int) (groupId : FolderGroupId) :
    (tables.dueScan nowUnixNanos groupId).Perm (tables.runnableRows nowUnixNanos groupId) :=
  ranked_perm_self _

theorem probe_window (limit : Nat) (few : ((tables.dueScan nowUnixNanos groupId).take
      (dueProbeRows + 1)).length ≤ dueProbeRows) :
    firstRanked claimKey limit ((tables.dueScan nowUnixNanos groupId).take (dueProbeRows + 1)) =
      firstRanked groupKey limit (tables.runnableRows nowUnixNanos groupId) := by
  have all : (tables.dueScan nowUnixNanos groupId).take (dueProbeRows + 1) =
      tables.dueScan nowUnixNanos groupId := by
    apply take_of_length_le
    rw [length_take] at few
    omega
  have sorted : ranked claimKey (tables.dueScan nowUnixNanos groupId) =
      ranked groupKey (tables.runnableRows nowUnixNanos groupId) := by
    apply eq_ranked (distinct_runnableRows tables nowUnixNanos groupId)
    · exact (ranked_perm_self _).trans (dueScan_perm tables nowUnixNanos groupId)
    · apply List.Pairwise.imp _ (pairwise_ranked _)
      exact fun below => groupKey_le_of_claimKey_le below
  rw [all, firstRanked, firstRanked, sorted]

theorem walk_window {limit : Nat} (some : 0 < limit)
    (complete : (walk (fun row => isDue nowUnixNanos row && tables.passesFilters row) limit
      walkRows (ranked groupKey (tables.pendingRows groupId)) 0 []).2 = true) :
    (walk (fun row => isDue nowUnixNanos row && tables.passesFilters row) limit walkRows
        (ranked groupKey (tables.pendingRows groupId)) 0 []).1 =
      firstRanked groupKey limit (tables.runnableRows nowUnixNanos groupId) := by
  apply (walk_complete some (Prod.ext rfl complete)).trans
  rw [nil_append, length_nil, Nat.sub_zero,
    ranked_filter (distinct_pendingRows tables groupId)]
  rfl

theorem heap_window (limit : Nat) :
    (tables.dueScan nowUnixNanos groupId).foldl (pushBounded groupKey limit) [] =
      firstRanked groupKey limit (tables.runnableRows nowUnixNanos groupId) := by
  have distinct : Distinct groupKey (tables.dueScan nowUnixNanos groupId) := by
    intro first inFirst second inSecond
    exact distinct_runnableRows tables nowUnixNanos groupId first (mem_ranked.mp inFirst) second
      (mem_ranked.mp inSecond)
  rw [foldl_pushBounded distinct]
  exact firstRanked_perm distinct (dueScan_perm tables nowUnixNanos groupId) limit

theorem groupWindow_eq {limit : Nat} (some : 0 < limit) (groupId : FolderGroupId) :
    tables.groupWindow nowUnixNanos limit groupId =
      firstRanked groupKey limit (tables.runnableRows nowUnixNanos groupId) := by
  rw [groupWindow]
  dsimp only
  split
  · rename_i few
    exact probe_window limit few
  · split
    · rename_i complete
      exact walk_window some complete
    · exact heap_window limit

/-! ## The groups -/

/-- The groups of the pending rows, one for each row. -/
def pendingGroups (tables : ClaimTables) : List FolderGroupId :=
  (tables.obligations.filter isPending).map ObligationRow.groupId

theorem all_lt_iff {name : FolderGroupId} : (after.all fun last => decide (last < name)) = true ↔
      ∀ last, after = some last → last < name := by
  cases after with
  | none => simp
  | some last => simp

theorem nextPendingGroup_eq_some {next : FolderGroupId}
    (found : tables.nextPendingGroup after = some next) :
    next ∈ tables.pendingGroups ∧ (∀ last, after = some last → last < next) ∧
      ∀ other ∈ tables.pendingGroups, (∀ last, after = some last → last < other) →
        next ≤ other := by
  rcases head?_firstRanked_eq_some found with ⟨member, least⟩
  rcases mem_filter.mp member with ⟨inGroups, beyond⟩
  refine ⟨inGroups, all_lt_iff.mp beyond, fun other listed further => ?_⟩
  exact least other (mem_filter.mpr ⟨listed, all_lt_iff.mpr further⟩)

theorem nextPendingGroup_eq_none (nothing : tables.nextPendingGroup after = none)
    {other : FolderGroupId} (listed : other ∈ tables.pendingGroups) :
    ¬ ∀ last, after = some last → last < other := by
  intro further
  have member : other ∈ tables.pendingGroups.filter fun groupId =>
      after.all fun last => decide (last < groupId) :=
    mem_filter.mpr ⟨listed, all_lt_iff.mpr further⟩
  rw [pendingGroups, head?_firstRanked_eq_none nothing] at member
  cases member

theorem length_filter_lt {groups : List FolderGroupId} {first next : FolderGroupId}
    (inGroups : first ∈ groups) (later : first < next) :
    (groups.filter fun name => decide (next ≤ name)).length <
      (groups.filter fun name => decide (first ≤ name)).length := by
  have nested : (groups.filter fun name => decide (first ≤ name)).filter
      (fun name => decide (next ≤ name)) = groups.filter fun name => decide (next ≤ name) := by
    rw [filter_filter]
    apply filter_congr
    intro name _
    by_cases above : next ≤ name
    · simp [above, later.le.trans above]
    · simp [above]
  rw [← nested, length_filter_lt_length_iff_exists]
  refine ⟨first, mem_filter.mpr ⟨inGroups, decide_eq_true le_rfl⟩, ?_⟩
  simpa using later

theorem pendingGroupIdsFrom_some {turns : Nat} {first : FolderGroupId}
    (inGroups : first ∈ tables.pendingGroups)
    (enough : (tables.pendingGroups.filter fun name => decide (first ≤ name)).length ≤ turns) :
    (tables.pendingGroupIdsFrom turns (some first)).Pairwise (· < ·) ∧
      ∀ name, name ∈ tables.pendingGroupIdsFrom turns (some first) ↔
        name ∈ tables.pendingGroups ∧ first ≤ name := by
  induction turns generalizing first with
  | zero =>
    have here : first ∈ tables.pendingGroups.filter fun name => decide (first ≤ name) :=
      mem_filter.mpr ⟨inGroups, decide_eq_true le_rfl⟩
    rw [length_eq_zero_iff.mp (Nat.le_zero.mp enough)] at here
    cases here
  | succ turns induction =>
    rw [pendingGroupIdsFrom]
    cases sought : tables.nextPendingGroup (some first) with
    | none =>
      have last : pendingGroupIdsFrom tables turns none = [] := by
        cases turns with
        | zero => rfl
        | succ turns => rfl
      rw [last]
      refine ⟨pairwise_singleton .., fun name => ?_⟩
      rw [mem_singleton]
      constructor
      · rintro rfl
        exact ⟨inGroups, le_rfl⟩
      · rintro ⟨listed, above⟩
        by_contra other
        apply nextPendingGroup_eq_none sought listed
        intro last same
        cases same
        exact lt_of_le_of_ne above fun same => other same.symm
    | some next =>
      rcases nextPendingGroup_eq_some sought with ⟨nextListed, later, least⟩
      have beyond : first < next := later first rfl
      have fewer := length_filter_lt inGroups beyond
      rcases induction nextListed (by omega) with ⟨ordered, members⟩
      constructor
      · rw [pairwise_cons]
        refine ⟨fun name member => ?_, ordered⟩
        exact lt_of_lt_of_le beyond ((members name).mp member).2
      · intro name
        rw [mem_cons, members]
        constructor
        · rintro (rfl | ⟨listed, above⟩)
          · exact ⟨inGroups, le_rfl⟩
          · exact ⟨listed, beyond.le.trans above⟩
        · rintro ⟨listed, above⟩
          rcases above.eq_or_lt with same | further
          · exact .inl same.symm
          · refine .inr ⟨listed, least name listed fun last same => ?_⟩
            cases same
            exact further

theorem pendingGroupIds_spec (tables : ClaimTables) : tables.pendingGroupIds.Nodup ∧
      ∀ name, name ∈ tables.pendingGroupIds ↔ name ∈ tables.pendingGroups := by
  rw [pendingGroupIds]
  cases sought : tables.nextPendingGroup none with
  | none =>
    have nothing : tables.pendingGroupIdsFrom tables.obligations.length none = [] := by
      cases tables.obligations.length with
      | zero => rfl
      | succ turns => rfl
    rw [nothing]
    refine ⟨nodup_nil, fun name => iff_of_false not_mem_nil fun listed => ?_⟩
    apply nextPendingGroup_eq_none sought listed
    intro last same
    cases same
  | some first =>
    rcases nextPendingGroup_eq_some sought with ⟨listed, -, least⟩
    have enough : (tables.pendingGroups.filter fun name => decide (first ≤ name)).length ≤
        tables.obligations.length := by
      apply (length_filter_le ..).trans
      rw [pendingGroups, length_map]
      exact length_filter_le ..
    rcases pendingGroupIdsFrom_some listed enough with ⟨ordered, members⟩
    refine ⟨ordered.imp fun below => below.ne, fun name => ?_⟩
    rw [members]
    refine ⟨And.left, fun inGroups => ⟨inGroups, least name inGroups fun last same => ?_⟩⟩
    cases same

/-! ## The claim -/

theorem mem_window {limit : Nat}
    (member : row ∈ firstRanked groupKey limit (tables.runnableRows nowUnixNanos groupId)) :
    row ∈ tables.obligations ∧ isPending row = true ∧ row.groupId = groupId :=
  mem_pendingRows.mp (mem_pendingRows_of_mem_runnableRows (mem_of_mem_firstRanked member))

theorem nodup_window (limit : Nat) :
    (firstRanked groupKey limit (tables.runnableRows nowUnixNanos groupId)).Nodup := by
  have nodup : tables.obligations.Nodup := List.Nodup.of_map _ tables.unique
  have runnable : (tables.runnableRows nowUnixNanos groupId).Nodup := (nodup.filter _).filter _
  exact (take_sublist ..).nodup ((ranked_perm_self _).nodup_iff.mpr runnable)

theorem nodup_windows {groups : List FolderGroupId} (distinct : groups.Nodup) (limit : Nat) :
    (groups.flatMap fun groupId =>
      firstRanked groupKey limit (tables.runnableRows nowUnixNanos groupId)).Nodup := by
  apply nodup_flatMap.mpr
  refine ⟨fun groupId _ => nodup_window limit, distinct.imp fun {first second} apart => ?_⟩
  intro row inFirst inSecond
  exact apart ((mem_window inFirst).2.2.symm.trans (mem_window inSecond).2.2)

/-- Only groups with a pending row contribute, so it does not matter which others are visited. -/
theorem windows_perm (tables : ClaimTables) (nowUnixNanos : Int) (limit : Nat) :
    ((tables.pendingGroupIds.filter fun groupId =>
        !tables.groupFrozen groupId && !tables.isProviderGroup groupId).flatMap fun groupId =>
      firstRanked groupKey limit (tables.runnableRows nowUnixNanos groupId)).Perm
    (tables.openGroups.flatMap fun groupId =>
      firstRanked groupKey limit (tables.runnableRows nowUnixNanos groupId)) := by
  rcases pendingGroupIds_spec tables with ⟨distinct, members⟩
  apply (perm_ext_iff_of_nodup (nodup_windows (distinct.filter _) limit)
    (nodup_windows ((nodup_dedup _).filter _) limit)).mpr
  intro row
  rw [mem_flatMap, mem_flatMap]
  constructor
  · rintro ⟨groupId, inGroups, member⟩
    rcases mem_filter.mp inGroups with ⟨-, allowed⟩
    rcases mem_window member with ⟨listed, -, rfl⟩
    refine ⟨row.groupId, mem_filter.mpr ⟨?_, allowed⟩, member⟩
    exact mem_dedup.mpr (mem_map_of_mem listed)
  · rintro ⟨groupId, inGroups, member⟩
    rcases mem_filter.mp inGroups with ⟨-, allowed⟩
    rcases mem_window member with ⟨listed, pending, rfl⟩
    refine ⟨row.groupId, mem_filter.mpr ⟨?_, allowed⟩, member⟩
    exact (members _).mpr (mem_map_of_mem (mem_filter.mpr ⟨listed, pending⟩))

/-- The claim returns the ranked window, whatever access path each group takes. -/
theorem claim_is_ranked_window (tables : ClaimTables) (nowUnixNanos : Int)
    (perGroupLimit totalLimit : Nat) :
    tables.claimRunnableObligations nowUnixNanos perGroupLimit totalLimit =
      (tables.rankedWindow nowUnixNanos perGroupLimit totalLimit).map ObligationRow.claimed := by
  rw [claimRunnableObligations, rankedWindow]
  split
  · rename_i nothing
    rcases nothing with rfl | rfl
    · rfl
    · have empty : (tables.openGroups.flatMap fun groupId =>
          firstRanked groupKey 0 (tables.runnableRows nowUnixNanos groupId)) = [] :=
        List.flatMap_eq_nil_iff.mpr fun groupId _ => List.take_zero
      rw [empty, firstRanked]
      exact (congrArg (List.map _) List.take_nil).symm
  · rename_i limits
    have some : 0 < perGroupLimit := Nat.pos_of_ne_zero fun zero => limits (.inr zero)
    have windows : tables.groupWindow nowUnixNanos perGroupLimit = fun groupId =>
        firstRanked groupKey perGroupLimit (tables.runnableRows nowUnixNanos groupId) := by
      funext groupId
      exact groupWindow_eq some groupId
    dsimp only
    rw [windows, firstRanked_perm _ (windows_perm tables nowUnixNanos perGroupLimit)]
    apply @distinct_claimKey tables
    intro row member
    rcases List.mem_flatMap.mp member with ⟨groupId, -, inWindow⟩
    exact (mem_window inWindow).1

end ClaimTables

end Yadorilink.Obligations
