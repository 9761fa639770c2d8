import Yadorilink.Foundation.Lists
import Yadorilink.Foundation.Machine
import Yadorilink.Projection.ProviderProjector
import Yadorilink.Store.Installed

/-! The rows of a provider group show what native state projects. The row of a path depends on
the path's own heads and records alone: descendants only decide whether the path is pending,
or a directory without a row. So a path that nothing armed since its last batch is up to date,
as long as no batch retired the row of a path that was pending. -/

namespace Yadorilink

open Std Function List NativeState

variable {below : Bool} {limit : Nat} {crypto : Crypto}

/-! ## The largest directory -/

theorem compare_winKey (directory : Bool) (first second : VersionHash) :
    compare (winKey directory first) (winKey directory second) = compare first second := by
  have same : compare directory directory = .eq := ReflCmp.compare_self
  change (compare directory directory).then (compare first second) = compare first second
  rw [same]
  rfl

section Largest

variable {kindOf : VersionHash → Option RecordKind}

/-- The best directory so far is one of the directory heads, and none is larger. -/
def HeadScan.BestOf (kindOf : VersionHash → Option RecordKind) (heads : List LiveHead)
    (scan : HeadScan) : Prop :=
  ∀ best, scan.bestDirectory = some best →
    (∃ head ∈ heads, kindOf head.payload.version = some .directory ∧
      best = winKey true head.payload.version) ∧
    ∀ head ∈ heads, kindOf head.payload.version = some .directory →
      (compare head.payload.version best.version).isLE

theorem HeadScan.BestOf.visit {heads : List LiveHead} {scan : HeadScan}
    (bestOf : scan.BestOf kindOf heads) (finds : scan.Finds kindOf heads) (head : LiveHead) :
    (scan.visit kindOf head).BestOf kindOf (heads ++ [head]) := by
  -- A head that is no directory leaves the best one as it is.
  have unchanged : kindOf head.payload.version ≠ some .directory →
      (scan.visit kindOf head).bestDirectory = scan.bestDirectory →
      (scan.visit kindOf head).BestOf kindOf (heads ++ [head]) := by
    intro plain same best found
    rw [same] at found
    rcases bestOf best found with ⟨⟨holder, member, holds⟩, largest⟩
    refine ⟨⟨holder, mem_append_left _ member, holds⟩, ?_⟩
    intro other listed directory
    rcases mem_append.mp listed with old | new
    · exact largest other old directory
    · rw [mem_singleton.mp new] at directory
      exact absurd directory plain
  cases known : kindOf head.payload.version with
  | none =>
    apply unchanged
    · rw [known]
      rintro ⟨⟩
    · rw [HeadScan.visit, known]
  | some kind =>
    cases kind with
    | file | symlink =>
      apply unchanged
      · rw [known]
        rintro ⟨⟩
      · rw [HeadScan.visit, known]
    | directory =>
      intro best found
      rw [HeadScan.visit, known] at found
      cases before : scan.bestDirectory with
      | none =>
        rw [before] at found
        cases found
        refine ⟨⟨head, mem_append_right _ (.head _), known, rfl⟩, ?_⟩
        intro other listed directory
        rcases mem_append.mp listed with old | new
        · exact absurd directory (finds.directory.mp before other old)
        · rw [mem_singleton.mp new]
          exact Ordering.isLE_of_eq_eq ReflCmp.compare_self
      | some earlier =>
        rw [before] at found
        rcases bestOf earlier before with ⟨⟨holder, member, directory, rfl⟩, largest⟩
        have chosen := Option.some.inj found
        dsimp only at chosen
        rw [WinKey.larger, compare_winKey] at chosen
        split at chosen
        · rename_i larger
          subst chosen
          refine ⟨⟨holder, mem_append_left _ member, directory, rfl⟩, ?_⟩
          intro other listed isDirectory
          rcases mem_append.mp listed with old | new
          · exact largest other old isDirectory
          · rw [mem_singleton.mp new]
            exact Ordering.isLE_of_eq_lt (OrientedCmp.lt_of_gt larger)
        · rename_i notLarger
          subst chosen
          have smaller : (compare holder.payload.version head.payload.version).isLE := by
            rw [Ordering.isLE_iff_ne_gt]
            exact notLarger
          refine ⟨⟨head, mem_append_right _ (.head _), known, rfl⟩, ?_⟩
          intro other listed isDirectory
          rcases mem_append.mp listed with old | new
          · exact TransOrd.isLE_trans (largest other old isDirectory) smaller
          · rw [mem_singleton.mp new]
            exact Ordering.isLE_of_eq_eq ReflCmp.compare_self

theorem bestOf_scanHeads (heads : List LiveHead) :
    (scanHeads kindOf heads).BestOf kindOf heads := by
  have walk : ∀ (rest before : List LiveHead) (scan : HeadScan), scan.Finds kindOf before →
      scan.BestOf kindOf before →
      (rest.foldl (HeadScan.visit kindOf) scan).BestOf kindOf (before ++ rest) := by
    intro rest
    induction rest with
    | nil =>
      intro before scan _ bestOf
      rw [append_nil]
      exact bestOf
    | cons head rest induction =>
      intro before scan finds bestOf
      rw [append_cons]
      exact induction _ _ (finds.visit head) (bestOf.visit finds head)
  exact walk heads [] .start HeadScan.finds_start (by rintro best ⟨⟩)

theorem resolveWinner_spec {heads : List LiveHead} {winner : LiveHead}
    (found : resolveWinner heads = some winner) :
    winner ∈ heads ∧
      ∀ head ∈ heads, (compare head.payload.version winner.payload.version).isLE := by
  have walk : ∀ (rest seen : List LiveHead) (best : LiveHead), best ∈ seen →
      (∀ head ∈ seen, (compare head.payload.version best.payload.version).isLE) →
      rest.foldl (fun best next => if compareHeads best next = .gt then best else next) best ∈
          seen ++ rest ∧
        ∀ head ∈ seen ++ rest, (compare head.payload.version
          (rest.foldl (fun best next => if compareHeads best next = .gt then best else next)
            best).payload.version).isLE := by
    intro rest
    induction rest with
    | nil =>
      intro seen best member largest
      rw [append_nil]
      exact ⟨member, largest⟩
    | cons next rest induction =>
      intro seen best member largest
      rw [append_cons, foldl_cons]
      split
      · rename_i larger
        apply induction _ _ (mem_append_left _ member)
        refine forall_mem_concat largest ?_
        rw [compareHeads, compare_winKey] at larger
        apply OrientedCmp.isLE_of_isGE
        cases order : compare best.payload.version next.payload.version with
        | lt =>
          rw [order] at larger
          cases larger
        | eq | gt => rfl
      · rename_i notLarger
        apply induction _ _ (mem_append_right _ (.head _))
        have smaller : (compare best.payload.version next.payload.version).isLE := by
          rw [compareHeads, compare_winKey] at notLarger
          cases order : compare best.payload.version next.payload.version with
          | gt =>
            rw [order] at notLarger
            exact absurd rfl notLarger
          | lt | eq => rfl
        exact forall_mem_concat (fun head old => TransOrd.isLE_trans (largest head old) smaller)
          (Ordering.isLE_of_eq_eq ReflCmp.compare_self)
  cases heads with
  | nil => cases found
  | cons first rest =>
    cases found
    apply walk rest [first] first (.head _)
    intro head member
    rw [mem_singleton.mp member]
    exact Ordering.isLE_of_eq_eq ReflCmp.compare_self

end Largest

/-! ## The row of a path -/

def Planned.row : Planned → Option NativeRowIdentity
  | .node (.entry head _) | .node (.explicitDirectory head) => some (.of head)
  | _ => none

def rowOf (kindOf : VersionHash → Option RecordKind) (path : SyncPath) (heads : List LiveHead) :
    Option NativeRowIdentity :=
  (planOne kindOf path heads false).bind Planned.row

variable {version : VersionHash}

section Rows

variable {kindOf : VersionHash → Option RecordKind} {path : SyncPath} {heads : List LiveHead}

theorem projectPath_below (below : Bool)
    (settled : (projectPath heads kindOf below).isPending = false) :
    projectPath heads kindOf below = projectPath heads kindOf false ∨
      (projectPath heads kindOf below = .settled (.directory .structural) ∧
        projectPath heads kindOf false = .absent) := by
  cases below with
  | false => exact .inl rfl
  | true =>
    rw [projectPath] at settled ⊢
    rw [projectPath]
    dsimp only at settled ⊢
    cases unknown : (scanHeads kindOf heads).unknown with
    | some version =>
      rw [unknown] at settled
      cases settled
    | none =>
      rw [unknown] at settled
      cases files : (scanHeads kindOf heads).fileLike with
      | cons first rest =>
        rw [files] at settled
        dsimp only at settled
        rw [Bool.or_true, if_pos rfl] at settled
        cases settled
      | nil =>
        cases best : (scanHeads kindOf heads).bestDirectory with
        | some key => exact .inl rfl
        | none => exact .inr ⟨rfl, rfl⟩

theorem isPending_false_of_below
    (settled : (projectPath heads kindOf below).isPending = false) :
    (projectPath heads kindOf false).isPending = false := by
  rcases projectPath_below below settled with same | ⟨_, absent⟩
  · rw [← same]
    exact settled
  · rw [absent]
    rfl

theorem row_of_plan {planned : Planned}
    (settled : (projectPath heads kindOf below).isPending = false)
    (plan : planOne kindOf path heads below = some planned) :
    planned.row = rowOf kindOf path heads := by
  rcases projectPath_below below settled with same | ⟨structural, absent⟩
  · have alone : planOne kindOf path heads false = some planned := by
      rw [planOne, ← same]
      exact plan
    rw [rowOf, alone]
    rfl
  · rw [planOne, structural] at plan
    cases plan
    rw [rowOf, planOne, absent]
    rfl

theorem projectPath_ne_absent {head : LiveHead} (member : head ∈ heads) :
    projectPath heads kindOf false ≠ .absent := by
  have finds := @finds_scanHeads kindOf heads
  intro absent
  rw [projectPath] at absent
  dsimp only at absent
  split at absent
  · cases absent
  · split at absent
    · cases absent
    · split at absent <;> cases absent
  · rename_i known files
    cases best : (scanHeads kindOf heads).bestDirectory with
    | some key =>
      rw [best] at absent
      cases absent
    | none =>
      cases found : kindOf head.payload.version with
      | none => exact finds.unknown.mp known head member found
      | some kind =>
        have fileLike : kind ≠ .directory := by
          rintro rfl
          exact finds.directory.mp best head member found
        have listed := (finds.fileLike head kind).mpr ⟨member, found, fileLike⟩
        rw [files] at listed
        cases listed

theorem projectPath_ne_structural :
    projectPath heads kindOf false ≠ .settled (.directory .structural) := by
  intro structural
  rw [projectPath] at structural
  dsimp only at structural
  split at structural
  · cases structural
  · split at structural
    · cases structural
    · split at structural <;> cases structural
  · split at structural
    · cases structural
    · cases structural

theorem rowOf_of_absent (absent : projectPath heads kindOf false = .absent) :
    rowOf kindOf path heads = none := by
  rw [rowOf, planOne, absent]
  rfl

theorem rowOf_of_entry {kind : RecordKind} {representative : Dot}
    (entry : projectPath heads kindOf false = .settled (.entry kind version representative)) :
    ∃ head ∈ heads, head.dot = representative ∧ head.payload.version = version ∧
      rowOf kindOf path heads = some (.of ⟨path, head⟩) := by
  rcases projectPath_entry entry with ⟨_, _, ⟨holder, member, _, dot⟩, versions⟩
  have found : ∃ head, (heads.find? fun head => decide (head.dot = representative)) = some head := by
    rw [← Option.isSome_iff_exists, find?_isSome]
    exact ⟨holder, member, decide_eq_true dot⟩
  rcases found with ⟨head, found⟩
  have listed := mem_of_find?_eq_some found
  have matched := find?_some found
  refine ⟨head, listed, of_decide_eq_true matched, versions head listed, ?_⟩
  rw [rowOf, planOne, entry]
  dsimp only
  rw [found]
  rfl

theorem winner_of_explicit
    (explicit : projectPath heads kindOf below = .settled (.directory (.explicit version))) :
    ∃ head, resolveWinner (heads.filter fun head =>
        kindOf head.payload.version = some .directory) = some head ∧
      head ∈ heads ∧ kindOf head.payload.version = some .directory ∧
      head.payload.version = version := by
  -- The projection took the version of the best directory head of its scan.
  have best : (scanHeads kindOf heads).bestDirectory = some (winKey true version) := by
    have finds := @bestOf_scanHeads kindOf heads
    rw [projectPath] at explicit
    dsimp only at explicit
    split at explicit
    · cases explicit
    · split at explicit
      · cases explicit
      · split at explicit <;> cases explicit
    · split at explicit
      · rename_i key found
        cases explicit
        rcases (finds key found).1 with ⟨head, _, _, same⟩
        rw [found, same]
        rfl
      · split at explicit <;> cases explicit
  rcases bestOf_scanHeads heads _ best with ⟨⟨holder, member, directory, same⟩, largest⟩
  have version_eq : holder.payload.version = version := (congrArg WinKey.version same).symm
  have holds : holder ∈ heads.filter fun head => kindOf head.payload.version = some .directory :=
    mem_filter.mpr ⟨member, decide_eq_true directory⟩
  cases found : resolveWinner (heads.filter fun head =>
      kindOf head.payload.version = some .directory) with
  | none =>
    cases listed : heads.filter fun head => kindOf head.payload.version = some .directory with
    | nil =>
      rw [listed] at holds
      cases holds
    | cons first rest =>
      rw [listed] at found
      cases found
  | some winner =>
    rcases resolveWinner_spec found with ⟨winnerIn, winnerLargest⟩
    rcases mem_filter.mp winnerIn with ⟨inHeads, winnerDirectory⟩
    have isDirectory := of_decide_eq_true winnerDirectory
    have upper := largest winner inHeads isDirectory
    have lower := winnerLargest holder holds
    rw [version_eq] at lower
    exact ⟨winner, rfl, inHeads, isDirectory,
      LawfulEqCmp.eq_of_compare (OrientedCmp.isLE_antisymm upper lower)⟩

theorem rowOf_of_explicit
    (explicit : projectPath heads kindOf false = .settled (.directory (.explicit version))) :
    ∃ head ∈ heads, kindOf head.payload.version = some .directory ∧
      head.payload.version = version ∧ rowOf kindOf path heads = some (.of ⟨path, head⟩) := by
  rcases winner_of_explicit explicit with ⟨winner, found, inHeads, isDirectory, same⟩
  refine ⟨winner, inHeads, isDirectory, same, ?_⟩
  rw [rowOf, planOne, explicit]
  dsimp only
  rw [bestDirectoryHead, found]
  rfl

end Rows

/-! ## Records -/

section Records

variable {before after : VersionHash → Option RecordKind} {heads : List LiveHead}

section

variable (same : ∀ head ∈ heads, before head.payload.version = after head.payload.version)

include same

theorem scanHeads_congr :
    scanHeads before heads = scanHeads after heads := by
  rw [scanHeads, scanHeads]
  generalize HeadScan.start = scan
  induction heads generalizing scan with
  | nil => rfl
  | cons head rest induction =>
    have here : scan.visit before head = scan.visit after head := by
      rw [HeadScan.visit, HeadScan.visit, same head (.head _)]
    rw [foldl_cons, foldl_cons, here]
    exact induction (fun other member => same other (.tail _ member)) _

theorem projectPath_congr
    (below : Bool) : projectPath heads before below = projectPath heads after below := by
  rw [projectPath, projectPath, scanHeads_congr same]

theorem planOne_congr
    (path : SyncPath) (below : Bool) :
    planOne before path heads below = planOne after path heads below := by
  have directories : (heads.filter fun head => before head.payload.version = some .directory) =
      heads.filter fun head => after head.payload.version = some .directory := by
    apply filter_congr
    intro head member
    rw [same head member]
  rw [planOne, planOne, projectPath_congr same, bestDirectoryHead, bestDirectoryHead, directories]

theorem rowOf_congr
    (path : SyncPath) : rowOf before path heads = rowOf after path heads := by
  rw [rowOf, rowOf, planOne_congr same]

end

end Records

/-! ## Batches -/

namespace ProviderNamespace

section Batches

variable {shows : VersionHash → Bool} {group next : ProviderNamespace}

theorem writeRow_spec {path : SyncPath} {head : NativeLocatedHead}
    (written : group.writeRow shows path head = some next) :
    next = { group with rows := Function.update group.rows path (some (.of head)) } := by
  rw [writeRow] at written
  split at written
  · rename_i stands
    cases written
    rw [← stands, update_eq_self]
  · split at written
    · cases written
    · split at written
      · cases written
      · cases written
        rfl

theorem tombstoneIfLive_eq (path : SyncPath) :
    group.tombstoneIfLive path = { group with rows := Function.update group.rows path none } := by
  rw [tombstoneIfLive]
  split
  · rfl
  · rename_i absent
    have none : group.rows path = none := by
      rw [← Option.not_isSome_iff_eq_none]
      exact absent
    rw [← none, update_eq_self]

theorem projectName_spec {path : SyncPath} (done : group.projectName shows path = some next) :
    ∃ planned, group.plan path = some planned ∧
      next = { group with rows := Function.update group.rows path planned.row } := by
  rw [projectName] at done
  rcases Option.bind_eq_some_iff.mp done with ⟨planned, plan, written⟩
  refine ⟨planned, plan, ?_⟩
  cases planned with
  | absent | contested =>
    cases written
    exact tombstoneIfLive_eq path
  | node node =>
    cases node with
    | entry head kind => exact writeRow_spec written
    | explicitDirectory head => exact writeRow_spec written
    | structuralDirectory =>
      cases written
      exact tombstoneIfLive_eq path

theorem projectNames_spec {taken : List (SyncPath × Nat)}
    (done : projectNames shows taken group = some next) :
    next.state = group.state ∧ next.records = group.records ∧ next.obligations = group.obligations ∧
      (∀ path, path ∉ taken.map Prod.fst → next.rows path = group.rows path) ∧
      ∀ path ∈ taken.map Prod.fst,
        ∃ planned, group.plan path = some planned ∧ next.rows path = planned.row := by
  induction taken generalizing group with
  | nil =>
    cases done
    exact ⟨rfl, rfl, rfl, fun _ _ => rfl, by rintro path ⟨⟩⟩
  | cons first rest induction =>
    rw [projectNames] at done
    rcases Option.bind_eq_some_iff.mp done with ⟨middle, here, later⟩
    rcases projectName_spec here with ⟨planned, plan, rfl⟩
    rcases induction later with ⟨state, records, obligations, others, own⟩
    refine ⟨state, records, obligations, ?_, ?_⟩
    · intro path fresh
      rw [map_cons, mem_cons, not_or] at fresh
      rw [others path fresh.2]
      exact update_of_ne fresh.1 _ _
    · intro path member
      by_cases listed : path ∈ rest.map Prod.fst
      · exact own path listed
      · rw [map_cons, mem_cons] at member
        have first_eq := member.resolve_right listed
        subst first_eq
        refine ⟨planned, plan, ?_⟩
        rw [others _ listed]
        exact update_self _ _ _

theorem completeObligations_spec (taken : List (SyncPath × Nat)) (group : ProviderNamespace) :
    (taken.foldl completeObligation group).state = group.state ∧
      (taken.foldl completeObligation group).records = group.records ∧
      (taken.foldl completeObligation group).rows = group.rows ∧
      ∀ path, (taken.foldl completeObligation group).obligations[path]? = none →
        path ∈ taken.map Prod.fst ∨ group.obligations[path]? = none := by
  induction taken generalizing group with
  | nil => exact ⟨rfl, rfl, rfl, fun _ closed => .inr closed⟩
  | cons first rest induction =>
    rw [foldl_cons]
    rcases induction (completeObligation group first) with ⟨state, records, rows, closed⟩
    rw [completeObligation] at state records rows closed ⊢
    split at state
    · rename_i current
      rw [if_pos current] at records rows closed ⊢
      refine ⟨state, records, rows, ?_⟩
      intro path absent
      rw [map_cons, mem_cons]
      rcases closed path absent with listed | erased
      · exact .inl (.inr listed)
      · by_cases same : path = first.1
        · exact .inl (.inl same)
        · right
          rw [ExtTreeMap.getElem?_erase] at erased
          rw [if_neg] at erased
          · exact erased
          · exact fun equal => same (LawfulEqCmp.eq_of_compare equal).symm
    · rename_i stale
      rw [if_neg stale] at records rows closed ⊢
      refine ⟨state, records, rows, ?_⟩
      intro path absent
      rw [map_cons, mem_cons]
      exact (closed path absent).imp_left .inr

theorem projectBatch_spec (done : group.projectBatch shows limit = some next) :
    next.state = group.state ∧ next.records = group.records ∧
      (∀ path, next.obligations[path]? = none →
        path ∈ (group.batchOf limit).map Prod.fst ∨ group.obligations[path]? = none) ∧
      (∀ path, path ∉ (group.batchOf limit).map Prod.fst → next.rows path = group.rows path) ∧
      ∀ path ∈ (group.batchOf limit).map Prod.fst,
        ∃ planned, group.plan path = some planned ∧ next.rows path = planned.row := by
  rw [projectBatch] at done
  rcases Option.map_eq_some_iff.mp done with ⟨projected, walked, rfl⟩
  rcases projectNames_spec walked with ⟨state, records, obligations, others, own⟩
  rcases completeObligations_spec (group.batchOf limit) projected with
    ⟨sameState, sameRecords, sameRows, closed⟩
  rw [sameState, sameRecords, sameRows]
  refine ⟨state, records, ?_, others, own⟩
  intro path absent
  rw [← obligations]
  exact closed path absent

end Batches

/-! ## Arming -/

section Arming

theorem armPaths_spec (paths : List SyncPath) (group : ProviderNamespace) :
    (paths.foldl armPath group).state = group.state ∧
      (paths.foldl armPath group).records = group.records ∧
      (paths.foldl armPath group).rows = group.rows ∧
      ∀ path, (paths.foldl armPath group).obligations[path]? = none →
        path ∉ paths ∧ group.obligations[path]? = none := by
  induction paths generalizing group with
  | nil => exact ⟨rfl, rfl, rfl, fun _ absent => ⟨not_mem_nil, absent⟩⟩
  | cons first rest induction =>
    rw [foldl_cons]
    rcases induction (armPath group first) with ⟨state, records, rows, quiet⟩
    refine ⟨state, records, rows, ?_⟩
    intro path absent
    rcases quiet path absent with ⟨fresh, before⟩
    rw [armPath, OrderedMap.getElem?_insert_eq] at before
    split at before
    · cases before
    · rename_i differs
      rw [mem_cons, not_or]
      exact ⟨⟨fun same => differs same.symm, fresh⟩, before⟩

theorem mem_ops_of_mem_remoteOps {delta : NativeDelta} {path : SyncPath}
    (member : path ∈ (delta.remoteOps crypto).map RemoteOp.path) :
    path ∈ delta.ops.map DeltaOp.path := by
  have named : ∀ op ∈ delta.remoteOps crypto, op.path ∈ delta.ops.map DeltaOp.path :=
    NativeDelta.forall_remoteOps crypto delta fun op inOps _ => mem_map_of_mem inOps
  rcases mem_map.mp member with ⟨op, inOps, rfl⟩
  exact named op inOps

theorem install_spec (crypto : Crypto) (group : ProviderNamespace) (delta : NativeDelta) :
    (group.install crypto delta).records = group.records ∧
      (group.install crypto delta).rows = group.rows ∧
      ∀ path, (group.install crypto delta).obligations[path]? = none →
        group.obligations[path]? = none ∧
          (group.install crypto delta).state.headsAt path = group.state.headsAt path := by
  rw [install]
  split
  · exact ⟨rfl, rfl, fun _ absent => ⟨absent, rfl⟩⟩
  · rename_i dot state received
    have spec := armPaths_spec (delta.ops.map DeltaOp.path).dedup { group with state }
    rw [armProjectionForDelta]
    rcases spec with ⟨sameState, records, rows, quiet⟩
    refine ⟨records, rows, ?_⟩
    intro path absent
    rcases quiet path absent with ⟨untouched, before⟩
    refine ⟨before, ?_⟩
    have unlisted : path ∉ (delta.remoteOps crypto).map RemoteOp.path := by
      intro member
      exact untouched (mem_dedup.mpr (mem_ops_of_mem_remoteOps member))
    rcases receiveVerified_ok received with ⟨_, _, rfl⟩
    have lookup := getElem?_changeEach_of_not_mem RemoteOp.path
      (fun op => op.result ⟨delta.author, delta.seq⟩) (delta.remoteOps crypto) group.state.heads
      unlisted
    rw [sameState, headsAt, headsAt, pathHeads,
      pathHeads]
    exact congrArg (fun stored : Option PathHeads => (stored.getD ∅).toList.map
      fun entry => (⟨entry.1, entry.2⟩ : LiveHead)) lookup

theorem not_named_of_not_mem {state : NativeState} {path : SyncPath}
    (unlisted : path ∉ pathsNaming state version) :
    ∀ head ∈ state.headsAt path, head.payload.version ≠ version := by
  intro head member named
  apply unlisted
  rw [headsAt, pathHeads] at member
  cases stored : state.heads[path]? with
  | none =>
    rw [stored] at member
    cases member
  | some heads =>
    rw [stored] at member
    rcases mem_map.mp member with ⟨entry, listed, rfl⟩
    rw [pathsNaming, mem_map]
    refine ⟨(path, heads), mem_filter.mpr ⟨?_, ?_⟩, rfl⟩
    · exact ExtTreeMap.mem_toList_iff_getElem?_eq_some.mpr stored
    · rw [any_eq_true]
      exact ⟨entry, listed, decide_eq_true named⟩

theorem arriveVersion_spec (group : ProviderNamespace) (version : VersionHash) (kind : RecordKind) :
    (group.arriveVersion version kind).state = group.state ∧
      (group.arriveVersion version kind).rows = group.rows ∧
      ∀ path, (group.arriveVersion version kind).obligations[path]? = none →
        group.obligations[path]? = none ∧
          ∀ head ∈ group.state.headsAt path, group.records head.payload.version =
            (group.arriveVersion version kind).records head.payload.version := by
  rw [arriveVersion]
  have spec := armPaths_spec (pathsNaming group.state version)
    { group with records := if (group.records version).isSome then group.records
        else Function.update group.records version (some kind) }
  rcases spec with ⟨state, records, rows, quiet⟩
  refine ⟨state, rows, ?_⟩
  intro path absent
  rcases quiet path absent with ⟨unlisted, before⟩
  refine ⟨before, ?_⟩
  intro head member
  rw [records]
  dsimp only
  split
  · rfl
  · exact (update_of_ne (not_named_of_not_mem unlisted head member) _ _).symm

end Arming

/-! ## Runs -/

/-- The row of a path is the one its own heads call for, and they settle. -/
def UpToDate (group : ProviderNamespace) (path : SyncPath) : Prop :=
  (projectPath (group.state.headsAt path) group.records false).isPending = false ∧
    group.rows path = rowOf group.records path (group.state.headsAt path)

/-- Every path without an open obligation is up to date. -/
def Current (group : ProviderNamespace) : Prop :=
  ∀ path, group.obligations[path]? = none → group.UpToDate path

theorem current_empty : empty.Current := by
  intro path _
  have unheld : empty.state.headsAt path = [] := by
    change ((∅ : HeadMap)[path]?.getD ∅).toList.map _ = []
    rw [ExtTreeMap.getElem?_empty]
    rfl
  rw [UpToDate, unheld]
  exact ⟨rfl, rfl⟩

theorem Current.batch {shows : VersionHash → Bool} {group next : ProviderNamespace}
    (current : group.Current) (takes : group.TakesSettled (.batch limit))
    (done : group.projectBatch shows limit = some next) : next.Current := by
  rcases projectBatch_spec done with ⟨state, records, closed, others, own⟩
  intro path absent
  rw [UpToDate, state, records]
  by_cases taken : path ∈ (group.batchOf limit).map Prod.fst
  · rcases mem_map.mp taken with ⟨obligation, member, rfl⟩
    have plain := takes obligation member
    rcases own _ taken with ⟨planned, plan, row⟩
    refine ⟨isPending_false_of_below plain, ?_⟩
    rw [row]
    exact row_of_plan plain plan
  · rw [others path taken]
    exact current path ((closed path absent).resolve_left taken)

theorem Current.step {shows : VersionHash → Bool} {group : ProviderNamespace}
    (current : group.Current) {event : Event} (takes : group.TakesSettled event) :
    (group.step crypto shows event).Current := by
  cases event with
  | install delta =>
    rcases install_spec crypto group delta with ⟨records, rows, quiet⟩
    intro path absent
    rcases quiet path absent with ⟨before, heads⟩
    rw [ProviderNamespace.step, UpToDate, heads, records, rows]
    exact current path before
  | arrive version kind =>
    rcases arriveVersion_spec group version kind with ⟨state, rows, quiet⟩
    intro path absent
    rcases quiet path absent with ⟨before, same⟩
    rcases current path before with ⟨plain, row⟩
    rw [ProviderNamespace.step, UpToDate, state, rows, ← projectPath_congr same, ← rowOf_congr same]
    exact ⟨plain, row⟩
  | batch limit =>
    rw [ProviderNamespace.step]
    cases done : group.projectBatch shows limit with
    | none => exact current
    | some next => exact current.batch takes done

def runAll (crypto : Crypto) (shows : VersionHash → Bool) (events : List Event) :
    ProviderNamespace :=
  events.foldl (step crypto shows) empty

/-- No batch of the run takes a path whose projection is pending. -/
def NeverTakesPending (crypto : Crypto) (shows : VersionHash → Bool) (events : List Event) : Prop :=
  Machine.Along (fun group event => some (step crypto shows group event)) TakesSettled empty events

instance (crypto : Crypto) (shows : VersionHash → Bool) (events : List Event) :
    Decidable (NeverTakesPending crypto shows events) :=
  inferInstanceAs (Decidable (Machine.Along _ _ _ _))

theorem current_run {shows : VersionHash → Bool} {events : List Event}
    (takes : NeverTakesPending crypto shows events) : (runAll crypto shows events).Current := by
  rw [NeverTakesPending] at takes
  rw [runAll]
  have started := current_empty
  generalize empty = group at takes started ⊢
  induction events generalizing group with
  | nil => exact started
  | cons event rest induction => exact induction _ (takes.2 _ rfl) (started.step takes.1)

/-- A batch that takes no pending path leaves a row to every path with heads that had one. -/
theorem row_of_batch {shows : VersionHash → Bool} {group next : ProviderNamespace}
    (takes : group.TakesSettled (.batch limit))
    (done : group.projectBatch shows limit = some next) {path : SyncPath}
    (held : group.state.headsAt path ≠ []) (shown : (group.rows path).isSome) :
    (next.rows path).isSome := by
  rcases projectBatch_spec done with ⟨_, _, _, others, own⟩
  by_cases taken : path ∈ (group.batchOf limit).map Prod.fst
  · rcases mem_map.mp taken with ⟨obligation, member, rfl⟩
    have plain := isPending_false_of_below (takes obligation member)
    rcases own _ taken with ⟨planned, plan, row⟩
    rw [row, row_of_plan (takes obligation member) plan]
    cases projection : projectPath (group.state.headsAt obligation.1) group.records false with
    | pending reason =>
      rw [projection] at plain
      cases plain
    | absent =>
      rcases exists_mem_of_ne_nil _ held with ⟨head, member⟩
      exact absurd projection (projectPath_ne_absent member)
    | settled shown =>
      cases shown with
      | entry kind version representative =>
        rcases rowOf_of_entry projection with ⟨_, _, _, _, some⟩
        rw [some]
        rfl
      | directory node =>
        cases node with
        | explicit version =>
          rcases rowOf_of_explicit projection with ⟨_, _, _, _, some⟩
          rw [some]
          rfl
        | structural => exact absurd projection projectPath_ne_structural
  · rw [others path taken]
    exact shown

/-- While no batch takes a path whose projection is pending: a batch leaves a row to every
pending path with heads that had one, and once no obligation is open the rows are those of
the projected tree. -/
theorem rows_show_tree (crypto : Crypto) (shows : VersionHash → Bool) (events : List Event)
    (takes : NeverTakesPending crypto shows events) :
    (∀ limit next, (runAll crypto shows events).TakesSettled (.batch limit) →
      (runAll crypto shows events).projectBatch shows limit = some next →
      ∀ path reason, (runAll crypto shows events).state.headsAt path ≠ [] →
        (projectTree (runAll crypto shows events).state (runAll crypto shows events).records)[path]? =
          some (.pending reason) →
        ((runAll crypto shows events).rows path).isSome → (next.rows path).isSome) ∧
    ((runAll crypto shows events).obligations.isEmpty → ∀ path, (∀ kind version representative,
          (projectTree (runAll crypto shows events).state
              (runAll crypto shows events).records)[path]? =
            some (.settled (.entry kind version representative)) →
          ∃ head ∈ (runAll crypto shows events).state.headsAt path, head.dot = representative ∧
            head.payload.version = version ∧
            (runAll crypto shows events).rows path = some (.of ⟨path, head⟩)) ∧
        (∀ version, (projectTree (runAll crypto shows events).state
              (runAll crypto shows events).records)[path]? =
            some (.settled (.directory (.explicit version))) →
          ∃ head ∈ (runAll crypto shows events).state.headsAt path, head.payload.version = version ∧
            (runAll crypto shows events).rows path = some (.of ⟨path, head⟩)) ∧
        ((projectTree (runAll crypto shows events).state
              (runAll crypto shows events).records)[path]? = none ∨
            (projectTree (runAll crypto shows events).state
              (runAll crypto shows events).records)[path]? =
              some (.settled (.directory .structural)) →
          (runAll crypto shows events).rows path = none)) := by
  have current := current_run takes
  generalize runAll crypto shows events = group at current ⊢
  constructor
  · intro limit next settled done path reason held _ shown
    exact row_of_batch settled done held shown
  · intro closed path
    have upToDate := current path ((OrderedMap.isEmpty_iff_getElem? _).mp closed path)
    rcases upToDate with ⟨plain, row⟩
    rw [getElem?_projectTree, row]
    -- The tree's projection is the path's own one, or makes a directory of nothing.
    have alone : ∀ {shown : Yadorilink.Settled}, shown ≠ .directory .structural →
        (if projectionOf group.state group.records path = .absent then none
          else some (projectionOf group.state group.records path)) = some (.settled shown) →
        projectPath (group.state.headsAt path) group.records false = .settled shown := by
      intro shown other tree
      split at tree
      · cases tree
      · have projected := Option.some.inj tree
        rw [projectionOf] at projected
        rcases projectPath_below _ (by rw [projected]; rfl) with same | ⟨structural, _⟩
        · rw [← same, projected]
        · rw [projected] at structural
          exact absurd (Projection.settled.inj structural) other
    refine ⟨?_, ?_, ?_⟩
    · intro kind version representative tree
      exact rowOf_of_entry (alone (by rintro ⟨⟩) tree)
    · intro version tree
      rcases rowOf_of_explicit (alone (by rintro ⟨⟩) tree) with ⟨head, member, _, same, shown⟩
      exact ⟨head, member, same, shown⟩
    · intro tree
      apply rowOf_of_absent
      have projected : projectionOf group.state group.records path = .absent ∨
          projectionOf group.state group.records path = .settled (.directory .structural) := by
        rcases tree with absent | structural
        · split at absent
          · exact .inl (by assumption)
          · cases absent
        · split at structural
          · cases structural
          · exact .inr (Option.some.inj structural)
      have settled : (projectionOf group.state group.records path).isPending = false := by
        rcases projected with absent | structural
        · rw [absent]
          rfl
        · rw [structural]
          rfl
      rcases projectPath_below _ settled with same | ⟨_, absent⟩
      · rcases projected with absent | structural
        · rw [← same]
          exact absent
        · rw [projectionOf, same] at structural
          exact absurd structural projectPath_ne_structural
      · exact absent

/-! ## A contested path -/

def putX (device : DeviceId) (version : VersionHash) : NativeDelta :=
  ⟨"group", ⟨device, 1⟩, 1, none, [⟨"x", [], some ⟨version⟩⟩], none, 0⟩

/-- One device's file arrives with its record, and is projected. -/
def oneFile : List Event :=
  [.install (putX "first" ⟨1⟩), .arrive ⟨1⟩ .file, .batch 1]

theorem one_file_shown : ∃ head ∈ (runAll .sample (fun _ => true) oneFile).state.headsAt "x",
      head.payload.version = ⟨1⟩ ∧
      (runAll .sample (fun _ => true) oneFile).rows "x" = some (.of ⟨"x", head⟩) := by
  have shown := ((rows_show_tree .sample (fun _ => true) oneFile (by decide)).2
    (by decide) "x").1 .file ⟨1⟩ ⟨⟨"first", 1⟩, 1⟩ (by decide)
  rcases shown with ⟨head, member, _, version, row⟩
  exact ⟨head, member, version, row⟩

/-- Another device's file at the same path is pending; the batch that takes the path retires the
row it had, and closes the obligation. -/
theorem pending_row_retired : (projectTree (runAll .sample (fun _ => true)
          (oneFile ++ [Event.install (putX "second" ⟨2⟩), .arrive ⟨2⟩ .file])).state
        (runAll .sample (fun _ => true)
          (oneFile ++ [Event.install (putX "second" ⟨2⟩), .arrive ⟨2⟩ .file])).records)["x"]? =
      some (.pending .distinctVersions) ∧
    (runAll .sample (fun _ => true)
      (oneFile ++ [Event.install (putX "second" ⟨2⟩), .arrive ⟨2⟩ .file])).rows "x" ≠ none ∧
    (runAll .sample (fun _ => true)
      (oneFile ++ [Event.install (putX "second" ⟨2⟩), .arrive ⟨2⟩ .file, .batch 1])).rows "x" = none ∧
    (runAll .sample (fun _ => true)
      (oneFile ++ [Event.install (putX "second" ⟨2⟩), .arrive ⟨2⟩ .file, .batch 1])).obligations["x"]? =
      none := by
  decide

end ProviderNamespace

end Yadorilink
