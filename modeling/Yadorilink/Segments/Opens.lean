import Yadorilink.Segments.Tallies

/-! Opening a store call by call. An open can be cut short after any of its calls, and the files it
finds can have lost bytes the index still points at; the store is then opened again. -/

namespace Yadorilink.Segments

open Machine List BlockIndex List.Subset SegmentRow

/-! ## The calls of an open -/

/-- One call that changes the index or the files. -/
inductive RecoveryAction where
  | remove (segmentId : Nat)
  | forget (segmentId : Nat)
  | dropMappings (segmentId : Nat)
  | setLen (segmentId len : Nat)
  | syncFile (segmentId : Nat)
  | repair (segmentId fileLen : Nat)
  | removeStage (segmentId : Nat)
  | syncDirectory
  | setSealed (segmentId : Nat)
  | retire (segmentId : Nat)
  deriving DecidableEq

def RecoveryAction.apply (recovering : Recovering) : RecoveryAction → Recovering
  | .remove segmentId => recovering.remove segmentId
  | .forget segmentId =>
    { recovering with index := recovering.index.forgetSegment segmentId }
  | .dropMappings segmentId =>
    { recovering with index := recovering.index.dropSegmentMappings segmentId }
  | .setLen segmentId len =>
    { recovering with directory := recovering.directory.setLen segmentId len }
  | .syncFile segmentId =>
    { recovering with directory := recovering.directory.syncFile segmentId }
  | .repair segmentId fileLen =>
    { recovering with index := recovering.index.repairSegmentToLength segmentId fileLen }
  | .removeStage segmentId =>
    { recovering with directory := { recovering.directory with
        staged := recovering.directory.staged.filter fun name => name ≠ segmentId } }
  | .syncDirectory => { recovering with directory := recovering.directory.sync }
  | .setSealed segmentId =>
    { recovering with index := recovering.index.setSegmentState segmentId .sealed }
  | .retire segmentId =>
    { recovering with index := recovering.index.retireEmptySegment segmentId }

/-- What is done about one row, from the row and the file as they were found. -/
def rowPlan (removable : Nat → Bool) (directory : Directory) (row : SegmentRow) :
    List RecoveryAction :=
  let segmentId := row.segmentId
  let present := segmentId ∈ directory.names
  let fileLen := (directory.file segmentId).bytes.length
  if row.state = .retired then
    if present ∧ removable segmentId = false then []
    else (if present then [.remove segmentId] else []) ++ [.forget segmentId]
  else if ¬present then [.dropMappings segmentId, .forget segmentId]
  else if row.durableEnd < fileLen then
    [.setLen segmentId row.durableEnd, .syncFile segmentId]
  else if fileLen < row.durableEnd then [.repair segmentId fileLen]
  else []

def closePlan (row : SegmentRow) : List RecoveryAction :=
  if row.state = .active then
    if row.live.blocks = 0 ∧ row.durableEnd ≤ segmentHeaderLen then [.retire row.segmentId]
    else [.setSealed row.segmentId]
  else []

def retirePlan (row : SegmentRow) : List RecoveryAction :=
  if row.state ≠ .retired ∧ row.live.blocks = 0 then [.retire row.segmentId] else []

/-- The calls of an open, in order. Everything is decided from what was read first. -/
def recoveryPlan (removable stageRemovable : Nat → Bool) (index : BlockIndex)
    (directory : Directory) : List RecoveryAction :=
  let rows := index.segments
  let known := rows.map SegmentRow.segmentId
  rows.flatMap (rowPlan removable directory) ++
    (directory.names.filter fun name => name ∉ known && removable name).map .remove ++
    (directory.staged.filter fun name => name ∉ known && stageRemovable name).map .removeStage ++
    [.syncDirectory] ++ rows.flatMap closePlan ++ rows.flatMap retirePlan

def RecoveryAction.run (actions : List RecoveryAction) (recovering : Recovering) : Recovering :=
  actions.foldl RecoveryAction.apply recovering

theorem RecoveryAction.run_append (first second : List RecoveryAction) (recovering : Recovering) :
    run (first ++ second) recovering = run second (run first recovering) :=
  foldl_append

/-! ## The plan is the recovery -/

section Plan

variable {removable stageRemovable : Nat → Bool} {directory : Directory} {index : BlockIndex}
  {recovering : Recovering} {row : SegmentRow} {rows : List SegmentRow}

theorem run_rowPlan
    (named : row.segmentId ∈ recovering.directory.names ↔ row.segmentId ∈ directory.names)
    (filed : recovering.directory.file row.segmentId = directory.file row.segmentId) :
    RecoveryAction.run (rowPlan removable directory row) recovering =
      recoverRow removable recovering row := by
  rw [rowPlan, recoverRow]
  rw [filed]
  by_cases present : row.segmentId ∈ directory.names
  · have there := named.mpr present
    simp only [present, there, true_and, not_true_eq_false, if_true, if_false]
    split
    · split
      · rfl
      · rfl
    · split
      · rfl
      · split
        · rfl
        · rfl
  · have absent : row.segmentId ∉ recovering.directory.names :=
      fun there => present (named.mp there)
    simp only [present, absent, false_and, not_false_eq_true, if_true, if_false]
    split
    · rfl
    · rfl

theorem recoverRow_other {segmentId : Nat} (apart : segmentId ≠ row.segmentId) :
    (segmentId ∈ (recoverRow removable recovering row).directory.names ↔
        segmentId ∈ recovering.directory.names) ∧
      (recoverRow removable recovering row).directory.file segmentId =
        recovering.directory.file segmentId := by
  rw [recoverRow]
  split
  · split
    · exact ⟨Iff.rfl, rfl⟩
    · split
      · refine ⟨?_, rfl⟩
        change segmentId ∈ List.filter _ _ ↔ _
        rw [mem_filter]
        exact ⟨And.left, fun listed => ⟨listed, decide_eq_true apart⟩⟩
      · exact ⟨Iff.rfl, rfl⟩
  · split
    · exact ⟨Iff.rfl, rfl⟩
    · split
      · refine ⟨Iff.rfl, ?_⟩
        change (if segmentId = row.segmentId then _ else if segmentId = row.segmentId then _ else _) = _
        rw [if_neg apart, if_neg apart]
      · split
        · exact ⟨Iff.rfl, rfl⟩
        · exact ⟨Iff.rfl, rfl⟩

theorem run_rowPlans
    (distinct : rows.Pairwise fun first second => first.segmentId ≠ second.segmentId)
    (named : ∀ row ∈ rows,
      (row.segmentId ∈ recovering.directory.names ↔ row.segmentId ∈ directory.names))
    (filed : ∀ row ∈ rows, recovering.directory.file row.segmentId = directory.file row.segmentId) :
    RecoveryAction.run (rows.flatMap (rowPlan removable directory)) recovering =
      rows.foldl (recoverRow removable) recovering := by
  induction rows generalizing recovering with
  | nil => rfl
  | cons row rows induction =>
    rw [pairwise_cons] at distinct
    rw [flatMap_cons, RecoveryAction.run_append,
      run_rowPlan (named row mem_cons_self) (filed row mem_cons_self), foldl_cons]
    apply induction distinct.2
    · intro other listed
      have apart := Ne.symm (distinct.1 other listed)
      exact (recoverRow_other apart).1.trans (named other (.tail row listed))
    · intro other listed
      have apart := Ne.symm (distinct.1 other listed)
      exact (recoverRow_other apart).2.trans (filed other (.tail row listed))

theorem recoverRow_directory :
    (recoverRow removable recovering row).directory.names ⊆ recovering.directory.names ∧
      (recoverRow removable recovering row).directory.staged = recovering.directory.staged := by
  rw [recoverRow]
  split
  · split
    · exact ⟨refl _, rfl⟩
    · split
      · exact ⟨filter_subset_self _, rfl⟩
      · exact ⟨refl _, rfl⟩
  · split
    · exact ⟨refl _, rfl⟩
    · split
      · exact ⟨refl _, rfl⟩
      · split
        · exact ⟨refl _, rfl⟩
        · exact ⟨refl _, rfl⟩

theorem reconciled_directory :
    (rows.foldl (recoverRow removable) recovering).directory.names ⊆ recovering.directory.names ∧
      (rows.foldl (recoverRow removable) recovering).directory.staged =
        recovering.directory.staged := by
  induction rows generalizing recovering with
  | nil => exact ⟨List.Subset.refl _, rfl⟩
  | cons row rows induction =>
    have first := @recoverRow_directory removable recovering row
    have rest := @induction (recoverRow removable recovering row)
    exact ⟨List.Subset.trans rest.1 first.1, rest.2.trans first.2⟩

theorem run_removes (names : List Nat) : RecoveryAction.run (names.map .remove) recovering =
      { recovering with directory := { recovering.directory with
          names := recovering.directory.names.filter fun name => name ∉ names
          unlinked := recovering.directory.unlinked ++ names } } := by
  induction names generalizing recovering with
  | nil => simp [RecoveryAction.run]
  | cons name names induction =>
    rw [map_cons, RecoveryAction.run, foldl_cons, ← RecoveryAction.run, induction]
    simp only [RecoveryAction.apply, Recovering.remove, Directory.removePath, filter_filter,
      append_assoc, singleton_append, mem_cons, not_or]
    congr 2
    apply filter_congr
    intro other _
    rw [Bool.decide_and, Bool.and_comm]

theorem run_removeStages (names : List Nat) :
    RecoveryAction.run (names.map .removeStage) recovering =
      { recovering with directory := { recovering.directory with
          staged := recovering.directory.staged.filter fun name => name ∉ names } } := by
  induction names generalizing recovering with
  | nil => simp [RecoveryAction.run]
  | cons name names induction =>
    rw [map_cons, RecoveryAction.run, foldl_cons, ← RecoveryAction.run, induction]
    simp only [RecoveryAction.apply, filter_filter, mem_cons, not_or]
    congr 2
    apply filter_congr
    intro other _
    rw [Bool.decide_and, Bool.and_comm]

theorem run_closePlans : RecoveryAction.run (rows.flatMap closePlan) recovering =
      { recovering with index := rows.foldl closeRow recovering.index } := by
  induction rows generalizing recovering with
  | nil => rfl
  | cons row rows induction =>
    have first : RecoveryAction.run (closePlan row) recovering =
        { recovering with index := closeRow recovering.index row } := by
      rw [closePlan, closeRow]
      split
      · split
        · rfl
        · rfl
      · rfl
    rw [flatMap_cons, RecoveryAction.run_append, first, induction]
    rfl

theorem run_retirePlans : RecoveryAction.run (rows.flatMap retirePlan) recovering =
      { recovering with index := rows.foldl retireRow recovering.index } := by
  induction rows generalizing recovering with
  | nil => rfl
  | cons row rows induction =>
    have first : RecoveryAction.run (retirePlan row) recovering =
        { recovering with index := retireRow recovering.index row } := by
      rw [retirePlan, retireRow]
      split
      · rfl
      · rfl
    rw [flatMap_cons, RecoveryAction.run_append, first, induction]
    rfl

theorem filter_orphans {names found known : List Nat} (subset : names ⊆ found) :
    names.filter (fun name => name ∈ known || !removable name) =
      names.filter fun name => name ∉ found.filter fun name => name ∉ known && removable name := by
  apply filter_congr
  intro name listed
  rw [Bool.eq_iff_iff]
  simp [subset listed]

theorem recover_eq_plan
    (distinct : index.segments.Pairwise fun first second => first.segmentId ≠ second.segmentId) :
    (recover removable stageRemovable index directory).1 =
      RecoveryAction.run (recoveryPlan removable stageRemovable index directory)
        ⟨index, directory⟩ := by
  have reconciled := @run_rowPlans removable directory ⟨index, directory⟩ index.segments distinct
    (fun _ _ => Iff.rfl) (fun _ _ => rfl)
  have files := @reconciled_directory removable ⟨index, directory⟩ index.segments
  rw [recover, recoveryPlan]
  dsimp only
  rw [RecoveryAction.run_append, RecoveryAction.run_append, RecoveryAction.run_append,
    RecoveryAction.run_append, RecoveryAction.run_append, reconciled, run_removes,
    run_removeStages, run_retirePlans, run_closePlans]
  generalize index.segments.foldl (recoverRow removable) ⟨index, directory⟩ = middle at files ⊢
  simp only [RecoveryAction.run, foldl_cons, foldl_nil, RecoveryAction.apply,
    removeOrphans, Directory.sync]
  have staged : middle.directory.staged ⊆ directory.staged := files.2 ▸ refl _
  have names : middle.directory.names ⊆ directory.names := files.1
  rw [filter_orphans names, filter_orphans staged]

end Plan
/-! ## One segment at a time -/

def RecoveryAction.onIndex (index : BlockIndex) : RecoveryAction → BlockIndex
  | .forget segmentId => index.forgetSegment segmentId
  | .dropMappings segmentId => index.dropSegmentMappings segmentId
  | .repair segmentId fileLen => index.repairSegmentToLength segmentId fileLen
  | .setSealed segmentId => index.setSegmentState segmentId .sealed
  | .retire segmentId => index.retireEmptySegment segmentId
  | .remove _ | .setLen _ _ | .syncFile _ | .removeStage _ | .syncDirectory => index

def RecoveryAction.segmentId : RecoveryAction → Option Nat
  | .remove segmentId | .forget segmentId | .dropMappings segmentId | .setLen segmentId _
  | .syncFile segmentId | .repair segmentId _ | .removeStage segmentId | .setSealed segmentId
  | .retire segmentId => some segmentId
  | .syncDirectory => none

theorem RecoveryAction.index_run (actions : List RecoveryAction) (recovering : Recovering) :
    (run actions recovering).index = actions.foldl onIndex recovering.index := by
  induction actions generalizing recovering with
  | nil => rfl
  | cons action actions induction =>
    have first : (apply recovering action).index = onIndex recovering.index action := by
      cases action <;> rfl
    rw [foldl_cons, ← first, ← induction]
    rfl

def BlockIndex.slice (index : BlockIndex) (segmentId : Nat) : BlockIndex :=
  { index with
    segments := index.segments.filter fun row => row.segmentId = segmentId
    blocks := index.blocks.filter fun block => block.segmentId = segmentId }

variable {change : SegmentRow → SegmentRow} {action : RecoveryAction}

section Slices

variable {index : BlockIndex} {segmentId other : Nat}

theorem slice_updateSegment (names : ∀ row, (change row).segmentId = row.segmentId) :
    (index.updateSegment other change).slice segmentId =
      (index.slice segmentId).updateSegment other change := by
  rw [slice, updateSegment, updateSegment, slice]
  congr 1
  dsimp only
  rw [filter_map]
  congr 1
  apply filter_congr
  intro row _
  rw [Function.comp_apply]
  split
  · rw [names]
  · rfl

theorem filter_segment_comm (blocks : List BlockRow) (kept : BlockRow → Bool) :
    (blocks.filter kept).filter (fun block => block.segmentId = segmentId) =
      (blocks.filter fun block => block.segmentId = segmentId).filter kept := by
  rw [filter_filter, filter_filter]
  apply filter_congr
  intro block _
  rw [Bool.and_comm]

theorem slice_onIndex (action : RecoveryAction) :
    (action.onIndex index).slice segmentId = action.onIndex (index.slice segmentId) := by
  cases action with
  | forget other =>
    change slice (forgetSegment _ _) _ = _
    rw [slice, forgetSegment]
    congr 1
    · dsimp only
      rw [slice, filter_filter, filter_filter]
      apply filter_congr
      intro row _
      rw [Bool.and_comm]
    · exact filter_segment_comm _ _
  | dropMappings other =>
    rw [RecoveryAction.onIndex, RecoveryAction.onIndex, dropSegmentMappings,
      slice_updateSegment (by exact fun _ => rfl), dropSegmentMappings]
    congr 1
    rw [slice, slice]
    congr 1
    exact filter_segment_comm _ _
  | repair other fileLen =>
    rw [RecoveryAction.onIndex, RecoveryAction.onIndex, repairSegmentToLength,
      slice_updateSegment (by exact fun _ => rfl), repairSegmentToLength]
    have left := @filter_segment_comm segmentId index.blocks fun row =>
      ¬(row.segmentId = other ∧ fileLen < row.recordOffset + row.recordLen)
    rw [slice, slice]
    dsimp only
    rw [← left]
    generalize index.blocks.filter _ = kept
    rw [updateSegment, updateSegment]
    congr 1
    apply map_congr_left
    intro row member
    have inside := of_decide_eq_true (mem_filter.mp member).2
    split
    · rename_i here
      have same : other = segmentId := here.symm.trans inside
      have tally : tallyIn segmentId (kept.filter fun block => block.segmentId = segmentId) =
          tallyIn segmentId kept :=
        tallyIn_filter_of_kept fun _ _ inSegment => decide_eq_true inSegment
      have again : (kept.filter fun block => block.segmentId = segmentId).filter
          (fun block => block.segmentId = segmentId) =
            kept.filter fun block => block.segmentId = segmentId := by
        rw [filter_filter]
        simp
      rw [same, tally, again]
    · rfl
  | setSealed other => exact slice_updateSegment fun _ => rfl
  | retire other =>
    apply slice_updateSegment
    intro row
    rw [retireEmpty]
    split <;> rfl
  | remove | setLen | syncFile | removeStage | syncDirectory => rfl

theorem updateSegment_slice_other (apart : other ≠ segmentId) :
    (index.slice segmentId).updateSegment other change = index.slice segmentId := by
  rw [updateSegment]
  have same : (index.slice segmentId).segments.map
      (fun row => if row.segmentId = other then change row else row) =
        (index.slice segmentId).segments := by
    refine (map_congr_left ?_).trans (map_id' _)
    intro row member
    have inside := of_decide_eq_true (mem_filter.mp member).2
    exact if_neg fun here => apart (here.symm.trans inside)
  rw [same]

theorem filter_slice_eq {kept : BlockRow → Bool}
    (keeps : ∀ block ∈ index.blocks, block.segmentId = segmentId → kept block = true) :
    { index.slice segmentId with blocks := (index.slice segmentId).blocks.filter kept } =
      index.slice segmentId := by
  have same : (index.slice segmentId).blocks.filter kept = (index.slice segmentId).blocks := by
    apply filter_eq_self.mpr
    intro block member
    rcases mem_filter.mp member with ⟨listed, inside⟩
    exact keeps block listed (of_decide_eq_true inside)
  rw [same]

theorem onIndex_slice_other (apart : action.segmentId ≠ some segmentId) :
    action.onIndex (index.slice segmentId) = index.slice segmentId := by
  have differ : ∀ other, action.segmentId = some other → other ≠ segmentId :=
    fun other about same => apart (about.trans (congrArg some same))
  cases action with
  | forget other =>
    have elsewhere := differ other rfl
    rw [RecoveryAction.onIndex, forgetSegment]
    have rows : (index.slice segmentId).segments.filter (fun row => row.segmentId ≠ other) =
        (index.slice segmentId).segments := by
      apply filter_eq_self.mpr
      intro row member
      have inside := of_decide_eq_true (mem_filter.mp member).2
      exact decide_eq_true fun same => elsewhere (same.symm.trans inside)
    rw [rows]
    exact filter_slice_eq fun block _ inside =>
      decide_eq_true fun same => elsewhere (same.symm.trans inside)
  | dropMappings other =>
    have elsewhere := differ other rfl
    rw [RecoveryAction.onIndex, dropSegmentMappings, filter_slice_eq,
      updateSegment_slice_other elsewhere]
    exact fun block _ inside => decide_eq_true fun same => elsewhere (same.symm.trans inside)
  | repair other fileLen =>
    have elsewhere := differ other rfl
    rw [RecoveryAction.onIndex, repairSegmentToLength, filter_slice_eq,
      updateSegment_slice_other elsewhere]
    exact fun block _ inside =>
      decide_eq_true fun both => elsewhere (both.1.symm.trans inside)
  | setSealed other => exact updateSegment_slice_other (differ other rfl)
  | retire other => exact updateSegment_slice_other (differ other rfl)
  | remove | setLen | syncFile | removeStage | syncDirectory => rfl

theorem slice_foldl (actions : List RecoveryAction) :
    (actions.foldl RecoveryAction.onIndex index).slice segmentId =
      (actions.filter fun action => action.segmentId = some segmentId).foldl
        RecoveryAction.onIndex (index.slice segmentId) := by
  induction actions generalizing index with
  | nil => rfl
  | cons action actions induction =>
    rw [foldl_cons, induction, slice_onIndex, filter_cons]
    split
    · rfl
    · rename_i elsewhere
      rw [onIndex_slice_other fun about => elsewhere (decide_eq_true about)]

theorem filter_plans {plan : SegmentRow → List RecoveryAction} {rows : List SegmentRow}
    {row : SegmentRow}
    (about : ∀ row, ∀ action ∈ plan row, action.segmentId = some row.segmentId)
    (distinct : rows.Pairwise fun first second => first.segmentId ≠ second.segmentId)
    (listed : row ∈ rows) :
    (rows.flatMap plan).filter (fun action => action.segmentId = some row.segmentId) =
      plan row := by
  have own : ∀ row, (plan row).filter (fun action => action.segmentId = some row.segmentId) =
      plan row :=
    fun row => filter_eq_self.mpr fun action member => decide_eq_true (about row action member)
  have others : ∀ other, other.segmentId ≠ row.segmentId →
      (plan other).filter (fun action => action.segmentId = some row.segmentId) = [] := by
    intro other apart
    apply filter_eq_nil_iff.mpr
    intro action member here
    have same := (about other action member).symm.trans (of_decide_eq_true here)
    exact apart (Option.some.inj same)
  induction rows with
  | nil => cases listed
  | cons first rows induction =>
    rw [pairwise_cons] at distinct
    rw [flatMap_cons, filter_append]
    rcases mem_cons.mp listed with rfl | later
    · have rest : (rows.flatMap plan).filter
          (fun action => action.segmentId = some row.segmentId) = [] := by
        rw [filter_flatMap]
        apply flatMap_eq_nil_iff.mpr
        intro other member
        exact others other (Ne.symm (distinct.1 other member))
      rw [own, rest, append_nil]
    · rw [others first (distinct.1 row later), induction distinct.2 later, nil_append]

end Slices

/-! ## What an open leaves -/

/-- No row is active, and those that nothing is mapped into are retired. -/
structure Closed (index : BlockIndex) : Prop where
  sealed : ∀ row ∈ index.segments, row.state ≠ .active
  retired : ∀ row ∈ index.segments, index.mappedTo row.segmentId = [] → row.state = .retired

section Outcomes

variable {removable stageRemovable : Nat → Bool} {directory : Directory} {index : BlockIndex}
  {row : SegmentRow} {blocks : List BlockRow} {next : Option Nat}

theorem segmentId_of_rowPlan (member : action ∈ rowPlan removable directory row) :
    action.segmentId = some row.segmentId := by
  rw [rowPlan] at member
  split at member
  · split at member
    · cases member
    · split at member
      · rcases mem_cons.mp member with rfl | rest
        · rfl
        · rw [mem_singleton.mp rest]
          rfl
      · rw [mem_singleton.mp member]
        rfl
  · split at member
    · rcases mem_cons.mp member with rfl | rest
      · rfl
      · rw [mem_singleton.mp rest]
        rfl
    · split at member
      · rcases mem_cons.mp member with rfl | rest
        · rfl
        · rw [mem_singleton.mp rest]
          rfl
      · split at member
        · rw [mem_singleton.mp member]
          rfl
        · cases member

theorem segmentId_of_closePlan (member : action ∈ closePlan row) :
    action.segmentId = some row.segmentId := by
  rw [closePlan] at member
  split at member
  · split at member
    · rw [mem_singleton.mp member]
      rfl
    · rw [mem_singleton.mp member]
      rfl
  · cases member

theorem segmentId_of_retirePlan (member : action ∈ retirePlan row) :
    action.segmentId = some row.segmentId := by
  rw [retirePlan] at member
  split at member
  · rw [mem_singleton.mp member]
    rfl
  · cases member

theorem filter_orphan_actions {known : List Nat} {segmentId : Nat} (listed : segmentId ∈ known)
    (names : List Nat) (kept : Nat → Bool) {action : Nat → RecoveryAction}
    (about : ∀ name, (action name).segmentId = some name) :
    ((names.filter fun name => name ∉ known && kept name).map action).filter
      (fun action => action.segmentId = some segmentId) = [] := by
  apply filter_eq_nil_iff.mpr
  intro made member here
  rcases mem_map.mp member with ⟨name, found, rfl⟩
  have isName := (about name).symm.trans (of_decide_eq_true here)
  rw [Option.some.inj isName] at found
  have unknown := (Bool.and_eq_true_iff.mp (mem_filter.mp found).2).1
  exact of_decide_eq_true unknown listed

theorem slice_recover (coherent : Coherent index) (listed : row ∈ index.segments) :
    (recover removable stageRemovable index directory).1.index.slice row.segmentId =
      (rowPlan removable directory row ++ (closePlan row ++ retirePlan row)).foldl
        RecoveryAction.onIndex (index.slice row.segmentId) := by
  have known : row.segmentId ∈ index.segments.map segmentId :=
    mem_map_of_mem listed
  have sync : [RecoveryAction.syncDirectory].filter
      (fun action => action.segmentId = some row.segmentId) = [] := rfl
  rw [recover_eq_plan coherent.segments, RecoveryAction.index_run, slice_foldl, recoveryPlan]
  dsimp only
  rw [filter_append, filter_append, filter_append, filter_append,
    filter_append,
    filter_plans (fun _ _ => segmentId_of_rowPlan) coherent.segments listed,
    filter_plans (fun _ _ => segmentId_of_closePlan) coherent.segments listed,
    filter_plans (fun _ _ => segmentId_of_retirePlan) coherent.segments listed,
    filter_orphan_actions known _ _ fun _ => rfl, filter_orphan_actions known _ _ fun _ => rfl,
    sync, append_nil, append_nil, append_nil, append_assoc]

theorem filter_segment_row {rows : List SegmentRow}
    (distinct : rows.Pairwise fun first second => first.segmentId ≠ second.segmentId)
    (listed : row ∈ rows) :
    rows.filter (fun other => other.segmentId = row.segmentId) = [row] := by
  induction rows with
  | nil => cases listed
  | cons first rows induction =>
    rw [pairwise_cons] at distinct
    rcases mem_cons.mp listed with rfl | later
    · have rest : rows.filter (fun other => other.segmentId = row.segmentId) = [] := by
        apply filter_eq_nil_iff.mpr
        intro other member same
        exact distinct.1 other member (of_decide_eq_true same).symm
      rw [filter_cons_of_pos (by simp), rest]
    · have apart : first.segmentId ≠ row.segmentId := distinct.1 row later
      rw [filter_cons_of_neg (by simpa using apart), induction distinct.2 later]

theorem slice_eq (coherent : Coherent index) (listed : row ∈ index.segments) :
    index.slice row.segmentId =
      { segments := [row], blocks := index.mappedTo row.segmentId
        nextSegmentId := index.nextSegmentId } := by
  rw [slice, filter_segment_row coherent.segments listed]
  rfl

theorem updateSegment_single {segmentId : Nat} (here : row.segmentId = segmentId) :
    BlockIndex.updateSegment { segments := [row], blocks := blocks, nextSegmentId := next }
        segmentId change =
      { segments := [change row], blocks := blocks, nextSegmentId := next } := by
  rw [updateSegment]
  dsimp only
  rw [map_singleton, if_pos here]

theorem closed_single (inside : ∀ block ∈ blocks, block.segmentId = row.segmentId) :
    Closed { segments := [row], blocks := blocks, nextSegmentId := next } ↔
      row.state ≠ .active ∧ (blocks = [] → row.state = .retired) := by
  have mapped : mappedTo
      { segments := [row], blocks := blocks, nextSegmentId := next } row.segmentId = blocks :=
    filter_eq_self.mpr fun block member => decide_eq_true (inside block member)
  constructor
  · intro closed
    have here := mem_singleton.mpr (Eq.refl row)
    exact ⟨closed.sealed row here, fun empty => closed.retired row here (mapped.trans empty)⟩
  · rintro ⟨sealed, retired⟩
    refine ⟨?_, ?_⟩
    · intro other member
      rw [mem_singleton.mp member]
      exact sealed
    · intro other member empty
      rw [mem_singleton.mp member] at empty ⊢
      exact retired (mapped.symm.trans empty)

theorem closed_of_row {found : SegmentRow} {blocks : List BlockRow} {next : Option Nat}
    (same : row.segmentId = found.segmentId) (state : row.state = found.state)
    (live : found.state ≠ .retired)
    (inside : ∀ block ∈ blocks, block.segmentId = row.segmentId)
    (counted : row.live.blocks = (blocks.length : Int))
    (fewer : found.live.blocks = 0 → blocks = []) :
    Closed ((closePlan found ++ retirePlan found).foldl RecoveryAction.onIndex
        { segments := [row], blocks := blocks, nextSegmentId := next }) ↔
      ¬(found.state = .active ∧ found.live.blocks = 0 ∧ found.durableEnd ≤ segmentHeaderLen) ∧
        (found.live.blocks ≠ 0 → blocks ≠ []) := by
  have empties : found.live.blocks = 0 → row.live.blocks = 0 := by
    intro empty
    rw [counted, fewer empty]
    rfl
  have retireOf : ∀ changed : SegmentRow, changed.segmentId = found.segmentId →
      RecoveryAction.onIndex { segments := [changed], blocks := blocks, nextSegmentId := next }
          (.retire found.segmentId) =
        { segments := [changed.retireEmpty], blocks := blocks, nextSegmentId := next } :=
    fun _ here => updateSegment_single here
  have sealOf : RecoveryAction.onIndex
      { segments := [row], blocks := blocks, nextSegmentId := next }
        (.setSealed found.segmentId) =
      { segments := [{ row with state := .sealed }], blocks := blocks, nextSegmentId := next } :=
    updateSegment_single same
  have retires : ∀ changed : SegmentRow, changed.live = row.live → found.live.blocks = 0 →
      changed.state ≠ .active → changed.retireEmpty = { changed with state := .retired } := by
    intro changed sameLive empty closed
    rw [retireEmpty, if_pos ⟨by rw [sameLive]; exact empties empty, closed⟩]
  have inState : ∀ state : SegmentState,
      Closed { segments := [{ row with state := state }], blocks := blocks
               nextSegmentId := next } ↔
        state ≠ .active ∧ (blocks = [] → state = .retired) :=
    fun _ => closed_single inside
  by_cases empty : found.live.blocks = 0
  · have retirePlanned : retirePlan found = [.retire found.segmentId] := if_pos ⟨live, empty⟩
    by_cases active : found.state = .active
    · by_cases short : found.durableEnd ≤ segmentHeaderLen
      · -- The update that would retire the row passes over it while it is active.
        have closePlanned : closePlan found = [.retire found.segmentId] := by
          rw [closePlan, if_pos active, if_pos ⟨empty, short⟩]
        have stays : row.retireEmpty = row := by
          rw [retireEmpty, if_neg fun both => both.2 (state.trans active)]
        rw [closePlanned, retirePlanned, singleton_append, foldl_cons, foldl_cons,
          foldl_nil, retireOf row same, stays, retireOf row same, stays, closed_single inside]
        constructor
        · exact fun closed => absurd (state.trans active) closed.1
        · exact fun holds => absurd ⟨active, empty, short⟩ holds.1
      · have closePlanned : closePlan found = [.setSealed found.segmentId] := by
          rw [closePlan, if_pos active, if_neg fun both => short both.2]
        rw [closePlanned, retirePlanned, singleton_append, foldl_cons, foldl_cons,
          foldl_nil, sealOf, retireOf { row with state := .sealed } same,
          retires { row with state := .sealed } rfl empty (by rintro ⟨⟩), inState]
        constructor
        · exact fun _ => ⟨fun both => short both.2.2, fun some => absurd empty some⟩
        · exact fun _ => ⟨by decide, fun _ => rfl⟩
    · have closePlanned : closePlan found = [] := if_neg active
      have closedRow : row.state ≠ .active := fun isActive => active (state.symm.trans isActive)
      rw [closePlanned, retirePlanned, nil_append, foldl_cons, foldl_nil,
        retireOf row same, retires row rfl empty closedRow, inState]
      constructor
      · exact fun _ => ⟨fun both => active both.1, fun some => absurd empty some⟩
      · exact fun _ => ⟨by decide, fun _ => rfl⟩
  · have retirePlanned : retirePlan found = [] := if_neg fun both => empty both.2
    have result : Closed ((closePlan found ++ retirePlan found).foldl RecoveryAction.onIndex
        { segments := [row], blocks := blocks, nextSegmentId := next }) ↔ blocks ≠ [] := by
      by_cases active : found.state = .active
      · have closePlanned : closePlan found = [.setSealed found.segmentId] := by
          rw [closePlan, if_pos active, if_neg fun both => empty both.1]
        rw [closePlanned, retirePlanned, append_nil, foldl_cons, foldl_nil, sealOf,
          inState]
        constructor
        · exact fun closed none => absurd (closed.2 none) (by decide)
        · exact fun some => ⟨by decide, fun none => absurd none some⟩
      · have closePlanned : closePlan found = [] := if_neg active
        rw [closePlanned, retirePlanned, append_nil, foldl_nil, closed_single inside]
        constructor
        · exact fun closed none => live (state.symm.trans (closed.2 none))
        · exact fun some => ⟨fun isActive => active (state.symm.trans isActive),
            fun none => absurd none some⟩
    rw [result]
    constructor
    · exact fun some => ⟨fun both => empty both.2.1, fun _ => some⟩
    · exact fun holds => holds.2 empty

/-- What an open needs to find of a row to close it: that the file or the row is gone, or else
that the row is not an active one that counts nothing behind its header, and that a file that is
too short still holds one of the records mapped into it. -/
def SegmentRow.Closes (index : BlockIndex) (directory : Directory) (row : SegmentRow) : Prop :=
  row.state = .retired ∨ row.segmentId ∉ directory.names ∨
    ¬(row.state = .active ∧ row.live.blocks = 0 ∧ row.durableEnd ≤ segmentHeaderLen) ∧
      ((directory.file row.segmentId).bytes.length < row.durableEnd → row.live.blocks ≠ 0 →
        ∃ block ∈ index.mappedTo row.segmentId,
          block.recordOffset + block.recordLen ≤ (directory.file row.segmentId).bytes.length)

theorem liveIn_eq_length_mappedTo (index : BlockIndex) (segmentId : Nat) :
    liveIn segmentId index.blocks = (index.mappedTo segmentId).length :=
  countP_eq_length_filter

theorem closed_of_forgotten {segmentId : Nat} {actions : List RecoveryAction}
    (inside : ∀ row ∈ index.segments, row.segmentId = segmentId) :
    Closed (actions.foldl RecoveryAction.onIndex (index.forgetSegment segmentId)) := by
  have none : (index.forgetSegment segmentId).segments = [] := by
    apply filter_eq_nil_iff.mpr
    intro row member kept
    exact of_decide_eq_true kept (inside row member)
  have stays : ∀ (actions : List RecoveryAction) (index : BlockIndex), index.segments = [] →
      (actions.foldl RecoveryAction.onIndex index).segments = [] := by
    intro actions
    induction actions with
    | nil => exact fun _ empty => empty
    | cons action actions induction =>
      intro index empty
      apply induction
      cases action with
      | forget other =>
        change List.filter _ _ = []
        rw [empty]
        rfl
      | dropMappings other | repair other fileLen | setSealed other | retire other =>
        change List.map _ _ = []
        rw [empty]
        rfl
      | remove | setLen | syncFile | removeStage | syncDirectory => exact empty
  have empty := stays actions _ none
  refine ⟨?_, ?_⟩
  · intro row member
    rw [empty] at member
    cases member
  · intro row member
    rw [empty] at member
    cases member

theorem closed_repaired {fileLen : Nat} (inside : ∀ block ∈ blocks, block.segmentId = row.segmentId)
    (none : row.live.blocks = 0 → blocks = []) (live : row.state ≠ .retired) :
    Closed ((closePlan row ++ retirePlan row).foldl RecoveryAction.onIndex
        ([RecoveryAction.repair row.segmentId fileLen].foldl RecoveryAction.onIndex
          { segments := [row], blocks := blocks, nextSegmentId := next })) ↔
      ¬(row.state = .active ∧ row.live.blocks = 0 ∧ row.durableEnd ≤ segmentHeaderLen) ∧
        (row.live.blocks ≠ 0 →
          ∃ block ∈ blocks, block.recordOffset + block.recordLen ≤ fileLen) := by
  rw [foldl_cons, foldl_nil, RecoveryAction.onIndex, repairSegmentToLength]
  dsimp only
  rw [updateSegment_single rfl]
  have survives : blocks.filter (fun block =>
      ¬(block.segmentId = row.segmentId ∧ fileLen < block.recordOffset + block.recordLen)) ≠ [] ↔
        ∃ block ∈ blocks, block.recordOffset + block.recordLen ≤ fileLen := by
    rw [Ne, filter_eq_nil_iff, not_forall]
    apply exists_congr
    intro block
    rw [Classical.not_imp]
    apply and_congr_right
    intro member
    rw [not_not, decide_eq_true_eq, not_and]
    exact ⟨fun fits => Nat.le_of_not_lt (fits (inside block member)),
      fun fits _ => Nat.not_lt.mpr fits⟩
  rw [← survives]
  generalize left : blocks.filter (fun block =>
    ¬(block.segmentId = row.segmentId ∧ fileLen < block.recordOffset + block.recordLen)) = kept
  have fewer : kept ⊆ blocks := left ▸ filter_subset_self _
  have keptInside : ∀ block ∈ kept, block.segmentId = row.segmentId :=
    fun block member => inside block (fewer member)
  refine @closed_of_row _ row kept next rfl rfl live keptInside ?_ ?_
  · dsimp only
    rw [tallyIn_blocks, liveIn, countP_eq_length.mpr]
    exact fun block member => decide_eq_true (keptInside block member)
  · intro empty
    rw [← left, none empty]
    rfl

theorem closed_slice_recover (coherent : Coherent index) (listed : row ∈ index.segments) :
    Closed ((recover removable stageRemovable index directory).1.index.slice row.segmentId) ↔
      row.Closes index directory := by
  have inside : ∀ block ∈ index.mappedTo row.segmentId, block.segmentId = row.segmentId :=
    fun block member => of_decide_eq_true (mem_filter.mp member).2
  have alone : ∀ other ∈ (index.slice row.segmentId).segments,
      other.segmentId = row.segmentId :=
    fun other member => of_decide_eq_true (mem_filter.mp member).2
  have counted : row.live.blocks = ((index.mappedTo row.segmentId).length : Int) := by
    rw [coherent.counted row listed, liveIn_eq_length_mappedTo]
  have none : row.live.blocks = 0 → index.mappedTo row.segmentId = [] := by
    intro empty
    apply eq_nil_of_length_eq_zero
    omega
  -- The row as it is when its file is as long as recorded, or cut back to that.
  have asFound : row.state ≠ .retired →
      (Closed ((closePlan row ++ retirePlan row).foldl RecoveryAction.onIndex
        (index.slice row.segmentId)) ↔
          ¬(row.state = .active ∧ row.live.blocks = 0 ∧ row.durableEnd ≤ segmentHeaderLen)) := by
    intro live
    rw [slice_eq coherent listed, closed_of_row rfl rfl live inside counted none]
    constructor
    · exact And.left
    · refine fun holds => ⟨holds, fun some empty => some ?_⟩
      rw [counted, empty]
      rfl
  rw [slice_recover coherent listed, foldl_append]
  rw [SegmentRow.Closes, rowPlan]
  split
  · rename_i retired
    rw [iff_true_right (.inl retired)]
    split
    · have closePlanned : closePlan row = [] := if_neg (by rw [retired]; rintro ⟨⟩)
      have retirePlanned : retirePlan row = [] := if_neg fun both => both.1 retired
      rw [closePlanned, retirePlanned, slice_eq coherent listed]
      refine (closed_single inside).mpr ⟨by rw [retired]; rintro ⟨⟩, fun _ => retired⟩
    · split
      · exact closed_of_forgotten alone
      · exact closed_of_forgotten alone
  · rename_i live
    rw [or_iff_right live]
    split
    · rename_i absent
      rw [iff_true_right (.inl absent)]
      apply closed_of_forgotten
      intro other member
      rcases mem_updateSegment.mp member with ⟨old, found, rfl⟩
      rw [apply_ite segmentId, ite_self]
      exact alone old found
    · rename_i present
      rw [or_iff_right present]
      split
      · rename_i longer
        refine (asFound live).trans ⟨fun holds => ⟨holds, fun shorter => ?_⟩, And.left⟩
        exact absurd shorter (Nat.lt_asymm longer)
      · split
        · rename_i shorter
          rw [slice_eq coherent listed]
          refine (closed_repaired inside none live).trans (and_congr_right fun _ => ?_)
          exact ⟨fun holds _ => holds, fun holds => holds shorter⟩
        · rename_i same
          exact (asFound live).trans ⟨fun holds => ⟨holds, fun shorter => absurd shorter same⟩,
            And.left⟩

end Outcomes

end Yadorilink.Segments
