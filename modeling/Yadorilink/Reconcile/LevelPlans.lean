import Yadorilink.Projection.HeadRanges
import Yadorilink.Reconcile.NativePass

/-! The plan of one directory level, read from the head table by ranges: whole, for some of its
names, or for a single path. Each answer is the one the projection of the whole tree has. -/

namespace Yadorilink.Reconcile

open Std OrderedMap ExtTreeMap List

/-! ## Plans -/

/-- The kinds of the versions among the heads; a version whose record is missing has none. -/
def lookupKinds (records : VersionHash → Option RecordKind) (heads : List PathHeads) :
    VersionHash → Option (Option RecordKind) := fun version =>
  if heads.any fun pathHeads => pathHeads.toList.any fun head => head.2.version = version then
    some (records version)
  else none

def liveHeads (heads : PathHeads) : List LiveHead :=
  heads.toList.map fun entry => ⟨entry.1, entry.2⟩

/-- `plan_one`, with the kinds that were looked up. -/
def planWith (kinds : VersionHash → Option (Option RecordKind)) (path : SyncPath)
    (heads : PathHeads) (below : Bool) : Option Planned :=
  planOne (fun version => (kinds version).join) path (liveHeads heads) below

def NativeLevelPlan.place (plan : NativeLevelPlan) (path : SyncPath) : Planned → NativeLevelPlan
  | .absent => plan
  | .contested => { plan with contested := plan.contested.insert path }
  | .node node => { plan with nodes := plan.nodes.insert path node }

/-- Plans path after path; a path that cannot be planned ends it. -/
def placeAll (planned : SyncPath → Option Planned) :
    List SyncPath → NativeLevelPlan → Option NativeLevelPlan
  | [], plan => some plan
  | path :: rest, plan => (planned path).bind fun shown => placeAll planned rest (plan.place path shown)

section Plans

variable (heads : HeadMap) (records : VersionHash → Option RecordKind)

def nativePlanLevel (parent : SyncPath) : Option NativeLevelPlan :=
  (nativeHeadsAtLevel heads parent).bind fun level =>
    let kinds := lookupKinds records (level.children.toList.map Prod.snd)
    let candidates := level.withDescendant.insertMany level.children.keys
    placeAll (fun path => planWith kinds path ((level.children[path]?).getD ∅)
      (level.withDescendant.contains path)) candidates.toList ⟨∅, ∅⟩

def planAlone (path : SyncPath) : Option Planned :=
  let pathHeads := (heads[path]?).getD ∅
  planWith (lookupKinds records [pathHeads]) path pathHeads (nativeHasDescendantHead heads path)

def nativePlanNodes (parent : SyncPath) (names : ExtTreeSet SyncPath) : Option NativeLevelPlan :=
  placeAll (planAlone heads records) (names.toList.filter fun name => parentOf name == parent) ⟨∅, ∅⟩

inductive NativeDesiredNode where
  | absent
  | structuralDirectory
  | explicitDirectory (head : NativeLocatedHead)
  | entry (head : NativeLocatedHead) (kind : RecordKind)
deriving DecidableEq

inductive PlanError where
  | corruptState
  | contested (path : SyncPath)
deriving DecidableEq

def NativeDesiredNode.ofPlanned : NativePlannedNode → NativeDesiredNode
  | .structuralDirectory => .structuralDirectory
  | .explicitDirectory head => .explicitDirectory head
  | .entry head kind => .entry head kind

def nativePlanPath (path : SyncPath) : Except PlanError NativeDesiredNode :=
  match planAlone heads records path with
  | none => .error .corruptState
  | some .absent => .ok .absent
  | some .contested => .error (.contested path)
  | some (.node node) => .ok (.ofPlanned node)

end Plans

/-! ## Placing -/

def nodeOf : Planned → Option NativePlannedNode
  | .node node => some node
  | _ => none

theorem getElem?_nodes_place (plan : NativeLevelPlan) (path other : SyncPath) (planned : Planned) :
    (plan.place path planned).nodes[other]? =
      if path = other then (nodeOf planned).or plan.nodes[other]? else plan.nodes[other]? := by
  cases planned with
  | absent => simp [NativeLevelPlan.place, nodeOf]
  | contested => simp [NativeLevelPlan.place, nodeOf]
  | node node =>
    rw [NativeLevelPlan.place, getElem?_insert_eq]
    rfl

theorem mem_contested_place (plan : NativeLevelPlan) (path other : SyncPath) (planned : Planned) :
    other ∈ (plan.place path planned).contested ↔
      other ∈ plan.contested ∨ (path = other ∧ planned = .contested) := by
  cases planned with
  | absent => simp [NativeLevelPlan.place]
  | node node => simp [NativeLevelPlan.place]
  | contested =>
    simp only [NativeLevelPlan.place, ExtTreeSet.mem_insert, LawfulEqCmp.compare_eq_iff_eq,
      and_true]
    exact or_comm

variable {planned : SyncPath → Option Planned}

theorem placeAll_spec {paths : List SyncPath} (plan : NativeLevelPlan)
    (plannable : ∀ path ∈ paths, planned path ≠ none) :
    ∃ result, placeAll planned paths plan = some result ∧ (∀ path, result.nodes[path]? =
        if path ∈ paths then ((planned path).bind nodeOf).or plan.nodes[path]?
        else plan.nodes[path]?) ∧
      ∀ path, path ∈ result.contested ↔
        path ∈ plan.contested ∨ (path ∈ paths ∧ planned path = some .contested) := by
  induction paths generalizing plan with
  | nil => exact ⟨plan, rfl, fun path => by simp, fun path => by simp⟩
  | cons first rest induction =>
    rcases Option.ne_none_iff_exists'.mp (plannable first mem_cons_self) with ⟨shown, here⟩
    rcases induction (plan.place first shown) (fun path member =>
      plannable path (mem_cons_of_mem first member)) with ⟨result, placed, nodes, contested⟩
    refine ⟨result, by rw [placeAll, here]; exact placed, ?_, ?_⟩
    · intro path
      rw [nodes, getElem?_nodes_place]
      by_cases same : first = path
      · subst same
        rw [if_pos rfl, if_pos mem_cons_self, here]
        by_cases later : first ∈ rest
        · rw [if_pos later, Option.bind_some]
          cases nodeOf shown with
          | none => rfl
          | some node => rfl
        · rw [if_neg later]
          rfl
      · rw [if_neg same]
        by_cases later : path ∈ rest
        · rw [if_pos later, if_pos (mem_cons_of_mem first later)]
        · rw [if_neg later, if_neg]
          intro member
          rcases mem_cons.mp member with equal | inRest
          · exact same equal.symm
          · exact later inRest
    · intro path
      rw [contested, mem_contested_place, mem_cons, or_assoc]
      by_cases same : first = path
      · subst same
        simp only [here, Option.some.injEq, true_and, true_or]
        constructor
        · intro held
          rcases held with old | now | later
          · exact .inl old
          · exact .inr now
          · exact .inr later.2
        · intro held
          rcases held with old | now
          · exact .inl old
          · exact .inr (.inl now)
      · have other : ¬path = first := fun equal => same equal.symm
        simp [same, other]

/-! ## What a path is planned to be -/

/-- The node that a settled path is planned as: with the head its projection chose, or the
best-ranked of its directory heads. -/
def PlannedAs (heads : List LiveHead) (records : VersionHash → Option RecordKind)
    (path : SyncPath) : Settled → NativePlannedNode → Prop
  | .entry kind version representative, node =>
    ∃ head ∈ heads, head.dot = representative ∧ head.payload.version = version ∧
      node = .entry ⟨path, head⟩ kind
  | .directory (.explicit version), node =>
    ∃ head, resolveWinner (heads.filter fun head =>
        records head.payload.version = some .directory) = some head ∧
      head.payload.version = version ∧ node = .explicitDirectory ⟨path, head⟩
  | .directory .structural, node => node = .structuralDirectory

section Answers

variable {state : NativeState} {records : VersionHash → Option RecordKind} {path : SyncPath}
  {parent : SyncPath}

def planAt (state : NativeState) (records : VersionHash → Option RecordKind) (path : SyncPath) :
    Option Planned :=
  planOne records path (state.headsAt path) (hasDescendant state path)

theorem planAt_spec (state : NativeState) (records : VersionHash → Option RecordKind)
    (path : SyncPath) :
    ((projectTree state records)[path]? = none ∧ planAt state records path = some .absent) ∨
    (∃ reason, (projectTree state records)[path]? = some (.pending reason) ∧
      planAt state records path = some .contested) ∨
    ∃ shown node, (projectTree state records)[path]? = some (.settled shown) ∧
      PlannedAs (state.headsAt path) records path shown node ∧
      planAt state records path = some (.node node) := by
  rw [getElem?_projectTree, planAt, planOne]
  cases projected : projectionOf state records path with
  | absent =>
    rw [projectionOf] at projected
    rw [projected]
    exact .inl ⟨rfl, rfl⟩
  | pending reason =>
    rw [projectionOf] at projected
    rw [projected]
    exact .inr (.inl ⟨reason, rfl, rfl⟩)
  | settled shown =>
    rw [projectionOf] at projected
    rw [projected]
    refine .inr (.inr ?_)
    cases shown with
    | entry kind version representative =>
      rcases projectPath_entry projected with ⟨_, _, ⟨holder, member, _, dot⟩, versions⟩
      have found : ((state.headsAt path).find? fun head =>
          decide (head.dot = representative)).isSome = true :=
        find?_isSome.mpr ⟨holder, member, decide_eq_true dot⟩
      rcases Option.isSome_iff_exists.mp found with ⟨head, first⟩
      have listed := mem_of_find?_eq_some first
      have matched := find?_some first
      refine ⟨_, .entry ⟨path, head⟩ kind, rfl,
        ⟨head, listed, of_decide_eq_true matched, versions head listed, rfl⟩, ?_⟩
      dsimp only
      rw [first]
      rfl
    | directory directory =>
      cases directory with
      | structural => exact ⟨_, .structuralDirectory, rfl, rfl, rfl⟩
      | explicit version =>
        rcases winner_of_explicit projected with ⟨head, winner, _, _, same⟩
        refine ⟨_, .explicitDirectory ⟨path, head⟩, rfl, ⟨head, winner, same, rfl⟩, ?_⟩
        dsimp only
        rw [bestDirectoryHead, winner]
        rfl

/-! ## What the reads find -/

theorem lookupKinds_of_mem {listed : List PathHeads} {heads : PathHeads} (looked : heads ∈ listed)
    {head : LiveHead} (member : head ∈ liveHeads heads) :
    (lookupKinds records listed head.payload.version).join = records head.payload.version := by
  rcases mem_map.mp member with ⟨entry, stored, rfl⟩
  rw [lookupKinds, if_pos]
  · rfl
  · rw [any_eq_true]
    exact ⟨heads, looked, any_eq_true.mpr ⟨entry, stored, decide_eq_true rfl⟩⟩

theorem planWith_eq {listed : List PathHeads} {heads : PathHeads}
    (known : heads ∈ listed ∨ heads = ∅) (below : Bool) :
    planWith (lookupKinds records listed) path heads below =
      planOne records path (liveHeads heads) below := by
  apply planOne_congr
  intro head member
  rcases known with looked | empty
  · exact lookupKinds_of_mem looked member
  · rw [empty] at member
    cases member

theorem planAlone_eq (plain : PlainTable state.heads) (path : SyncPath) :
    planAlone state.heads records path = planAt state records path := by
  rw [planAlone, planWith_eq (.inl (.head _)), nativeHasDescendantHead_eq plain]
  rfl

theorem planAt_eq_absent (unheld : state.heads[path]? = none)
    (alone : hasDescendant state path = false) : planAt state records path = some .absent := by
  rw [planAt, alone, NativeState.headsAt, NativeState.pathHeads, unheld]
  rfl

theorem mem_candidates {level : NativeLevelHeads} (plain : PlainTable state.heads)
    (read : nativeHeadsAtLevel state.heads parent = some level) :
    path ∈ (level.withDescendant.insertMany level.children.keys).toList ↔
      OnLevel parent path ∧ (state.heads[path]? ≠ none ∨ hasDescendant state path = true) := by
  rcases nativeHeadsAtLevel_spec plain read with ⟨on, off, below⟩
  rw [ExtTreeSet.mem_toList, ExtTreeSet.mem_insertMany_list, List.contains_iff_mem,
    mem_keys_iff, below, nativeHasDescendantHead_eq plain]
  by_cases onLevel : OnLevel parent path
  · rw [on path onLevel, Option.ne_none_iff_exists']
    simp only [onLevel, true_and]
    exact or_comm
  · rw [off path onLevel]
    simp [onLevel]

/-- Where the level is read, each of its paths is planned as its place in the tree calls for. -/
theorem plannedOnLevel_eq {level : NativeLevelHeads} (plain : PlainTable state.heads)
    (read : nativeHeadsAtLevel state.heads parent = some level) (onLevel : OnLevel parent path) :
    planWith (lookupKinds records (level.children.toList.map Prod.snd)) path ((level.children[path]?).getD ∅)
      (level.withDescendant.contains path) = planAt state records path := by
  rcases nativeHeadsAtLevel_spec plain read with ⟨on, _, below⟩
  have known : (level.children[path]?).getD ∅ ∈ level.children.toList.map Prod.snd ∨
      (level.children[path]?).getD ∅ = ∅ := by
    cases stored : level.children[path]? with
    | none => exact .inr rfl
    | some heads =>
      exact .inl (mem_map.mpr ⟨(path, heads),
        mem_toList_iff_getElem?_eq_some.mpr stored, rfl⟩)
  have descends : level.withDescendant.contains path = hasDescendant state path := by
    rw [← nativeHasDescendantHead_eq plain, Bool.eq_iff_iff, ExtTreeSet.contains_iff_mem, below]
    exact ⟨fun both => both.2, fun found => ⟨onLevel, found⟩⟩
  rw [planWith_eq known, descends, on path onLevel]
  rfl

/-! ## Levels and parents -/

theorem rsplitOnce_eq_none {separator : Char} {text : List Char} :
    rsplitOnce separator text = none ↔ separator ∉ text := by
  rw [rsplitOnce]
  split
  · rename_i member
    simp [member]
  · rename_i absent
    simp [absent]

theorem levelLower_of_ne (nested : parent ≠ "") (name : List Char) :
    (levelLower parent).toList ++ name = parent.toList ++ '/' :: name := by
  rw [levelLower, if_neg nested, String.toList_append, append_assoc]
  rfl

theorem parentOf_of_onLevel (onLevel : OnLevel parent path) : parentOf path = parent := by
  rcases onLevel with ⟨name, shape, plainName⟩
  by_cases root : parent = ""
  · subst root
    have plain : '/' ∉ path.toList := by
      rw [shape]
      exact plainName
    rw [parentOf, rsplitOnce_eq_none.mpr plain]
  · rw [levelLower_of_ne root] at shape
    rw [parentOf, shape, rsplitOnce_append plainName]
    exact String.ofList_toList

/-- For a path that no separator starts, being on the level of a parent is having that parent. -/
theorem onLevel_iff_parentOf (start : path.toList.head? ≠ some '/') :
    OnLevel parent path ↔ parentOf path = parent := by
  refine ⟨parentOf_of_onLevel, ?_⟩
  intro above
  by_cases nested : '/' ∈ path.toList
  · rcases exists_of_mem_slash nested with ⟨front, last, whole, fresh⟩
    rw [parentOf, whole, rsplitOnce_append fresh] at above
    have deeper : parent ≠ "" := by
      rintro rfl
      have empty : front = [] := by
        have back := congrArg String.toList above
        rw [String.toList_ofList] at back
        exact back
      rw [whole, empty] at start
      exact start rfl
    refine ⟨last, ?_, fresh⟩
    rw [levelLower_of_ne deeper, ← above, String.toList_ofList]
    exact whole
  · rw [parentOf, rsplitOnce_eq_none.mpr nested] at above
    subst above
    exact ⟨path.toList, rfl, nested⟩

theorem start_of_projectTree (plain : PlainTable state.heads)
    (shown : (projectTree state records)[path]? ≠ none) : path.toList.head? ≠ some '/' := by
  intro start
  apply shown
  have unheld : state.heads[path]? = none := by
    cases stored : state.heads[path]? with
    | none => rfl
    | some heads => exact absurd start (plain.ends path heads stored).start
  have alone : hasDescendant state path = false := by
    rw [← Bool.not_eq_true, hasDescendant_iff]
    intro found
    rcases found with ⟨key, stored, held, rest, whole⟩
    apply (plain.ends key stored held).start
    rw [whole, head?_append, start]
    rfl
  rcases planAt_spec state records path with absent | pending | settled
  · exact absent.1
  · rcases pending with ⟨_, _, planned⟩
    rw [planAt_eq_absent unheld alone] at planned
    cases planned
  · rcases settled with ⟨_, _, _, _, planned⟩
    rw [planAt_eq_absent unheld alone] at planned
    cases planned

/-! ## Plans and the tree -/

theorem eq_of_dot {first second : LiveHead} (firstIn : first ∈ state.headsAt path)
    (secondIn : second ∈ state.headsAt path) (same : first.dot = second.dot) : first = second := by
  rcases mem_map.mp firstIn with ⟨entry, stored, rfl⟩
  rcases mem_map.mp secondIn with ⟨other, otherStored, rfl⟩
  have found := mem_toList_iff_getElem?_eq_some.mp stored
  have otherFound := mem_toList_iff_getElem?_eq_some.mp otherStored
  dsimp only at same
  rw [same, otherFound] at found
  rw [same, Option.some.inj found]

theorem PlannedAs.unique {shown : Settled} {first second : NativePlannedNode}
    (one : PlannedAs (state.headsAt path) records path shown first)
    (other : PlannedAs (state.headsAt path) records path shown second) : first = second := by
  cases shown with
  | entry kind version representative =>
    rcases one with ⟨head, member, dot, _, rfl⟩
    rcases other with ⟨again, memberAgain, dotAgain, _, rfl⟩
    rw [eq_of_dot member memberAgain (dot.trans dotAgain.symm)]
  | directory directory =>
    cases directory with
    | structural => exact one.trans other.symm
    | explicit version =>
      rcases one with ⟨head, winner, _, rfl⟩
      rcases other with ⟨again, winnerAgain, _, rfl⟩
      rw [winner] at winnerAgain
      rw [Option.some.inj winnerAgain]

theorem planAt_node_iff {node : NativePlannedNode} : planAt state records path = some (.node node) ↔
      ∃ shown, (projectTree state records)[path]? = some (.settled shown) ∧
        PlannedAs (state.headsAt path) records path shown node := by
  rcases planAt_spec state records path with absent | pending | settled
  · rcases absent with ⟨tree, planned⟩
    rw [tree, planned]
    simp
  · rcases pending with ⟨reason, tree, planned⟩
    rw [tree, planned]
    simp
  · rcases settled with ⟨shown, planned, tree, as, plan⟩
    rw [tree, plan]
    constructor
    · intro same
      cases same
      exact ⟨shown, rfl, as⟩
    · intro given
      rcases given with ⟨other, same, asOther⟩
      cases same
      rw [as.unique asOther]

theorem planAt_contested_iff : planAt state records path = some .contested ↔
      ∃ reason, (projectTree state records)[path]? = some (.pending reason) := by
  rcases planAt_spec state records path with absent | pending | settled
  · rcases absent with ⟨tree, planned⟩
    rw [tree, planned]
    simp
  · rcases pending with ⟨reason, tree, planned⟩
    rw [tree, planned]
    simp
  · rcases settled with ⟨shown, planned, tree, _, plan⟩
    rw [tree, plan]
    simp

theorem onLevel_of_planned {shown : Planned} (plain : PlainTable state.heads)
    (planned : planAt state records path = some shown) (present : shown ≠ .absent) :
    OnLevel parent path ↔ parentOf path = parent := by
  apply onLevel_iff_parentOf
  apply @start_of_projectTree state records path plain
  intro missing
  rcases planAt_spec state records path with absent | pending | settled
  · rw [absent.2] at planned
    exact present (Option.some.inj planned).symm
  · rcases pending with ⟨reason, tree, _⟩
    rw [missing] at tree
    cases tree
  · rcases settled with ⟨_, _, tree, _, _⟩
    rw [missing] at tree
    cases tree

theorem planAt_ne_none : planAt state records path ≠ none := by
  rcases planAt_spec state records path with absent | pending | settled
  · rw [absent.2]
    exact Option.some_ne_none _
  · rcases pending with ⟨_, _, planned⟩
    rw [planned]
    exact Option.some_ne_none _
  · rcases settled with ⟨_, _, _, _, planned⟩
    rw [planned]
    exact Option.some_ne_none _

theorem nodes_of_placed {planned : Option Planned} {node : NativePlannedNode} :
    planned.bind nodeOf = some node ↔ planned = some (.node node) := by
  cases planned with
  | none => simp
  | some shown =>
    cases shown with
    | absent => simp [nodeOf]
    | contested => simp [nodeOf]
    | node other => simp [nodeOf]

theorem placeAll_empty {paths : List SyncPath} (plannable : ∀ path ∈ paths, planned path ≠ none) :
    ∃ plan, placeAll planned paths ⟨∅, ∅⟩ = some plan ∧
      (∀ path node, plan.nodes[path]? = some node ↔
        path ∈ paths ∧ planned path = some (.node node)) ∧
      ∀ path, path ∈ plan.contested ↔ path ∈ paths ∧ planned path = some .contested := by
  rcases placeAll_spec ⟨∅, ∅⟩ plannable with ⟨plan, placed, nodes, contested⟩
  refine ⟨plan, placed, ?_, ?_⟩
  · intro path node
    rw [nodes, getElem?_empty, Option.or_none]
    split
    · rename_i member
      rw [nodes_of_placed]
      simp [member]
    · rename_i missing
      simp [missing]
  · intro path
    rw [contested]
    constructor
    · intro held
      exact held.resolve_left ExtTreeSet.not_mem_empty
    · exact .inr

theorem nativePlanLevel_spec (plain : PlainTable state.heads) {parent : SyncPath}
    (normalized : parent.toList.getLast? ≠ some '/') :
    ∃ plan, nativePlanLevel state.heads records parent = some plan ∧
      (∀ path node, plan.nodes[path]? = some node ↔
        parentOf path = parent ∧ planAt state records path = some (.node node)) ∧
      ∀ path, path ∈ plan.contested ↔
        parentOf path = parent ∧ planAt state records path = some .contested := by
  have reads : ∃ level, nativeHeadsAtLevel state.heads parent = some level := by
    rw [nativeHeadsAtLevel, if_neg normalized]
    exact ⟨_, rfl⟩
  rcases reads with ⟨level, read⟩
  have candidate : ∀ path, path ∈ (level.withDescendant.insertMany level.children.keys).toList →
      OnLevel parent path := fun path member => ((mem_candidates plain read).mp member).1
  have agree : ∀ path shown, shown ≠ .absent →
      (path ∈ (level.withDescendant.insertMany level.children.keys).toList ∧
        planWith (lookupKinds records (level.children.toList.map Prod.snd)) path
          ((level.children[path]?).getD ∅) (level.withDescendant.contains path) = some shown ↔
      parentOf path = parent ∧ planAt state records path = some shown) := by
    intro path shown present
    constructor
    · intro both
      rcases both with ⟨member, planned⟩
      have onLevel := candidate path member
      rw [plannedOnLevel_eq plain read onLevel] at planned
      exact ⟨parentOf_of_onLevel onLevel, planned⟩
    · intro both
      rcases both with ⟨above, planned⟩
      have onLevel := (onLevel_of_planned plain planned present).mpr above
      refine ⟨(mem_candidates plain read).mpr ⟨onLevel, ?_⟩, ?_⟩
      · by_contra neither
        rw [not_or, not_not, Bool.not_eq_true] at neither
        rw [planAt_eq_absent neither.1 neither.2] at planned
        exact present (Option.some.inj planned).symm
      · rw [plannedOnLevel_eq plain read onLevel]
        exact planned
  have plannable : ∀ path ∈ (level.withDescendant.insertMany level.children.keys).toList,
      planWith (lookupKinds records (level.children.toList.map Prod.snd)) path
        ((level.children[path]?).getD ∅) (level.withDescendant.contains path) ≠ none := by
    intro path member
    rw [plannedOnLevel_eq plain read (candidate path member)]
    exact planAt_ne_none
  rcases placeAll_empty plannable with ⟨plan, placed, nodes, contested⟩
  refine ⟨plan, ?_, ?_, ?_⟩
  · rw [nativePlanLevel, read]
    exact placed
  · intro path node
    rw [nodes]
    exact agree path (.node node) (by simp)
  · intro path
    rw [contested]
    exact agree path .contested (by simp)

theorem nativePlanNodes_spec (plain : PlainTable state.heads) (parent : SyncPath)
    (names : ExtTreeSet SyncPath) :
    ∃ plan, nativePlanNodes state.heads records parent names = some plan ∧
      (∀ path node, plan.nodes[path]? = some node ↔ path ∈ names ∧
        parentOf path = parent ∧ planAt state records path = some (.node node)) ∧
      ∀ path, path ∈ plan.contested ↔ path ∈ names ∧
        parentOf path = parent ∧ planAt state records path = some .contested := by
  have listed : ∀ path, path ∈ names.toList.filter (fun name => parentOf name == parent) ↔
      path ∈ names ∧ parentOf path = parent := by
    intro path
    rw [mem_filter, ExtTreeSet.mem_toList, beq_iff_eq]
  have plannable : ∀ path ∈ names.toList.filter (fun name => parentOf name == parent),
      planAlone state.heads records path ≠ none := by
    intro path _
    rw [planAlone_eq plain]
    exact planAt_ne_none
  rcases placeAll_empty plannable with ⟨plan, placed, nodes, contested⟩
  refine ⟨plan, placed, ?_, ?_⟩
  · intro path node
    rw [nodes, listed, planAlone_eq plain, and_assoc]
  · intro path
    rw [contested, listed, planAlone_eq plain, and_assoc]

end Answers

/-- Level plans agree with the projection of the whole tree. The nodes of a level's plan are the
settled paths of the tree with that parent, each with the head its projection chose or its best
directory head, and its contested paths are the pending ones; planning some of the names, or a
single path, gives the same answers. -/
theorem level_plans_agree (state : NativeState) (records : VersionHash → Option RecordKind)
    (valid : ∀ path stored, state.heads[path]? = some stored → validatePath path = .ok ())
    (held : NoEmptyPath state.heads) :
    (∀ parent : SyncPath, parent.toList.getLast? ≠ some '/' →
      ∃ plan, nativePlanLevel state.heads records parent = some plan ∧
        (∀ path node, plan.nodes[path]? = some node ↔ parentOf path = parent ∧
          ∃ shown, (projectTree state records)[path]? = some (.settled shown) ∧
            PlannedAs (state.headsAt path) records path shown node) ∧
        (∀ path, path ∈ plan.contested ↔ parentOf path = parent ∧
          ∃ reason, (projectTree state records)[path]? = some (.pending reason)) ∧
        ∀ names, ∃ some_, nativePlanNodes state.heads records parent names = some some_ ∧
          (∀ path node, some_.nodes[path]? = some node ↔
            path ∈ names ∧ plan.nodes[path]? = some node) ∧
          ∀ path, path ∈ some_.contested ↔ path ∈ names ∧ path ∈ plan.contested) ∧
    ∀ path, ((projectTree state records)[path]? = none →
        nativePlanPath state.heads records path = .ok .absent) ∧
      (∀ reason, (projectTree state records)[path]? = some (.pending reason) →
        nativePlanPath state.heads records path = .error (.contested path)) ∧
      ∀ shown, (projectTree state records)[path]? = some (.settled shown) →
        ∃ node, PlannedAs (state.headsAt path) records path shown node ∧
          nativePlanPath state.heads records path = .ok (.ofPlanned node) := by
  have plain : PlainTable state.heads :=
    ⟨fun path stored found => plainEnds_of_validatePath (valid path stored found), held⟩
  refine ⟨?_, ?_⟩
  · intro parent normalized
    rcases @nativePlanLevel_spec state records plain parent normalized with
      ⟨plan, planned, nodes, contested⟩
    refine ⟨plan, planned, ?_, ?_, ?_⟩
    · intro path node
      rw [nodes, planAt_node_iff]
    · intro path
      rw [contested, planAt_contested_iff]
    · intro names
      rcases @nativePlanNodes_spec state records plain parent names with
        ⟨some_, plannedSome, someNodes, someContested⟩
      refine ⟨some_, plannedSome, ?_, ?_⟩
      · intro path node
        rw [someNodes, nodes]
      · intro path
        rw [someContested, contested]
  · intro path
    rw [nativePlanPath, planAlone_eq plain]
    rcases planAt_spec state records path with absent | pending | settled
    · rcases absent with ⟨tree, planned⟩
      rw [tree, planned]
      simp
    · rcases pending with ⟨reason, tree, planned⟩
      rw [tree, planned]
      simp
    · rcases settled with ⟨shown, node, tree, as, planned⟩
      rw [tree, planned]
      refine ⟨by simp, by simp, ?_⟩
      intro other same
      cases same
      exact ⟨node, as, rfl⟩

namespace SampleTree

/-- One file in one directory that has no head of its own. -/
def state : NativeState where
  context := ∅
  heads := (∅ : HeadMap).insert "d/x" ((∅ : PathHeads).insert ⟨⟨"laptop", 1⟩, 1⟩ ⟨⟨1⟩, ⟨1⟩⟩)

end SampleTree

open SampleTree in
/-- The directory of the file is on the level of the root. -/
theorem level_plans_agree_structural :
    ∃ plan, nativePlanLevel state.heads (fun _ => some .file) "" = some plan ∧
      plan.nodes["d"]? = some .structuralDirectory := by
  have agree := level_plans_agree state (fun _ => some .file) (by
    intro path stored found
    rw [state, getElem?_insert_eq] at found
    split at found
    · rename_i same
      rw [← same]
      decide
    · cases found) (by
    intro path stored found
    rw [state, getElem?_insert_eq] at found
    split at found
    · cases found
      decide
    · cases found)
  rcases agree.1 "" (by decide) with ⟨plan, planned, nodes, _⟩
  refine ⟨plan, planned, (nodes _ _).mpr ⟨by decide, .directory .structural, ?_, rfl⟩⟩
  rw [getElem?_projectTree]
  decide

end Yadorilink.Reconcile
