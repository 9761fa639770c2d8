import Yadorilink.Foundation.DepthFirst
import Yadorilink.Foundation.OrderedMap

/-! The heads of a history, computed from the definition and nothing else. A
change supersedes another at a path through the transitive closure of basis
edges; the heads of a history are the changes that land content and that no
change of the history supersedes. The functions only compare change
identifiers, so they are stated for any ordered identifier type. -/

namespace Yadorilink.Oracle

open Std ExtTreeSet List

/-! ## Changes -/

/-- What an operation does at its path. -/
inductive Effect (Version : Type) where
  | put (version : Version)
  | delete
deriving DecidableEq

/-- One touched path of a change; `basis` names the changes this operation
supersedes there. -/
structure Op (ChangeId Version : Type) where
  path : String
  effect : Effect Version
  basis : List ChangeId

structure Change (ChangeId Version : Type) where
  id : ChangeId
  ops : List (Op ChangeId Version)

variable {ChangeId Version : Type}

def Effect.isPut : Effect Version → Bool
  | .put _ => true
  | .delete => false

namespace Change

/-- Whether any operation of the change is at `path`. -/
def touched (change : Change ChangeId Version) (path : String) : Bool :=
  change.ops.any fun op => op.path = path

def lands (change : Change ChangeId Version) (path : String) : Bool :=
  change.ops.any fun op => op.path = path && op.effect.isPut

/-- Whether `member` is in the basis of any operation at `path`. -/
def inBasis [DecidableEq ChangeId] (change : Change ChangeId Version) (path : String)
    (member : ChangeId) : Bool :=
  change.ops.any fun op => op.path = path && op.basis.contains member

/-- Every basis member of every operation at `path`. -/
def basisAt (change : Change ChangeId Version) (path : String) : List ChangeId :=
  (change.ops.filter fun op => op.path = path).flatMap fun op => op.basis

theorem inBasis_iff [DecidableEq ChangeId] (change : Change ChangeId Version) (path : String)
    (member : ChangeId) :
    change.inBasis path member = true ↔ member ∈ change.basisAt path := by
  simp [inBasis, basisAt, any_eq_true, mem_flatMap, mem_filter, and_assoc]

theorem touched_of_mem_basisAt {change : Change ChangeId Version} {path : String}
    {member : ChangeId} (inBasis : member ∈ change.basisAt path) :
    change.touched path = true := by
  rcases mem_flatMap.mp inBasis with ⟨op, selected, _⟩
  rw [mem_filter] at selected
  exact any_eq_true.mpr ⟨op, selected.1, selected.2⟩

end Change

/-! ## Supersession -/

variable [Ord ChangeId]

abbrev Universe (ChangeId Version : Type) [Ord ChangeId] :=
  ExtTreeMap ChangeId (Change ChangeId Version)

abbrev History (ChangeId : Type) [Ord ChangeId] := ExtTreeSet ChangeId

variable [TransOrd ChangeId] [LawfulEqOrd ChangeId] [DecidableEq ChangeId]

/-- The recursive search behind `supersedes`. Each level of the recursion marks
another change of the universe as visited, so the universe's size bounds its
depth. -/
def supersedesFrom (universe_ : Universe ChangeId Version) (path : String) (x : ChangeId) :
    Nat → ChangeId → List ChangeId → Bool × List ChangeId
  | 0, _, visited => (false, visited)
  | depth + 1, y, visited =>
    match universe_[y]? with
    | none => (false, visited)
    | some change =>
      if !change.touched path then
        (false, visited)
      else if change.inBasis path x then
        (true, visited)
      else if y ∈ visited then
        (false, visited)
      else
        DepthFirst.visitAny (supersedesFrom universe_ path x depth)
          (change.basisAt path) (y :: visited)

/-- Whether `y` supersedes `x` at `path` through basis edges. -/
def supersedes (universe_ : Universe ChangeId Version) (path : String) (x y : ChangeId) : Bool :=
  (supersedesFrom universe_ path x (universe_.size + 1) y []).1

/-! ## Heads -/

def isHead (universe_ : Universe ChangeId Version) (history : History ChangeId) (path : String)
    (x : ChangeId) : Bool :=
  history.contains x &&
    (universe_[x]?).any (fun change => change.lands path) &&
    !history.toList.any fun y => supersedes universe_ path x y

def headsAt (universe_ : Universe ChangeId Version) (history : History ChangeId)
    (path : String) : ExtTreeSet ChangeId :=
  ExtTreeSet.ofList (history.toList.filter (isHead universe_ history path)) compare

/-! ## The search computes the transitive closure -/

def BasisEdge (universe_ : Universe ChangeId Version) (path : String) (y member : ChangeId) :
    Prop :=
  ∃ change, universe_[y]? = some change ∧ member ∈ change.basisAt path

section Closure

variable (universe_ : Universe ChangeId Version) (path : String) (x : ChangeId)

/-- The basis of a change that touches the path; the search enters no other. -/
private def touchedBasis (y : ChangeId) : Option (List ChangeId) :=
  match universe_[y]? with
  | none => none
  | some change => if change.touched path then some (change.basisAt path) else none

private def hasInBasis (y : ChangeId) : Bool :=
  (universe_[y]?).any fun change => change.inBasis path x

omit [LawfulEqOrd ChangeId] in
private theorem supersedesFrom_eq_searchFrom (depth : Nat) : supersedesFrom universe_ path x depth =
      DepthFirst.searchFrom (hasInBasis universe_ path x) (touchedBasis universe_ path) depth := by
  induction depth with
  | zero => rfl
  | succ depth induction =>
    funext y visited
    rw [supersedesFrom, DepthFirst.searchFrom, induction]
    unfold touchedBasis hasInBasis
    cases universe_[y]? with
    | none => rfl
    | some change =>
      cases touches : change.touched path with
      | false => simp [touches]
      | true => simp [touches]

omit [LawfulEqOrd ChangeId] [DecidableEq ChangeId] in
private theorem edge_iff (y member : ChangeId) :
    DepthFirst.Edge (touchedBasis universe_ path) y member ↔ BasisEdge universe_ path y member := by
  unfold DepthFirst.Edge touchedBasis BasisEdge
  cases universe_[y]? with
  | none => simp
  | some change =>
    constructor
    · rintro ⟨successors, entered, inSuccessors⟩
      dsimp only at entered
      split at entered
      · cases entered
        exact ⟨change, rfl, inSuccessors⟩
      · cases entered
    · rintro ⟨_, equal, inBasis⟩
      cases equal
      exact ⟨change.basisAt path, by simp [Change.touched_of_mem_basisAt inBasis], inBasis⟩

omit [LawfulEqOrd ChangeId] in
private theorem goal_iff (y : ChangeId) :
    DepthFirst.Goal (hasInBasis universe_ path x) (touchedBasis universe_ path) y ↔
      BasisEdge universe_ path y x := by
  rw [← edge_iff]
  unfold DepthFirst.Goal DepthFirst.Edge hasInBasis touchedBasis
  cases universe_[y]? with
  | none => simp
  | some change =>
    simp only [Option.any_some, Change.inBasis_iff]
    cases touches : change.touched path with
    | false => simp
    | true => simp

theorem supersedes_iff (y : ChangeId) : supersedes universe_ path x y = true ↔
      Relation.TransGen (BasisEdge universe_ path) y x := by
  have enterable : ∀ node, (touchedBasis universe_ path node).isSome → node ∈ universe_.keys := by
    intro node entered
    rw [OrderedMap.mem_keys_iff]
    unfold touchedBasis at entered
    cases lookup : universe_[node]? with
    | none => simp [lookup] at entered
    | some change => exact ⟨change, rfl⟩
  have enough : universe_.keys.length < universe_.size + 1 := by
    rw [ExtTreeMap.length_keys]
    exact Nat.lt_succ_self _
  have edges : DepthFirst.Edge (touchedBasis universe_ path) = BasisEdge universe_ path := by
    funext first second
    exact propext (edge_iff universe_ path first second)
  unfold supersedes
  rw [supersedesFrom_eq_searchFrom, DepthFirst.searchFrom_eq_true_iff _ _ enterable enough, edges]
  simp only [goal_iff]
  constructor
  · rintro ⟨last, chain, edge⟩
    exact Relation.TransGen.tail' chain edge
  · intro chain
    rcases Relation.TransGen.tail'_iff.mp chain with ⟨last, before, edge⟩
    exact ⟨last, before, edge⟩

end Closure

theorem mem_headsAt_iff (universe_ : Universe ChangeId Version) (history : History ChangeId)
    (path : String) (x : ChangeId) :
    x ∈ headsAt universe_ history path ↔
      x ∈ history ∧ (∃ change, universe_[x]? = some change ∧ change.lands path = true) ∧
        ∀ y, y ∈ history → ¬Relation.TransGen (BasisEdge universe_ path) y x := by
  unfold headsAt
  rw [mem_ofList, List.contains_iff_mem, mem_filter, mem_toList]
  unfold isHead
  simp only [Bool.and_eq_true, List.contains_iff_mem, Option.any_eq_true,
    Bool.not_eq_true', any_eq_false, mem_toList, supersedes_iff]
  constructor
  · rintro ⟨inHistory, ⟨_, landing⟩, unsuperseded⟩
    exact ⟨inHistory, landing, unsuperseded⟩
  · rintro ⟨inHistory, landing, unsuperseded⟩
    exact ⟨inHistory, ⟨inHistory, landing⟩, unsuperseded⟩

end Yadorilink.Oracle
