import Yadorilink.Projection.ProjectPath

/-! The projection of a whole tree: every path that holds a head, or that a live descendant
requires as a directory, with what it shows. The candidates are the paths with heads and
their ancestors; the walk up from a path ends at the first ancestor already there. -/

namespace Yadorilink

open Std ExtTreeSet List

/-! ## The tree -/

/-- The ancestors of `current`, up to the first that is a candidate already. Each is shorter
than the one before, so the length of a path bounds the turns. -/
def addAncestors : (turns : Nat) → ExtTreeSet SyncPath → SyncPath → ExtTreeSet SyncPath
  | 0, candidates, _ => candidates
  | turns + 1, candidates, current =>
    match rsplitOnce '/' current.toList with
    | none => candidates
    | some (parent, _) =>
      if String.ofList parent ∈ candidates then
        candidates
      else
        addAncestors turns (candidates.insert (String.ofList parent)) (String.ofList parent)

def addCandidates (candidates : ExtTreeSet SyncPath) (path : SyncPath) : ExtTreeSet SyncPath :=
  addAncestors path.toList.length (candidates.insert path) path

def treeCandidates (state : NativeState) : ExtTreeSet SyncPath :=
  state.heads.keys.foldl addCandidates ∅

def projectionOf (state : NativeState) (kindOf : VersionHash → Option RecordKind)
    (path : SyncPath) : Projection :=
  projectPath (state.headsAt path) kindOf (hasDescendant state path)

def projectTree (state : NativeState) (kindOf : VersionHash → Option RecordKind) :
    ExtTreeMap SyncPath Projection :=
  (treeCandidates state).toList.foldl (fun tree path =>
    if projectionOf state kindOf path = .absent then tree
    else tree.insert path (projectionOf state kindOf path)) ∅

/-! ## Ancestors -/

theorem rsplitOnce_append {separator : Char} {front last : List Char} (plain : separator ∉ last) :
    rsplitOnce separator (front ++ separator :: last) = some (front, last) := by
  have tail : ((front ++ separator :: last).reverse.takeWhile fun char => char ≠ separator) =
      last.reverse := by
    rw [reverse_append, reverse_cons, append_assoc, takeWhile_append]
    have all : last.reverse.takeWhile (fun char => decide (char ≠ separator)) = last.reverse := by
      rw [takeWhile_eq_self_iff]
      intro char member
      rw [mem_reverse] at member
      rw [decide_eq_true_iff]
      rintro rfl
      exact plain member
    rw [all, if_pos rfl]
    simp
  have front_eq : (front ++ separator :: last).length - last.reverse.reverse.length - 1 =
      front.length := by
    rw [reverse_reverse, length_append, length_cons]
    omega
  rw [rsplitOnce, if_pos (mem_append_right _ (.head _)), tail]
  dsimp only
  rw [front_eq, take_left, reverse_reverse]

theorem length_rsplitOnce {separator : Char} {text front last : List Char}
    (parts : rsplitOnce separator text = some (front, last)) : front.length < text.length := by
  rw [rsplitOnce] at parts
  split at parts
  · rename_i member
    cases parts
    have nonempty : 0 < text.length := length_pos_of_mem member
    rw [length_take]
    omega
  · cases parts

/-- A set of paths that holds the parent of each path it holds. -/
def ParentClosed (candidates : ExtTreeSet SyncPath) : Prop :=
  ∀ path ∈ candidates, ∀ parent name, rsplitOnce '/' path.toList = some (parent, name) →
    String.ofList parent ∈ candidates

theorem addAncestors_spec {turns : Nat} {candidates : ExtTreeSet SyncPath} {current : SyncPath}
    (enough : current.toList.length ≤ turns)
    (closed : ∀ path ∈ candidates, path ≠ current → ∀ parent name,
      rsplitOnce '/' path.toList = some (parent, name) → String.ofList parent ∈ candidates) :
    ParentClosed (addAncestors turns candidates current) ∧
      ∀ path ∈ candidates, path ∈ addAncestors turns candidates current := by
  induction turns generalizing candidates current with
  | zero =>
    rw [addAncestors]
    refine ⟨?_, fun path member => member⟩
    intro path member parent name parts
    by_cases same : path = current
    · have shorter := length_rsplitOnce parts
      rw [same] at shorter
      omega
    · exact closed path member same parent name parts
  | succ turns induction =>
    rw [addAncestors]
    cases parts : rsplitOnce '/' current.toList with
    | none =>
      refine ⟨?_, fun path member => member⟩
      intro path member parent name split
      by_cases same : path = current
      · rw [same, parts] at split
        cases split
      · exact closed path member same parent name split
    | some found =>
      rcases found with ⟨parent, name⟩
      dsimp only
      split
      · rename_i known
        refine ⟨?_, fun path member => member⟩
        intro path member other otherName split
        by_cases same : path = current
        · rw [same, parts] at split
          cases split
          exact known
        · exact closed path member same other otherName split
      · have shorter := length_rsplitOnce parts
        have grown := @induction (candidates.insert (String.ofList parent))
          (String.ofList parent) (by rw [String.toList_ofList]; omega) (by
            intro path member differs other otherName split
            rw [mem_insert] at member ⊢
            rcases member with same | old
            · exact absurd (LawfulEqCmp.eq_of_compare same).symm differs
            · by_cases start : path = current
              · rw [start, parts] at split
                cases split
                exact .inl ReflCmp.compare_self
              · exact .inr (closed path old start other otherName split))
        refine ⟨grown.1, fun path member => grown.2 path ?_⟩
        rw [mem_insert]
        exact .inr member

theorem addCandidates_spec {candidates : ExtTreeSet SyncPath} (closed : ParentClosed candidates)
    (path : SyncPath) :
    ParentClosed (addCandidates candidates path) ∧ path ∈ addCandidates candidates path ∧
      ∀ other ∈ candidates, other ∈ addCandidates candidates path := by
  have spec := @addAncestors_spec path.toList.length (candidates.insert path) path (Nat.le_refl _)
    (by
      intro other member differs parent name parts
      rw [mem_insert] at member ⊢
      rcases member with same | old
      · exact absurd (LawfulEqCmp.eq_of_compare same).symm differs
      · exact .inr (closed other old parent name parts))
  refine ⟨spec.1, spec.2 path ?_, fun other member => spec.2 other ?_⟩
  · rw [mem_insert]
    exact .inl ReflCmp.compare_self
  · rw [mem_insert]
    exact .inr member

theorem treeCandidates_spec (state : NativeState) : ParentClosed (treeCandidates state) ∧
      ∀ path ∈ state.heads.keys, path ∈ treeCandidates state := by
  have walk : ∀ (paths : List SyncPath) (candidates : ExtTreeSet SyncPath),
      ParentClosed candidates → ParentClosed (paths.foldl addCandidates candidates) ∧
        ∀ path, path ∈ candidates ∨ path ∈ paths → path ∈ paths.foldl addCandidates candidates := by
    intro paths
    induction paths with
    | nil => exact fun candidates closed => ⟨closed, fun path member => by simpa using member⟩
    | cons first rest induction =>
      intro candidates closed
      rcases addCandidates_spec closed first with ⟨still, here, kept⟩
      rcases induction _ still with ⟨ends, all⟩
      refine ⟨ends, ?_⟩
      intro path member
      apply all
      rcases member with old | listed
      · exact .inl (kept path old)
      · rcases mem_cons.mp listed with rfl | later
        · exact .inl here
        · exact .inr later
  have spec := walk state.heads.keys ∅ (by
    intro path member
    exact absurd member not_mem_empty)
  exact ⟨spec.1, fun path member => spec.2 path (.inr member)⟩

theorem exists_of_mem_slash {text : List Char} (member : '/' ∈ text) :
    ∃ front last, text = front ++ '/' :: last ∧ '/' ∉ last := by
  rcases eq_append_cons_of_mem (mem_reverse.mpr member) with
    ⟨last, before, reversed, fresh⟩
  refine ⟨before.reverse, last.reverse, ?_, ?_⟩
  · have back := congrArg List.reverse reversed
    simpa using back
  · rw [mem_reverse]
    exact fresh

theorem ParentClosed.mem_of_below {candidates : ExtTreeSet SyncPath}
    (closed : ParentClosed candidates) {front rest : List Char}
    (member : String.ofList (front ++ '/' :: rest) ∈ candidates) :
    String.ofList front ∈ candidates := by
  -- By the length of what lies below: its last component goes first.
  induction size : rest.length using Nat.strong_induction_on generalizing rest with
  | _ size induction =>
    by_cases plain : '/' ∈ rest
    · rcases exists_of_mem_slash plain with ⟨before, last, rfl, fresh⟩
      have above := closed _ member (front ++ '/' :: before) last (by
        rw [String.toList_ofList, ← cons_append, ← append_assoc]
        exact rsplitOnce_append fresh)
      apply induction before.length _ above rfl
      rw [← size, length_append, length_cons]
      omega
    · exact closed _ member front rest (by
        rw [String.toList_ofList]
        exact rsplitOnce_append plain)

/-! ## What the tree holds -/

section Trees

variable (state : NativeState) (kindOf : VersionHash → Option RecordKind)

theorem mem_treeCandidates_of_hasDescendant {path : SyncPath}
    (below : hasDescendant state path = true) : path ∈ treeCandidates state := by
  rcases treeCandidates_spec state with ⟨closed, keys⟩
  rw [hasDescendant, Option.any_eq_true] at below
  rcases below with ⟨key, found, starts⟩
  rcases isPrefixOf_iff_prefix.mp starts with ⟨rest, whole⟩
  have member := keys key (mem_of_find?_eq_some found)
  have text : key = String.ofList (path.toList ++ '/' :: rest) := by
    rw [← String.ofList_toList (s := key), ← whole, String.toList_append, append_assoc]
    rfl
  rw [text] at member
  have above := closed.mem_of_below member
  rw [String.ofList_toList] at above
  exact above

theorem projectionOf_eq_absent {path : SyncPath} (missing : path ∉ treeCandidates state) :
    projectionOf state kindOf path = .absent := by
  have alone : hasDescendant state path = false := by
    rw [← Bool.not_eq_true]
    exact fun below => missing (mem_treeCandidates_of_hasDescendant state below)
  have unheld : state.headsAt path = [] := by
    have absent : state.heads[path]? = none := by
      rw [Option.eq_none_iff_forall_ne_some]
      intro heads found
      apply missing
      apply (treeCandidates_spec state).2
      rw [OrderedMap.mem_keys_iff]
      exact ⟨heads, found⟩
    rw [NativeState.headsAt, NativeState.pathHeads, absent]
    rfl
  rw [projectionOf, alone, unheld]
  rfl

theorem getElem?_projectTree (path : SyncPath) : (projectTree state kindOf)[path]? =
      if projectionOf state kindOf path = .absent then none
      else some (projectionOf state kindOf path) := by
  have walk : ∀ (paths : List SyncPath) (tree : ExtTreeMap SyncPath Projection),
      (paths.foldl (fun tree path =>
        if projectionOf state kindOf path = .absent then tree
        else tree.insert path (projectionOf state kindOf path)) tree)[path]? =
      if path ∈ paths ∧ projectionOf state kindOf path ≠ .absent then
        some (projectionOf state kindOf path)
      else tree[path]? := by
    intro paths
    induction paths with
    | nil => exact fun tree => by simp
    | cons first rest induction =>
      intro tree
      rw [foldl_cons, induction]
      by_cases shown : projectionOf state kindOf path = .absent
      · simp only [shown, ne_eq, not_true_eq_false, and_false, if_false]
        split
        · rfl
        · rename_i other
          rw [OrderedMap.getElem?_insert_eq, if_neg]
          rintro rfl
          exact other shown
      · by_cases later : path ∈ rest
        · simp [later, shown]
        · by_cases here : first = path
          · subst here
            simp [later, shown]
          · have skipped : path ∉ first :: rest := by
              rw [mem_cons]
              rintro (rfl | member)
              · exact here rfl
              · exact later member
            simp only [later, skipped, false_and, if_false]
            split
            · rfl
            · rw [OrderedMap.getElem?_insert_eq, if_neg here]
  rw [projectTree, walk]
  simp only [mem_toList, ExtTreeMap.getElem?_empty]
  by_cases listed : path ∈ treeCandidates state
  · by_cases shown : projectionOf state kindOf path = .absent
    · simp [shown]
    · simp [listed, shown]
  · simp [projectionOf_eq_absent state kindOf listed]

end Trees

end Yadorilink
