import Mathlib

/-! A file system without links: what stands at each path, and the operations a program makes on
it. A path is the list of its names, from the root down. -/

namespace Yadorilink

open Function List

universe u v

inductive FileNode (β : Type v) where
  | dir
  | file (content : β)

abbrev FileTree (ν : Type u) (β : Type v) := List ν → Option (FileNode β)

namespace FileTree

variable {ν : Type u} {β : Type v}

def isDir (tree : FileTree ν β) (path : List ν) : Bool :=
  match tree path with
  | some .dir => true
  | _ => false

def contentAt (tree : FileTree ν β) (path : List ν) : Option β :=
  match tree path with
  | some (.file content) => some content
  | _ => none

theorem isDir_iff {tree : FileTree ν β} {path : List ν} :
    tree.isDir path = true ↔ tree path = some .dir := by
  unfold isDir
  split
  · simp_all
  · simp_all

theorem contentAt_eq_some_iff {tree : FileTree ν β} {path : List ν} {content : β} :
    tree.contentAt path = some content ↔ tree path = some (.file content) := by
  unfold contentAt
  split
  · simp_all
  · simp_all

theorem contentAt_of_isDir {tree : FileTree ν β} {path : List ν} (dir : tree path = some .dir) :
    tree.contentAt path = none := by
  rw [contentAt, dir]

theorem contentAt_congr {tree other : FileTree ν β} {path : List ν}
    (same : tree path = other path) : tree.contentAt path = other.contentAt path := by
  rw [contentAt, contentAt, same]

variable [DecidableEq ν]

/-! ## Operations -/

/-- Makes a directory of the path and of all above it; fails where a file is in the way. -/
def createDirAll (tree : FileTree ν β) (path : List ν) : Option (FileTree ν β) :=
  if path.inits.any fun above => (tree.contentAt above).isSome then none
  else some fun place => if place ∈ path.inits then some .dir else tree place

/-- Puts the content at the path: in a directory, over a file or over nothing. -/
def put (tree : FileTree ν β) (path : List ν) (content : β) : Option (FileTree ν β) :=
  if tree.isDir path.dropLast ∧ ¬ tree.isDir path then
    some (Function.update tree path (some (.file content)))
  else none

/-- Takes the file at the path away; what is no file stays. -/
def remove (tree : FileTree ν β) (path : List ν) : FileTree ν β :=
  match tree.contentAt path with
  | some _ => Function.update tree path none
  | none => tree

def rename (tree : FileTree ν β) (source target : List ν) : Option (FileTree ν β) :=
  match tree.contentAt source with
  | some content => (tree.put target content).map fun written =>
    if source = target then written else Function.update written source none
  | none => none

/-! ## What they leave -/

variable {tree next : FileTree ν β} {path place : List ν} {content : β} {source target : List ν}

section

variable (made : tree.createDirAll path = some next)

include made

theorem createDirAll_eq_some :
    (∀ above ∈ path.inits, tree.contentAt above = none) ∧
      next = fun place => if place ∈ path.inits then some .dir else tree place := by
  rw [createDirAll] at made
  split at made
  · cases made
  · rename_i free
    refine ⟨?_, (Option.some.inj made).symm⟩
    intro above listed
    rw [← Option.not_isSome_iff_eq_none]
    intro found
    exact free (any_eq_true.mpr ⟨above, listed, found⟩)

theorem contentAt_createDirAll :
    next.contentAt place = tree.contentAt place := by
  rcases createDirAll_eq_some made with ⟨free, rfl⟩
  by_cases listed : place ∈ path.inits
  · rw [free place listed]
    apply contentAt_of_isDir
    rw [if_pos listed]
  · exact contentAt_congr (if_neg listed)

theorem createDirAll_self : next path = some .dir := by
  rcases createDirAll_eq_some made with ⟨_, rfl⟩
  exact if_pos ((mem_inits path path).mpr (prefix_refl path))

theorem createDirAll_dir
    (dir : tree place = some .dir) : next place = some .dir := by
  rcases createDirAll_eq_some made with ⟨_, rfl⟩
  dsimp only
  split
  · rfl
  · exact dir

end

theorem put_eq_some (written : tree.put path content = some next) :
    tree path ≠ some .dir ∧ next = Function.update tree path (some (.file content)) := by
  rw [put] at written
  split at written
  · rename_i open_
    refine ⟨?_, (Option.some.inj written).symm⟩
    rw [Ne, ← isDir_iff]
    exact open_.2
  · cases written

theorem contentAt_put (written : tree.put path content = some next) :
    next.contentAt place = if place = path then some content else tree.contentAt place := by
  rcases put_eq_some written with ⟨_, rfl⟩
  by_cases same : place = path
  · rw [if_pos same, contentAt_eq_some_iff, same, update_self]
  · rw [if_neg same]
    exact contentAt_congr (update_of_ne same _ _)

theorem put_dir (written : tree.put path content = some next) (dir : tree place = some .dir) :
    next place = some .dir := by
  rcases put_eq_some written with ⟨noDir, rfl⟩
  rw [update_of_ne, dir]
  rintro rfl
  exact noDir dir

section

variable (moved : tree.rename source target = some next)

include moved

theorem rename_eq_some (apart : source ≠ target) :
    ∃ content written, tree source = some (.file content) ∧
      tree.put target content = some written ∧ next = Function.update written source none := by
  rw [rename] at moved
  split at moved
  · rename_i content found
    rcases Option.map_eq_some_iff.mp moved with ⟨written, put, rfl⟩
    refine ⟨content, written, contentAt_eq_some_iff.mp found, put, ?_⟩
    rw [if_neg apart]
  · cases moved

theorem contentAt_rename (apart : source ≠ target)
    (found : tree.contentAt source = some content) :
    next.contentAt place = if place = target then some content
      else if place = source then none else tree.contentAt place := by
  rcases rename_eq_some moved apart with ⟨other, written, stands, put, rfl⟩
  obtain rfl : other = content := by
    rw [contentAt_eq_some_iff, stands] at found
    cases found
    rfl
  by_cases same : place = source
  · rw [if_neg (fun target => apart (same.symm.trans target)), if_pos same]
    unfold contentAt
    rw [same, update_self]
  · rw [if_neg same, ← contentAt_put put]
    exact contentAt_congr (update_of_ne same _ _)

theorem rename_target_not_dir
    (apart : source ≠ target) : tree target ≠ some .dir := by
  rcases rename_eq_some moved apart with ⟨_, _, _, put, _⟩
  exact (put_eq_some put).1

theorem rename_dir (apart : source ≠ target)
    (dir : tree place = some .dir) : next place = some .dir := by
  rcases rename_eq_some moved apart with ⟨content, written, stands, put, rfl⟩
  rw [update_of_ne, put_dir put dir]
  rintro rfl
  rw [dir] at stands
  cases stands

end

/-! ## Nothing outside a directory -/

/-- Outside the directory the two trees have the same, but for the directories above it, which
may have been made. -/
def AgreeOutside (root : List ν) (before after : FileTree ν β) : Prop :=
  ∀ place, ¬ root <+: place → after place = before place ∨
    (place <+: root ∧ before place = none ∧ after place = some .dir)

omit [DecidableEq ν] in
theorem AgreeOutside.refl (root : List ν) (tree : FileTree ν β) : AgreeOutside root tree tree :=
  fun _ _ => .inl rfl

variable {root : List ν} {before : FileTree ν β}

section

variable (agree : AgreeOutside root before tree)

include agree

theorem AgreeOutside.update (inside : root <+: path)
    (node : Option (FileNode β)) : AgreeOutside root before (Function.update tree path node) := by
  intro place outside
  rw [update_of_ne]
  · exact agree place outside
  · rintro rfl
    exact outside inside

theorem AgreeOutside.createDirAll (inside : root <+: path)
    (made : tree.createDirAll path = some next) : AgreeOutside root before next := by
  rcases createDirAll_eq_some made with ⟨free, rfl⟩
  intro place outside
  dsimp only
  split
  · rename_i listed
    have above : place <+: root :=
      ( prefix_or_prefix_of_prefix ((mem_inits place path).mp listed) inside).resolve_right
        outside
    rcases agree place outside with same | made
    · cases stands : tree place with
      | none => exact .inr ⟨above, same ▸ stands, rfl⟩
      | some node =>
        cases node with
        | dir => exact .inl (stands.symm.trans same)
        | file content =>
          have none := free place listed
          rw [contentAt_eq_some_iff.mpr stands] at none
          cases none
    · exact .inr ⟨above, made.2.1, rfl⟩
  · exact agree place outside

theorem AgreeOutside.put (inside : root <+: path)
    (written : tree.put path content = some next) : AgreeOutside root before next := by
  rcases put_eq_some written with ⟨_, rfl⟩
  exact agree.update inside _

theorem AgreeOutside.remove (inside : root <+: path) :
    AgreeOutside root before (tree.remove path) := by
  unfold FileTree.remove
  split
  · exact agree.update inside _
  · exact agree

theorem AgreeOutside.rename (inside : root <+: source)
    (into : root <+: target) (apart : source ≠ target)
    (moved : tree.rename source target = some next) : AgreeOutside root before next := by
  rcases rename_eq_some moved apart with ⟨_, written, _, put, rfl⟩
  exact (agree.put into put).update inside _

end

end FileTree

end Yadorilink
