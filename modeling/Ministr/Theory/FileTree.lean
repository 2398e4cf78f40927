/-
# Theory.FileTree — files and directories, and what making some leaves alone

A tree says what stands at each path, and what stands below the top lies in a directory: a tree
in which a file holds a file cannot be written down.  Making a directory with all that lead to it
adds directories and nothing else (`grown_createDirAll`), and only on the way to it; where it
succeeds the directory stands.  Writing a file changes what stands at its path and nothing
else.  A disk may refuse each of these, and keep only a part of what is written.
-/
import Mathlib.Data.List.Infix
import Mathlib.Tactic.Common

namespace Ministr.Theory.FileTree

set_option autoImplicit false

inductive Node (B : Type) where
  | dir
  | file (data : List B)
  deriving DecidableEq, Repr

/-- What stands at each path.  The top is a directory, and so is what something stands in. -/
structure Tree (N B : Type) where
  node : List N → Option (Node B)
  top : node [] = some .dir
  housed : ∀ path name, node (path ++ [name]) ≠ none → node path = some .dir

/-- Why a file or a directory could not be made. -/
inductive Fault where
  | isADirectory
  | notADirectory
  | denied
  deriving DecidableEq, Repr

/-- What a disk allows: which directories, which files, and how much of what is written. -/
structure Disk (N B : Type) where
  makes : Tree N B → List N → Bool
  opens : Tree N B → List N → Bool
  keeps : Tree N B → List N → List B → Nat

variable {N B : Type}

namespace Tree

section Operations

variable [DecidableEq N]

/-- Only the top. -/
def bare : Tree N B where
  node path := if path = [] then some .dir else none
  top := if_pos rfl
  housed := by simp

def put (tree : Tree N B) (path : List N) (made : Node B)
    (inDir : tree.node path.dropLast = some .dir) (free : tree.node path ≠ some .dir) :
    Tree N B where
  node other := if other = path then some made else tree.node other
  top := by
    rw [if_neg]
    · exact tree.top
    · rintro rfl
      exact free tree.top
  housed := by
    intro other name stands
    have apart : other ≠ path → tree.node other = some .dir →
        (if other = path then some made else tree.node other) = some .dir :=
      fun apart isDir => (if_neg apart).trans isDir
    by_cases here : other ++ [name] = path
    · have parent : path.dropLast = other := by rw [← here, List.dropLast_concat]
      rw [parent] at inDir
      refine apart ?_ inDir
      rintro rfl
      exact free inDir
    · rw [if_neg here] at stands
      have isDir := tree.housed other name stands
      refine apart ?_ isDir
      rintro rfl
      exact free isDir

variable [DecidableEq B]

/-- Make one directory.  One that stands already is fine. -/
def createDir (disk : Disk N B) (tree : Tree N B) (path : List N) : Except Fault (Tree N B) :=
  match stands : tree.node path with
  | some .dir => .ok tree
  | some (.file _) => .error .notADirectory
  | none =>
      if inDir : tree.node path.dropLast = some .dir then
        if disk.makes tree path then .ok (tree.put path .dir inDir (by simp [stands]))
        else .error .denied
      else .error .notADirectory

/-- Make the directories that lead from one on, in their order, up to a fault. -/
def createDirs (disk : Disk N B) (tree : Tree N B) (here : List N) :
    List N → Tree N B × Option Fault
  | [] => (tree, none)
  | name :: rest =>
      match tree.createDir disk (here ++ [name]) with
      | .ok made => made.createDirs disk (here ++ [name]) rest
      | .error fault => (tree, some fault)

/-- Make a directory and all that lead to it. -/
def createDirAll (disk : Disk N B) (tree : Tree N B) (path : List N) : Tree N B × Option Fault :=
  tree.createDirs disk [] path

/-- Open a file to write it: a new one, or an old one without what it held. -/
def createFile (disk : Disk N B) (tree : Tree N B) (path : List N) : Except Fault (Tree N B) :=
  if free : tree.node path ≠ some .dir then
    if inDir : tree.node path.dropLast = some .dir then
      if disk.opens tree path then .ok (tree.put path (.file []) inDir free) else .error .denied
    else .error .notADirectory
  else .error .isADirectory

omit [DecidableEq B] in
/-- Put data into an open file. -/
def writeFile (tree : Tree N B) (path : List N) (data : List B) : Tree N B where
  node other :=
    match tree.node other with
    | some (.file old) => some (.file (if other = path then data else old))
    | stands => stands
  top := by rw [tree.top]
  housed := by
    intro other name stands
    have below : tree.node (other ++ [name]) ≠ none := by
      intro absent
      simp [absent] at stands
    rw [tree.housed other name below]

end Operations

/-- What a file holds. -/
def fileAt (tree : Tree N B) (path : List N) : Option (List B) :=
  match tree.node path with
  | some (.file data) => some data
  | _ => none

end Tree

/-! ## What stands where -/

section Standing

variable (tree : Tree N B) {path : List N}

@[simp] theorem node_put [DecidableEq N] {made : Node B} {inDir : tree.node path.dropLast = some .dir}
    {free : tree.node path ≠ some .dir} (other : List N) :
    (tree.put path made inDir free).node other = if other = path then some made else tree.node other :=
  rfl

theorem fileAt_eq_some {data : List B} :
    tree.fileAt path = some data ↔ tree.node path = some (.file data) := by
  unfold Tree.fileAt
  cases tree.node path with
  | none => simp
  | some node => cases node <;> simp

theorem fileAt_congr {other : Tree N B} (same : other.node path = tree.node path) :
    other.fileAt path = tree.fileAt path := by
  rw [Tree.fileAt, Tree.fileAt, same]

theorem node_writeFile [DecidableEq N] (data : List B) {old : List B}
    (isFile : tree.node path = some (.file old)) (other : List N) :
    (tree.writeFile path data).node other =
      if other = path then some (.file data) else tree.node other := by
  by_cases here : other = path
  · subst here
    simp [Tree.writeFile, isFile]
  · simp only [Tree.writeFile, if_neg here]
    split
    · rename_i stands
      exact stands.symm
    · rfl

/-- What something stands below is a directory. -/
theorem dir_of_below (rest : List N) (more : rest ≠ []) (stands : tree.node (path ++ rest) ≠ none) :
    tree.node path = some .dir := by
  induction rest using List.reverseRecOn with
  | nil => exact absurd rfl more
  | append_singleton rest name ih =>
      rw [← List.append_assoc] at stands
      have parent := tree.housed _ _ stands
      by_cases last : rest = []
      · simpa [last] using parent
      · exact ih last (by simp [parent])

/-- What leads to a directory is a directory. -/
theorem dir_of_leads {other : List N} (isDir : tree.node path = some .dir)
    (leads : other <+: path) : tree.node other = some .dir := by
  obtain ⟨rest, rfl⟩ := leads
  by_cases last : rest = []
  · simpa [last] using isDir
  · exact dir_of_below tree rest last (by simp [isDir])

end Standing

/-! ## Trees that grew -/

/-- One tree has what another has, and more directories on the way to a path. -/
def Grown (path : List N) (before after : Tree N B) : Prop :=
  ∀ other, after.node other = before.node other ∨
    (other <+: path ∧ before.node other = none ∧ after.node other = some .dir)

namespace Grown

variable {path : List N} {before after last : Tree N B}

theorem same : Grown path before before := fun _ => .inl rfl

theorem node_dir (grown : Grown path before after) {other : List N}
    (isDir : before.node other = some .dir) : after.node other = some .dir := by
  rcases grown other with same | ⟨-, -, made⟩
  · rw [same, isDir]
  · exact made

theorem fileAt (grown : Grown path before after) (other : List N) :
    after.fileAt other = before.fileAt other := by
  rcases grown other with same | ⟨-, absent, made⟩
  · exact fileAt_congr before same
  · rw [Tree.fileAt, Tree.fileAt, absent, made]

theorem trans (first : Grown path before after) (second : Grown path after last) :
    Grown path before last := by
  intro other
  rcases second other with same | ⟨leads, absent, made⟩
  · rw [same]
    exact first other
  · rcases first other with same' | ⟨-, -, made'⟩
    · exact .inr ⟨leads, same' ▸ absent, made⟩
    · rw [absent] at made'
      cases made'

/-- Nothing changes but below a directory that the path leads to or passes. -/
theorem below {dir : List N} (grown : Grown path before after)
    (isDir : before.node dir = some .dir) (onTheWay : path <+: dir ∨ dir <+: path) {other : List N}
    (away : ¬ dir <+: other) : after.node other = before.node other := by
  rcases grown other with same | ⟨leads, absent, -⟩
  · exact same
  · have above : other <+: dir := by
      rcases onTheWay with upTo | passes
      · exact leads.trans upTo
      · exact (List.prefix_or_prefix_of_prefix leads passes).resolve_right away
    rw [dir_of_leads before isDir above] at absent
    cases absent

end Grown

section Making

variable [DecidableEq N] [DecidableEq B] (disk : Disk N B) {tree made : Tree N B} {path : List N}

theorem createDir_spec (ok : tree.createDir disk path = .ok made) :
    Grown path tree made ∧ made.node path = some .dir := by
  unfold Tree.createDir at ok
  split at ok
  · rename_i stands
    obtain rfl := Except.ok.inj ok
    exact ⟨Grown.same, stands⟩
  · cases ok
  · rename_i absent
    split at ok
    · split at ok
      · obtain rfl := Except.ok.inj ok
        refine ⟨fun other => ?_, by simp⟩
        by_cases here : other = path
        · subst here
          exact .inr ⟨List.prefix_rfl, absent, by simp⟩
        · exact .inl (by simp [here])
      · cases ok
    · cases ok

theorem createDirs_spec (here rest : List N) (isDir : tree.node here = some .dir) :
    Grown (here ++ rest) tree (tree.createDirs disk here rest).1 ∧
      ((tree.createDirs disk here rest).2 = none →
        (tree.createDirs disk here rest).1.node (here ++ rest) = some .dir) := by
  induction rest generalizing tree here with
  | nil => simpa [Tree.createDirs] using ⟨Grown.same, isDir⟩
  | cons name rest ih =>
      rw [Tree.createDirs]
      cases step : tree.createDir disk (here ++ [name]) with
      | error fault => exact ⟨Grown.same, fun none => by cases none⟩
      | ok made =>
          obtain ⟨grown, stands⟩ := createDir_spec disk step
          obtain ⟨grownOn, standsOn⟩ := ih (here ++ [name]) stands
          rw [List.append_assoc, List.singleton_append] at grownOn standsOn
          refine ⟨Grown.trans (fun other => ?_) grownOn, standsOn⟩
          rcases grown other with same | ⟨leads, changed⟩
          · exact .inl same
          · exact .inr ⟨leads.trans ⟨rest, by simp⟩, changed⟩

/-- Making a directory adds directories on the way to it, and only that. -/
theorem grown_createDirAll (tree : Tree N B) (path : List N) :
    Grown path tree (tree.createDirAll disk path).1 :=
  (createDirs_spec disk [] path tree.top).1

theorem createDirAll_stands (tree : Tree N B) (path : List N)
    (fine : (tree.createDirAll disk path).2 = none) :
    (tree.createDirAll disk path).1.node path = some .dir :=
  (createDirs_spec disk [] path tree.top).2 fine

theorem createFile_spec (ok : tree.createFile disk path = .ok made) :
    tree.node path ≠ some .dir ∧ made.node path = some (.file []) ∧
      ∀ other ≠ path, made.node other = tree.node other := by
  unfold Tree.createFile at ok
  split at ok
  · rename_i free
    split at ok
    · split at ok
      · obtain rfl := Except.ok.inj ok
        exact ⟨free, by simp, fun other apart => by simp [apart]⟩
      · cases ok
    · cases ok
  · cases ok

end Making

end Ministr.Theory.FileTree
