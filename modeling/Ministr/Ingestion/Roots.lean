/-
# Ingestion.Roots — which root a file belongs to, and the key it is stored under

A corpus has source roots, each with an id.  A file is stored under its path relative to the
deepest root that holds it (`Owner`), with the id of that root in front when the corpus has
more than one source.  Writers find the root by canonical paths and strip the root as it is
spelled, if they can; readers that start from an absolute path compare spellings only
(`symbol_key_candidates`).

Roots are paths as they were given: relative ones, and spellings with `..`, `.` or doubled
slashes, occur.  `cwd` is the working directory; there are no symbolic links, so that
canonicalising an existing path is following it.
-/
import Ministr.Theory.ByteOffsets
import Ministr.Theory.Scan
import Ministr.Theory.UnixPath

namespace Ministr.Ingestion.Roots

open Ministr.Theory Ministr.Theory.UnixPath

set_option autoImplicit false

/-- A source root and its id. -/
structure SourceRoot where
  path : List Char
  id : List Char
  deriving DecidableEq, Repr

/-- `compute_relative_path`. -/
def computeRelativePath : List Char → List Char
  | '.' :: '/' :: rest => rest
  | file => file

/-- `replace('\\', "/")`. -/
def forwardSlashes (text : List Char) : List Char := text.map fun c => if c = '\\' then '/' else c

/-- `namespace_path`, over the characters of the texts. -/
def namespacePath (rootId relativePath : List Char) : List Char := rootId ++ '/' :: relativePath

/-- `is_ascii_hexdigit`. -/
def isAsciiHexdigit (c : Char) : Bool :=
  ('0' ≤ c ∧ c ≤ '9') ∨ ('a' ≤ c ∧ c ≤ 'f') ∨ ('A' ≤ c ∧ c ≤ 'F')

/-- `strip_root_prefix`. -/
def stripRootPrefix (path : List Char) : Option (List Char) :=
  if 22 < byteLength path ∧ "root-".toList <+: path ∧ '/' ∈ path then
    let front := path.takeWhile (· ≠ '/')
    if byteLength front = 21 ∧ (front.drop 5).all isAsciiHexdigit then
      some ((path.dropWhile (· ≠ '/')).drop 1)
    else none
  else none

section Keys

variable (cwd : List Name)

/-- `canonicalize`, of a path that exists. -/
def canonicalize (path : List Char) : List Char := absolute (resolve cwd path)

/-- `find_root_entry_for_file`: the longest of the canonical roots, the first of them. -/
def findRootEntryForFile (file : List Char) (roots : List SourceRoot) : Option SourceRoot :=
  scanBest
    (fun entry best =>
      byteLength (canonicalize cwd best.path) < byteLength (canonicalize cwd entry.path))
    (roots.filter fun entry => startsWith (canonicalize cwd file) (canonicalize cwd entry.path))

/-- `relative_storage_key`. -/
def relativeStorageKey (file : List Char) (roots : List SourceRoot) (sourceCount : Nat) :
    List Char :=
  match findRootEntryForFile cwd file roots with
  | none => computeRelativePath file
  | some root =>
      match (stripPrefix file root.path).or
          (stripPrefix (canonicalize cwd file) (canonicalize cwd root.path)) with
      | none => computeRelativePath file
      | some rel =>
          if 1 < sourceCount then namespacePath root.id (forwardSlashes rel)
          else forwardSlashes rel

/-- `symbol_key_candidates`: the longest of the spellings, the last of them. -/
def symbolKeyCandidates (absPath : List Char) (roots : List SourceRoot) : List (List Char) :=
  let owner := scanBest (fun entry best => byteLength best.path ≤ byteLength entry.path)
    (roots.filter fun entry => startsWith absPath entry.path)
  let rel := owner.bind fun root => (stripPrefix absPath root.path).map fun rel =>
    (root, forwardSlashes rel)
  match rel with
  | some (root, rel) => [namespacePath root.id rel, rel, absPath]
  | none => [absPath]

end Keys

/-! ## Keys with a root id -/

/-- The form of a root id. -/
def IsRootId (id : List Char) : Prop :=
  ∃ hex : List Char, id = "root-".toList ++ hex ∧ hex.length = 16 ∧ ∀ c ∈ hex, isAsciiHexdigit c

theorem isAsciiHexdigit_ascii {c : Char} (hex : isAsciiHexdigit c = true) : c.toNat < 128 := by
  have below : ∀ last : Char, c ≤ last → last.toNat < 128 → c.toNat < 128 := fun last le small =>
    Nat.lt_of_le_of_lt (UInt32.le_iff_toNat_le.mp le) small
  rw [isAsciiHexdigit, decide_eq_true_eq] at hex
  rcases hex with ⟨-, le⟩ | ⟨-, le⟩ | ⟨-, le⟩
  · exact below '9' le (by decide)
  · exact below 'f' le (by decide)
  · exact below 'F' le (by decide)

theorem IsRootId.ascii {id : List Char} (formed : IsRootId id) : ∀ c ∈ id, c.toNat < 128 := by
  obtain ⟨hex, rfl, -, digits⟩ := formed
  intro c mem
  rcases List.mem_append.mp mem with head | tail
  · have letters : ∀ c ∈ "root-".toList, c.toNat < 128 := by simp
    exact letters c head
  · exact isAsciiHexdigit_ascii (digits c tail)

theorem IsRootId.slashFree {id : List Char} (formed : IsRootId id) : '/' ∉ id := by
  obtain ⟨hex, rfl, -, digits⟩ := formed
  intro mem
  rcases List.mem_append.mp mem with head | tail
  · revert head
    decide
  · have digit := digits '/' tail
    revert digit
    decide

theorem IsRootId.byteLength_eq {id : List Char} (formed : IsRootId id) : byteLength id = 21 := by
  rw [byteLength_ascii formed.ascii]
  obtain ⟨hex, rfl, length, -⟩ := formed
  simp [length]

theorem IsRootId.isName {id : List Char} (formed : IsRootId id) : IsName id := by
  have slashFree := formed.slashFree
  obtain ⟨hex, rfl, -, -⟩ := formed
  exact ⟨by simp, by simp, by simp, slashFree⟩

theorem takeWhile_slash {front : List Char} (slashFree : '/' ∉ front) (back : List Char) :
    (front ++ '/' :: back).takeWhile (· ≠ '/') = front ∧
      (front ++ '/' :: back).dropWhile (· ≠ '/') = '/' :: back := by
  have plain : ∀ c ∈ front, decide (c ≠ '/') = true := by
    intro c mem
    rw [decide_eq_true_eq]
    rintro rfl
    exact slashFree mem
  constructor
  · rw [List.takeWhile_append_of_pos plain]
    simp
  · rw [List.dropWhile_append_of_pos plain]
    simp

/-- A namespaced path gives its relative path back. -/
theorem stripRootPrefix_namespacePath {id rel : List Char} (formed : IsRootId id)
    (nonempty : rel ≠ []) : stripRootPrefix (namespacePath id rel) = some rel := by
  have long : 22 < byteLength (namespacePath id rel) := by
    have more := byteLength_pos nonempty
    have slash : ('/').utf8Size = 1 := rfl
    rw [namespacePath, byteLength_append, byteLength_cons, formed.byteLength_eq, slash]
    omega
  obtain ⟨front, back⟩ := takeWhile_slash formed.slashFree rel
  have width := formed.byteLength_eq
  obtain ⟨hex, rfl, length, digits⟩ := formed
  have start : "root-".toList <+: namespacePath ("root-".toList ++ hex) rel := by
    rw [namespacePath, List.append_assoc]
    exact List.prefix_append _ _
  have all : (("root-".toList ++ hex).drop 5).all isAsciiHexdigit = true := by
    rw [show ("root-".toList ++ hex).drop 5 = hex from rfl]
    exact List.all_eq_true.mpr digits
  rw [stripRootPrefix, if_pos ⟨long, start, by simp [namespacePath]⟩]
  simp only [namespacePath, front, back]
  rw [if_pos ⟨width, all⟩]
  rfl

theorem namespacePath_injective {id id' rel rel' : List Char} (formed : IsRootId id)
    (formed' : IsRootId id') (same : namespacePath id rel = namespacePath id' rel') :
    id = id' ∧ rel = rel' := by
  obtain ⟨front, back⟩ := takeWhile_slash formed.slashFree rel
  obtain ⟨front', back'⟩ := takeWhile_slash formed'.slashFree rel'
  unfold namespacePath at same
  rw [same] at front back
  exact ⟨front.symm.trans front', by simpa using back.symm.trans back'⟩

/-! ## The root that owns a file -/

theorem byteLength_descend (path : List Char) (names : List Name) :
    byteLength path + names.length ≤ byteLength (descend path names) ∨ ∃ n ∈ names, n = [] := by
  induction names generalizing path with
  | nil => exact .inl (by simp [descend])
  | cons name names ih =>
      by_cases empty : name = []
      · exact .inr ⟨name, List.mem_cons_self, empty⟩
      · have grown : byteLength path + 1 ≤ byteLength (join path name) := by
          have more := byteLength_pos empty
          unfold join
          split
          · rw [byteLength_append]
            omega
          · rw [byteLength_append, byteLength_cons]
            omega
        rcases ih (join path name) with longer | ⟨n, mem, none⟩
        · left
          rw [show descend path (name :: names) = descend (join path name) names from rfl,
            List.length_cons]
          omega
        · exact .inr ⟨n, List.mem_cons_of_mem _ mem, none⟩

/-- Deeper directories have longer paths. -/
theorem byteLength_absolute_lt {shallow deep : List Name} (areNames : ∀ name ∈ deep, IsName name)
    (under : shallow <+: deep) (proper : shallow.length < deep.length) :
    byteLength (absolute shallow) < byteLength (absolute deep) := by
  obtain ⟨more, rfl⟩ := under
  have split : absolute (shallow ++ more) = descend (absolute shallow) more := by
    simp [absolute, descend]
  rw [List.length_append] at proper
  rcases byteLength_descend (absolute shallow) more with longer | ⟨n, mem, none⟩
  · rw [split]
    omega
  · exact absurd none (areNames n (List.mem_append_right _ mem)).nonempty

section Owner

variable (cwd : List Name)

/-- The directory a root stands for. -/
def SourceRoot.dir (r : SourceRoot) : List Name := resolve cwd r.path

/-- The deepest root above a file. -/
structure Owner (roots : List SourceRoot) (location : List Name) (r : SourceRoot) : Prop where
  mem : r ∈ roots
  above : r.dir cwd <+: location
  deepest : ∀ other ∈ roots, other.dir cwd <+: location →
    (other.dir cwd).length ≤ (r.dir cwd).length

theorem startsWith_absolute {location dir : List Name} (areNames : ∀ name ∈ location, IsName name)
    (areNames' : ∀ name ∈ dir, IsName name) :
    startsWith (absolute location) (absolute dir) = true ↔ dir <+: location := by
  rw [startsWith_iff, components_absolute areNames, components_absolute areNames',
    List.prefix_cons_inj, List.prefix_map_iff_of_injective]
  exact fun a b same => Component.normal.inj same

variable {cwd} (cwdNames : ∀ name ∈ cwd, IsName name)
include cwdNames

theorem startsWith_canonicalize (file path : List Char) :
    startsWith (canonicalize cwd file) (canonicalize cwd path) = true ↔
      resolve cwd path <+: resolve cwd file :=
  startsWith_absolute (isName_of_mem_resolve cwdNames file) (isName_of_mem_resolve cwdNames path)

theorem owner_of_findRootEntryForFile {file : List Char} {roots : List SourceRoot}
    {root : SourceRoot} (found : findRootEntryForFile cwd file roots = some root) :
    Owner cwd roots (resolve cwd file) root := by
  have above : ∀ r : SourceRoot, startsWith (canonicalize cwd file) (canonicalize cwd r.path) = true ↔
      r.dir cwd <+: resolve cwd file := fun r => startsWith_canonicalize cwdNames file r.path
  have listed := List.mem_filter.mp (scanBest_mem found)
  refine ⟨listed.1, (above root).mp listed.2, fun other mem under => ?_⟩
  have unbeaten := scanBest_least (fun a b c ab bc => ?_) (fun a => by simp) found other
    (List.mem_filter.mpr ⟨mem, (above other).mpr under⟩)
  · rw [decide_eq_false_iff_not, Nat.not_lt] at unbeaten
    by_contra deeper
    have within := List.prefix_of_prefix_length_le ((above root).mp listed.2) under (by omega)
    have longer := byteLength_absolute_lt (isName_of_mem_resolve cwdNames other.path) within
      (Nat.not_le.mp deeper)
    exact absurd longer (Nat.not_lt.mpr unbeaten)
  · rw [decide_eq_true_eq] at *
    omega

theorem exists_owner {file : List Char} {roots : List SourceRoot} {r : SourceRoot} (mem : r ∈ roots)
    (under : r.dir cwd <+: resolve cwd file) :
    ∃ root, findRootEntryForFile cwd file roots = some root := by
  have above := (startsWith_canonicalize cwdNames file r.path).mpr under
  refine Option.ne_none_iff_exists'.mp fun none => ?_
  have listed : r ∈ roots.filter fun entry =>
      startsWith (canonicalize cwd file) (canonicalize cwd entry.path) :=
    List.mem_filter.mpr ⟨mem, above⟩
  rw [scanBest_eq_none.mp none] at listed
  cases listed

end Owner

end Ministr.Ingestion.Roots
