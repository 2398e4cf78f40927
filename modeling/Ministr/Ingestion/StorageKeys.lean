/-
# Ingestion.StorageKeys — storage keys are unique, but not every reader finds them

`relative_storage_key` never gives two files one key, and a key with a root id gives its
relative path back.  `symbol_key_candidates`, which diffs start from, compares the spelling of
the roots with the absolute path of the file.  So the key is among its candidates exactly when
the root that owns the file is spelled as an absolute path without `..` and no root above it
is spelled longer (`storageKeys_iff`).  A root such as `/w/site/../shared`, which a
configuration file with a relative path makes, is never recognised (`sharedRoot_not_found`).
-/
import Ministr.Ingestion.Roots
import Mathlib.Data.List.Nodup

namespace Ministr.Ingestion.Roots

open Ministr.Theory Ministr.Theory.UnixPath

set_option autoImplicit false

/-- The directory roots of a corpus, given in the working directory `cwd`. -/
structure DirectoryRoots (cwd : List Name) where
  roots : List SourceRoot
  named : ∀ r ∈ roots, r.path ≠ []
  rootIds : ∀ r ∈ roots, IsRootId r.id
  distinct : (roots.map (SourceRoot.dir cwd)).Nodup
  distinctIds : (roots.map SourceRoot.id).Nodup
  plain : ∀ r ∈ roots, '\\' ∉ r.path
  cwdNames : ∀ name ∈ cwd, IsName name
  cwdPlain : ∀ name ∈ cwd, '\\' ∉ name

/-- A file some levels below a root, as a walk of the root finds it.  It is no directory, so no
root is at or below it. -/
structure FoundFile {cwd : List Name} (s : DirectoryRoots cwd) where
  root : SourceRoot
  mem : root ∈ s.roots
  names : List Name
  below : names ≠ []
  areNames : ∀ name ∈ names, IsName name
  plain : ∀ name ∈ names, '\\' ∉ name
  file : ∀ r ∈ s.roots, ¬root.dir cwd ++ names <+: r.dir cwd

/-- A spelling that is an absolute path without `..`. -/
def SourceRoot.PlainlySpelled (r : SourceRoot) : Prop :=
  ∃ names : List Name, components r.path = .rootDir :: names.map .normal

namespace FoundFile

variable {cwd : List Name} {s : DirectoryRoots cwd}

def path (f : FoundFile s) : List Char := descend f.root.path f.names

/-- Where the file is. -/
def location (f : FoundFile s) : List Name := resolve cwd f.path

def key (f : FoundFile s) (sourceCount : Nat) : List Char :=
  relativeStorageKey cwd f.path s.roots sourceCount

def candidates (f : FoundFile s) : List (List Char) :=
  symbolKeyCandidates (absolute f.location) s.roots

/-- What is left of the file's path below a directory. -/
def belowDir (f : FoundFile s) (dir : List Name) : List Char := joined (f.location.drop dir.length)

/-- The root is above the file, and its spelling shows it. -/
def SeenFrom (f : FoundFile s) (r : SourceRoot) : Prop :=
  r.PlainlySpelled ∧ r.dir cwd <+: f.location

/-- Of the roots that show to be above the file, the one with the longest spelling, the last. -/
def ReadThrough (f : FoundFile s) (r : SourceRoot) : Prop :=
  ∃ front back, s.roots = front ++ r :: back ∧ f.SeenFrom r ∧
    (∀ o ∈ front, f.SeenFrom o → byteLength o.path ≤ byteLength r.path) ∧
    ∀ o ∈ back, f.SeenFrom o → byteLength o.path < byteLength r.path

/-- The root the file was found under is not spelled as `r` with more behind it. -/
def CleanUnder (f : FoundFile s) (r : SourceRoot) : Prop :=
  components r.path <+: components f.root.path → components r.path = components f.root.path

/-- The owning root is the one that the file is read through.  (Or its directory is called by
its own id and is right below that one: then the bare path happens to be the key.) -/
def Findable (f : FoundFile s) : Prop :=
  ∃ r, Owner cwd s.roots f.location r ∧ f.CleanUnder r ∧
    (f.ReadThrough r ∨ ∃ v, f.ReadThrough v ∧ r.dir cwd = v.dir cwd ++ [r.id])

/-! ## Where a file is -/

theorem location_eq (f : FoundFile s) : f.location = f.root.dir cwd ++ f.names :=
  resolve_descend (s.named f.root f.mem) f.areNames cwd

theorem areNames_location (f : FoundFile s) : ∀ name ∈ f.location, IsName name :=
  isName_of_mem_resolve s.cwdNames f.path

theorem plain_location (f : FoundFile s) : ∀ name ∈ f.location, '\\' ∉ name := by
  intro name mem
  rw [f.location_eq] at mem
  rcases List.mem_append.mp mem with inDir | inNames
  · refine forall_mem_resolve s.cwdPlain (fun name spoken back => ?_) name inDir
    exact s.plain f.root f.mem (mem_of_mem_components spoken back)
  · exact f.plain name inNames

theorem forwardSlashes_plain {text : List Char} (plain : '\\' ∉ text) :
    forwardSlashes text = text := by
  have same : ∀ c ∈ text, (if c = '\\' then '/' else c) = c := by
    intro c mem
    rw [if_neg]
    rintro rfl
    exact plain mem
  rw [forwardSlashes, List.map_congr_left same, List.map_id']

theorem plain_joined {names : List Name} (plain : ∀ name ∈ names, '\\' ∉ name) :
    '\\' ∉ joined names := by
  intro mem
  rcases mem_joined mem with slash | ⟨name, listed, inside⟩
  · revert slash
    decide
  · exact plain name listed inside

/-- The path below a directory above the file. -/
theorem stripPrefix_location (f : FoundFile s) {base : List Char} {dir : List Name}
    (spelled : components base = .rootDir :: dir.map .normal) (above : dir <+: f.location) :
    stripPrefix (absolute f.location) base = some (f.belowDir dir) := by
  refine stripPrefix_descend (by simp) f.areNames_location (by simp [spelled]) ?_ ?_
  · rw [spelled, ← absolute, components_absolute f.areNames_location]
    exact (List.prefix_cons_inj _).mpr (above.map _)
  · rw [spelled, List.length_cons, List.length_map, Nat.add_comm]
    rfl

/-! ## The key -/

/-- What the key is made of: the owner, and what is left of the path. -/
theorem key_eq (f : FoundFile s) (sourceCount : Nat) :
    ∃ r rel, Owner cwd s.roots f.location r ∧
      f.key sourceCount = (if 1 < sourceCount then namespacePath r.id rel else rel) ∧
      resolve (r.dir cwd) rel = f.location ∧ Relative rel ∧
      (f.CleanUnder r → rel = f.belowDir (r.dir cwd)) ∧
      ∀ names : List Name, components rel = names.map .normal → f.CleanUnder r := by
  have under : f.root.dir cwd <+: f.location := by
    rw [f.location_eq]
    exact List.prefix_append _ _
  obtain ⟨r, found⟩ := exists_owner s.cwdNames f.mem under
  have owner := owner_of_findRootEntryForFile s.cwdNames found
  have deep := components_ne_nil (s.named r owner.mem)
  have comps : components f.path = components f.root.path ++ f.names.map .normal :=
    components_descend (s.named f.root f.mem) f.areNames
  have canonical : stripPrefix (canonicalize cwd f.path) (canonicalize cwd r.path) =
      some (f.belowDir (r.dir cwd)) :=
    f.stripPrefix_location (components_absolute (isName_of_mem_resolve s.cwdNames r.path)) owner.above
  have keyed : ∀ rel, (stripPrefix f.path r.path).or
      (stripPrefix (canonicalize cwd f.path) (canonicalize cwd r.path)) = some rel →
      '\\' ∉ rel →
      f.key sourceCount = if 1 < sourceCount then namespacePath r.id rel else rel := by
    intro rel stripped plain
    unfold key relativeStorageKey
    simp only [found, stripped, forwardSlashes_plain plain]
  cases literal : stripPrefix f.path r.path with
  | none =>
      have areNames : ∀ name ∈ f.location.drop (r.dir cwd).length, IsName name := fun name mem =>
        f.areNames_location name (List.mem_of_mem_drop mem)
      refine ⟨r, f.belowDir (r.dir cwd), owner, keyed _ (by rw [literal, canonical]; rfl) ?_, ?_,
        relative_joined areNames, fun _ => rfl, fun names _ inside => ?_⟩
      · exact plain_joined fun name mem => f.plain_location name (List.mem_of_mem_drop mem)
      · rw [resolve, belowDir, components_joined areNames, foldl_follow_normal]
        exact List.prefix_append_drop owner.above |>.symm
      · have start : startsWith f.path r.path = true := by
          rw [startsWith_iff, comps]
          exact inside.trans (List.prefix_append _ _)
        simp [stripPrefix, start, deep] at literal
  | some rel =>
      have whole := components_of_stripPrefix deep literal
      have start := startsWith_of_stripPrefix deep literal
      rw [comps] at start whole
      refine ⟨r, rel, owner, keyed rel (by rw [literal]; rfl) fun back => ?_, ?_,
        (components_stripped deep literal).2, fun clean => ?_, fun names normal inside => ?_⟩
      · rcases mem_of_mem_stripPrefix deep literal back with slash | inPath
        · revert slash
          decide
        · rcases mem_descend inPath with slash | inRoot | ⟨name, listed, here⟩
          · revert slash
            decide
          · exact s.plain f.root f.mem inRoot
          · exact f.plain name listed here
      · exact (resolve_of_stripPrefix deep literal cwd).symm
      · -- the owner is spelled as the root the file was found under, with names behind it
        have further : components f.root.path <+: components r.path := by
          rcases List.prefix_or_prefix_of_prefix start (List.prefix_append _ _) with inside | outside
          · rw [clean inside]
          · exact outside
        obtain ⟨more, same⟩ := further
        rw [← same, List.prefix_append_right_inj] at start
        obtain ⟨reached, front, rfl⟩ := List.prefix_map_iff.mp start
        have dir : r.dir cwd = f.root.dir cwd ++ reached := by
          rw [SourceRoot.dir, resolve, ← same, List.foldl_append, foldl_follow_normal]
          rfl
        have stripped : stripPrefix f.path r.path = some (joined (f.names.drop reached.length)) :=
          stripPrefix_descend (s.named f.root f.mem) f.areNames deep
            (startsWith_of_stripPrefix deep literal) (by rw [← same]; simp)
        rw [literal, Option.some.injEq] at stripped
        have rest : f.location.drop (r.dir cwd).length = f.names.drop reached.length := by
          rw [f.location_eq, dir, List.length_append, ← List.drop_drop, List.drop_left]
        rw [stripped, belowDir, rest]
      · by_contra other
        obtain ⟨more, same⟩ := inside
        rw [← same, List.append_assoc, List.append_cancel_left_eq, normal] at whole
        obtain ⟨front, back, -, reached, -⟩ := List.append_eq_map_iff.mp whole
        have dir : f.root.dir cwd = r.dir cwd ++ front := by
          rw [SourceRoot.dir, resolve, ← same, List.foldl_append, ← reached, foldl_follow_normal]
          rfl
        have depth := owner.deepest f.root f.mem under
        rw [dir, List.length_append] at depth
        have none : front = [] := List.length_eq_zero_iff.mp (by omega)
        rw [none, List.map_nil] at reached
        rw [← reached, List.append_nil] at same
        exact other same

/-! ## The candidates -/

theorem dir_of_spelled {r : SourceRoot} {names : List Name}
    (spelled : components r.path = .rootDir :: names.map .normal) : r.dir cwd = names := by
  rw [SourceRoot.dir, resolve, spelled, List.foldl_cons, Component.follow, foldl_follow_normal,
    List.nil_append]

theorem startsWith_location (f : FoundFile s) {r : SourceRoot} (mem : r ∈ s.roots) :
    startsWith (absolute f.location) r.path = true ↔ f.SeenFrom r := by
  rw [startsWith_iff, components_absolute f.areNames_location]
  constructor
  · intro start
    cases spelled : components r.path with
    | nil => exact absurd spelled (components_ne_nil (s.named r mem))
    | cons c rest =>
        rw [spelled, List.cons_prefix_cons] at start
        obtain ⟨rfl, start⟩ := start
        obtain ⟨names, above, rfl⟩ := List.prefix_map_iff.mp start
        exact ⟨⟨names, spelled⟩, by rwa [dir_of_spelled spelled]⟩
  · rintro ⟨⟨names, spelled⟩, above⟩
    rw [dir_of_spelled spelled] at above
    rw [spelled]
    exact (List.prefix_cons_inj _).mpr (above.map _)

theorem readThrough_iff (f : FoundFile s) {r : SourceRoot} :
    scanBest (fun entry best => byteLength best.path ≤ byteLength entry.path)
      (s.roots.filter fun entry => startsWith (absolute f.location) entry.path) = some r ↔
    f.ReadThrough r := by
  rw [scanBest_filter_iff (fun a b c ab bc => ?_) (fun a b c ab cb => ?_)]
  · refine exists_congr fun front => exists_congr fun back => and_congr_right fun whole => ?_
    have seen : ∀ o ∈ front ++ r :: back,
        (startsWith (absolute f.location) o.path = true ↔ f.SeenFrom o) := fun o mem =>
      f.startsWith_location (whole ▸ mem)
    refine and_congr (seen r (by simp)) (and_congr ?_ ?_)
    · refine forall_congr' fun o => forall_congr' fun mem => ?_
      rw [seen o (by simp [mem]), decide_eq_true_eq]
    · refine forall_congr' fun o => forall_congr' fun mem => ?_
      rw [seen o (by simp [mem]), decide_eq_false_iff_not, Nat.not_le]
  · rw [decide_eq_true_eq] at *
    omega
  · rw [decide_eq_true_eq] at *
    rw [decide_eq_false_iff_not] at cb
    omega

theorem ReadThrough.mem {f : FoundFile s} {r : SourceRoot} (read : f.ReadThrough r) :
    r ∈ s.roots := by
  obtain ⟨front, back, whole, -⟩ := read
  simp [whole]

theorem plain_belowDir (f : FoundFile s) (dir : List Name) : '\\' ∉ f.belowDir dir :=
  plain_joined fun name mem => f.plain_location name (List.mem_of_mem_drop mem)

theorem candidates_of_readThrough {f : FoundFile s} {r : SourceRoot} (read : f.ReadThrough r) :
    f.candidates = [namespacePath r.id (f.belowDir (r.dir cwd)), f.belowDir (r.dir cwd),
      absolute f.location] := by
  have chosen := f.readThrough_iff.mpr read
  obtain ⟨front, back, whole, ⟨⟨names, spelled⟩, above⟩, -⟩ := read
  rw [dir_of_spelled spelled] at above
  have stripped := f.stripPrefix_location spelled above
  unfold candidates symbolKeyCandidates
  simp only [chosen, Option.bind_some, stripped, Option.map_some, dir_of_spelled spelled,
    forwardSlashes_plain (f.plain_belowDir names)]

theorem candidates_of_unread {f : FoundFile s} (unread : ∀ r, ¬f.ReadThrough r) :
    f.candidates = [absolute f.location] := by
  have none : scanBest (fun entry best : SourceRoot => byteLength best.path ≤ byteLength entry.path)
      (s.roots.filter fun entry => startsWith (absolute f.location) entry.path) = none :=
    Option.eq_none_iff_forall_ne_some.mpr fun r chosen => unread r (f.readThrough_iff.mp chosen)
  unfold candidates symbolKeyCandidates
  simp only [none, Option.bind_none]

/-! ## Keys and candidates -/

theorem owner_unique {location : List Name} {r r' : SourceRoot}
    (owner : Owner cwd s.roots location r) (owner' : Owner cwd s.roots location r') : r = r' := by
  have length := Nat.le_antisymm (owner'.deepest r owner.mem owner.above)
    (owner.deepest r' owner'.mem owner'.above)
  have within := List.prefix_of_prefix_length_le owner.above owner'.above length.le
  exact List.inj_on_of_nodup_map s.distinct owner.mem owner'.mem (within.eq_of_length length)

theorem eq_of_id {r r' : SourceRoot} (mem : r ∈ s.roots) (mem' : r' ∈ s.roots)
    (same : r.id = r'.id) : r = r' :=
  List.inj_on_of_nodup_map s.distinctIds mem mem' same

theorem eq_of_single {r r' : SourceRoot} (single : s.roots.length ≤ 1) (mem : r ∈ s.roots)
    (mem' : r' ∈ s.roots) : r = r' := by
  rcases whole : s.roots with _ | ⟨a, _ | ⟨b, rest⟩⟩
  · rw [whole] at mem
    cases mem
  · rw [whole] at mem mem'
    rw [List.mem_singleton.mp mem, List.mem_singleton.mp mem']
  · rw [whole, List.length_cons, List.length_cons] at single
    omega

/-- Files with one key are one file. -/
theorem location_of_key {sourceCount : Nat} (enough : s.roots.length ≤ sourceCount)
    {f g : FoundFile s} (same : f.key sourceCount = g.key sourceCount) : f.location = g.location := by
  obtain ⟨r, rel, owner, key, location, -⟩ := f.key_eq sourceCount
  obtain ⟨r', rel', owner', key', location', -⟩ := g.key_eq sourceCount
  have parts : r = r' ∧ rel = rel' := by
    rw [key, key'] at same
    split at same
    · obtain ⟨sameId, sameRel⟩ :=
        namespacePath_injective (s.rootIds r owner.mem) (s.rootIds r' owner'.mem) same
      exact ⟨eq_of_id owner.mem owner'.mem sameId, sameRel⟩
    · rename_i single
      have one : s.roots.length ≤ 1 := by omega
      exact ⟨eq_of_single one owner.mem owner'.mem, same⟩
  rw [← location, ← location', parts.1, parts.2]

theorem head_absolute (names : List Name) : ∃ rest, absolute names = '/' :: rest := by
  have grows : ∀ (names : List Name) (path : List Char), (∃ rest, path = '/' :: rest) →
      ∃ rest, descend path names = '/' :: rest := by
    intro names
    induction names with
    | nil => exact fun path lead => lead
    | cons name names ih =>
        rintro path ⟨rest, rfl⟩
        refine ih _ ?_
        unfold join
        split
        · exact ⟨_, rfl⟩
        · exact ⟨_, rfl⟩
  exact grows names _ ⟨[], rfl⟩

theorem namespacePath_ne_absolute {id : List Char} (formed : IsRootId id) (rel : List Char)
    (names : List Name) : namespacePath id rel ≠ absolute names := by
  obtain ⟨rest, lead⟩ := head_absolute names
  obtain ⟨hex, rfl, -⟩ := formed
  rw [lead]
  simp [namespacePath]

theorem relative_ne_absolute {rel : List Char} (relative : Relative rel) (f : FoundFile s) :
    rel ≠ absolute f.location := by
  rintro rfl
  refine relative.not_rootDir ?_
  rw [components_absolute f.areNames_location]
  exact List.mem_cons_self

theorem components_belowDir (f : FoundFile s) (dir : List Name) :
    components (f.belowDir dir) = (f.location.drop dir.length).map .normal :=
  components_joined fun name mem => f.areNames_location name (List.mem_of_mem_drop mem)

/-- A path of names leads to the names behind the directory. -/
theorem resolve_normal {dir names : List Name} {rel : List Char}
    (read : components rel = names.map .normal) : resolve dir rel = dir ++ names := by
  rw [resolve, read, foldl_follow_normal]

theorem ReadThrough.above {f : FoundFile s} {v : SourceRoot} (read : f.ReadThrough v) :
    v.dir cwd <+: f.location := by
  obtain ⟨-, -, -, seen, -⟩ := read
  exact seen.2

/-- A namespaced key that is a bare path below another root. -/
theorem dir_of_namespaced_eq_bare {f : FoundFile s} {r v : SourceRoot} {rel : List Char}
    (formed : IsRootId r.id) (relative : Relative rel) (location : resolve (r.dir cwd) rel = f.location)
    (above : v.dir cwd <+: f.location) (same : namespacePath r.id rel = f.belowDir (v.dir cwd)) :
    r.dir cwd = v.dir cwd ++ [r.id] ∧ ∃ names : List Name, components rel = names.map .normal := by
  have spelled := congrArg components same
  rw [namespacePath, components_name_slash formed.isName relative, f.components_belowDir] at spelled
  have behind := List.prefix_append_drop above
  cases rest : f.location.drop (v.dir cwd).length with
  | nil => simp [rest] at spelled
  | cons name names =>
      rw [rest, List.map_cons, List.cons.injEq, Component.normal.injEq] at spelled
      obtain ⟨rfl, read⟩ := spelled
      refine ⟨?_, names, read⟩
      rw [resolve_normal read, behind, rest] at location
      refine List.append_cancel_right (?_ : _ ++ names = _ ++ names)
      rw [location, List.append_assoc, List.singleton_append]

/-- A file below a root that is called by its own id. -/
theorem belowDir_of_named {f : FoundFile s} {r v : SourceRoot} (owner : Owner cwd s.roots f.location r)
    (named : r.dir cwd = v.dir cwd ++ [r.id]) :
    f.belowDir (v.dir cwd) = namespacePath r.id (f.belowDir (r.dir cwd)) := by
  have behind := List.prefix_append_drop owner.above
  have deeper : f.location.drop (r.dir cwd).length ≠ [] := by
    intro none
    rw [none, List.append_nil] at behind
    refine f.file r owner.mem ?_
    rw [← f.location_eq, behind]
  have rest : f.location.drop (v.dir cwd).length = r.id :: f.location.drop (r.dir cwd).length := by
    conv_lhs => rw [behind, named, List.append_assoc, List.drop_left, ← named]
    rfl
  rw [belowDir, rest, joined, List.intercalate_cons_of_ne_nil deeper, namespacePath, belowDir, joined,
    List.append_assoc, List.singleton_append]

/-- The key of a file is among the candidates of its absolute path exactly when the file is
read through the root that owns it. -/
theorem key_mem_candidates_iff {sourceCount : Nat} (enough : s.roots.length ≤ sourceCount)
    (f : FoundFile s) : f.key sourceCount ∈ f.candidates ↔ f.Findable := by
  obtain ⟨r, rel, owner, key, location, relative, clean, normal⟩ := f.key_eq sourceCount
  have formed := s.rootIds r owner.mem
  rw [key]
  constructor
  · intro mem
    by_cases unread : ∀ v, ¬f.ReadThrough v
    · rw [candidates_of_unread unread, List.mem_singleton] at mem
      split at mem
      · exact absurd mem (namespacePath_ne_absolute formed _ _)
      · exact absurd mem (relative_ne_absolute relative f)
    · obtain ⟨v, read⟩ := not_forall_not.mp unread
      rw [candidates_of_readThrough read, List.mem_cons, List.mem_cons, List.mem_singleton] at mem
      split at mem
      · rcases mem with same | same | same
        · obtain ⟨sameId, rfl⟩ := namespacePath_injective formed (s.rootIds v read.mem) same
          obtain rfl := eq_of_id owner.mem read.mem sameId
          exact ⟨r, owner, normal _ (f.components_belowDir _), .inl read⟩
        · obtain ⟨named, names, spelled⟩ :=
            dir_of_namespaced_eq_bare formed relative location read.above same
          exact ⟨r, owner, normal names spelled, .inr ⟨v, read, named⟩⟩
        · exact absurd same (namespacePath_ne_absolute formed _ _)
      · rename_i single
        obtain rfl := eq_of_single (by omega) owner.mem read.mem
        rcases mem with same | same | same
        · -- the bare path would be longer than itself
          have below : Relative (f.belowDir (r.dir cwd)) :=
            relative_joined fun name mem => f.areNames_location name (List.mem_of_mem_drop mem)
          have spelled := congrArg components same
          rw [namespacePath, components_name_slash formed.isName below, f.components_belowDir,
            ← List.map_cons] at spelled
          have length := congrArg List.length (location.symm.trans (resolve_normal spelled))
          have behind := congrArg List.length (List.prefix_append_drop owner.above)
          simp only [List.length_append, List.length_cons] at length behind
          omega
        · exact ⟨r, owner, normal _ (same ▸ f.components_belowDir _), .inl read⟩
        · exact absurd same (relative_ne_absolute relative f)
  · rintro ⟨r', owner', cleanR, read⟩
    obtain rfl := owner_unique owner owner'
    rw [clean cleanR]
    rcases read with read | ⟨v, read, named⟩
    · rw [candidates_of_readThrough read]
      split <;> simp
    · have several : 1 < sourceCount := by
        by_contra single
        obtain rfl := eq_of_single (by omega) owner.mem read.mem
        simpa using congrArg List.length named
      rw [candidates_of_readThrough read, if_pos several, ← belowDir_of_named owner named]
      simp

end FoundFile

/-- **Storage keys name files uniquely, give their relative path back, and are among the
candidates of a file's absolute path** exactly where every file is read through the root that
owns it. -/
theorem storageKeys_iff {cwd : List Name} (s : DirectoryRoots cwd) {sourceCount : Nat}
    (enough : s.roots.length ≤ sourceCount) :
    ((∀ f g : FoundFile s, f.location ≠ g.location → f.key sourceCount ≠ g.key sourceCount) ∧
      (∀ f : FoundFile s, f.key sourceCount ∈ f.candidates) ∧
      ∀ id rel, IsRootId id → rel ≠ [] → stripRootPrefix (namespacePath id rel) = some rel) ↔
    ∀ f : FoundFile s, f.Findable := by
  constructor
  · rintro ⟨-, found, -⟩ f
    exact (FoundFile.key_mem_candidates_iff enough f).mp (found f)
  · intro findable
    refine ⟨fun f g apart same => apart (FoundFile.location_of_key enough same), fun f => ?_,
      fun id rel formed nonempty => stripRootPrefix_namespacePath formed nonempty⟩
    exact (FoundFile.key_mem_candidates_iff enough f).mpr (findable f)

def rootId : List Char := "root-0011223344556677".toList

theorem isRootId_rootId : IsRootId rootId := by
  refine ⟨"0011223344556677".toList, rfl, rfl, ?_⟩
  simp
  decide

/-- One root, given by an absolute path. -/
def oneRoot (path : List Char) (named : path ≠ []) (plain : '\\' ∉ path) : DirectoryRoots [] where
  roots := [⟨path, rootId⟩]
  named := by simpa using named
  rootIds := by simpa using isRootId_rootId
  distinct := by simp
  distinctIds := by simp
  plain := by simpa using plain
  cwdNames := nofun
  cwdPlain := nofun

/-- A root spelled as an absolute path without `..` is recognised. -/
theorem storageKeys_iff_plainRoot :
    let s := oneRoot "/w/shared".toList (by decide) (by decide)
    ∀ f : FoundFile s, f.key 1 ∈ f.candidates := by
  intro s
  have findable : ∀ f : FoundFile s, f.Findable := by
    intro f
    have only : f.root = ⟨"/w/shared".toList, rootId⟩ := List.mem_singleton.mp f.mem
    have above : f.root.dir [] <+: f.location := by
      rw [f.location_eq]
      exact List.prefix_append _ _
    have spelled : f.root.PlainlySpelled := by
      rw [only]
      exact ⟨["w".toList, "shared".toList], by decide⟩
    refine ⟨f.root, ⟨f.mem, above, fun other mem _ => ?_⟩, fun _ => rfl,
      .inl ⟨[], [], ?_, ⟨spelled, above⟩, nofun, nofun⟩⟩
    · rw [List.mem_singleton.mp mem, only]
    · rw [only]
      rfl
  exact ((storageKeys_iff s (by decide)).mpr findable).2.1

/-- `paths = ["../shared"]` in `/w/site/.ministr.toml`. -/
def sharedRoot : DirectoryRoots [] :=
  oneRoot "/w/site/../shared".toList (by decide) (by decide)

def sharedFile : FoundFile sharedRoot where
  root := ⟨"/w/site/../shared".toList, rootId⟩
  mem := by decide
  names := ["a.rs".toList]
  below := by decide
  areNames := by
    intro name mem
    rw [List.mem_singleton.mp mem]
    exact ⟨by decide, by decide, by decide, by decide⟩
  plain := by decide
  file := by decide

/-- The file is stored as `a.rs`, and looked up as `/w/shared/a.rs` only. -/
theorem sharedRoot_not_found :
    sharedFile.key 1 = "a.rs".toList ∧ sharedFile.candidates = ["/w/shared/a.rs".toList] ∧
      sharedFile.key 1 ∉ sharedFile.candidates := by
  decide

end Ministr.Ingestion.Roots
