/-
# Ingestion.PackageChoice — the package a reference is resolved into

Among candidates of one name `disambiguate_target` prefers those in the crate the reference
names, then those in the package of the referring file.  A file belongs to the package whose
directory is the longest prefix of its path, component by component (`PackageGraph.Owns`).
The code asks something else: it takes the first package whose directory is a prefix of the
path as a text, looks the directory of that package up again by its name as if it were a
crate name, and compares texts.

`rank` orders the candidates as the code does, and the first of the least rank is chosen
(`disambiguateTarget_firstLeast`).  So the right package is chosen exactly where a candidate of
it is ahead of all others (`rightPackage_iff`).  A sibling directory with a longer name is
enough to go wrong (`sibling_package_chosen`).
-/
import Ministr.Ingestion.Schedule
import Ministr.Theory.LeastFirst
import Ministr.Theory.UnixPath

namespace Ministr.Ingestion

open Ministr.Theory Ministr.Content

set_option autoImplicit false

/-! ## The package of a file -/

def PackageInfo.dir (p : PackageInfo) : List UnixPath.Component :=
  UnixPath.components p.dirPrefix.toList

/-- The path is under the directory of the package, component by component. -/
def PackageInfo.Covers (p : PackageInfo) (path : String) : Prop :=
  p.dir <+: UnixPath.components path.toList

instance (p : PackageInfo) (path : String) : Decidable (p.Covers path) :=
  inferInstanceAs (Decidable (_ <+: _))

/-- A file belongs to the package of the longest directory that covers it. -/
def PackageGraph.Owns (graph : PackageGraph) (p : PackageInfo) (path : String) : Prop :=
  p ∈ graph ∧ p.Covers path ∧ ∀ q ∈ graph, q.Covers path → q.dir.length ≤ p.dir.length

instance (graph : PackageGraph) (p : PackageInfo) (path : String) :
    Decidable (graph.Owns p path) :=
  inferInstanceAs (Decidable (_ ∧ _ ∧ _))

section Choice

variable (graph : PackageGraph) (path : String) (targetCrate : Option String)

/-- The file belongs to a package of the crate the reference names. -/
def InTargetCrate (file : String) : Prop :=
  ∃ p ∈ graph, graph.Owns p file ∧ targetCrate = some p.crateName

/-- The file belongs to the package of the referring file. -/
def InOwnPackage (file : String) : Prop := ∃ p ∈ graph, graph.Owns p path ∧ graph.Owns p file

instance (file : String) : Decidable (InTargetCrate graph targetCrate file) :=
  inferInstanceAs (Decidable (∃ p ∈ graph, _))

instance (file : String) : Decidable (InOwnPackage graph path file) :=
  inferInstanceAs (Decidable (∃ p ∈ graph, _))

/-- The package to prefer: that of the named crate, where it has a candidate, or else that of
the referring file, where that one has. -/
def RightPackage (primary : List SymbolRecord) (file : String) : Prop :=
  if ∃ r ∈ primary, InTargetCrate graph targetCrate r.filePath then
    InTargetCrate graph targetCrate file
  else if ∃ r ∈ primary, InOwnPackage graph path r.filePath then InOwnPackage graph path file
  else True

instance (primary : List SymbolRecord) (file : String) :
    Decidable (RightPackage graph path targetCrate primary file) := by
  unfold RightPackage
  infer_instance

/-! ## The order of the candidates -/

/-- The test for the named crate. -/
def crateTest (file : String) : Bool :=
  (targetCrate.bind graph.dirPrefixForCrate).any fun dir => startsWith file dir

/-- The test for the package of the referring file. -/
def packageTest (file : String) : Bool :=
  ((graph.packageForFile path).bind graph.dirPrefixForCrate).any fun dir => startsWith file dir

def elsewhere (r : SymbolRecord) : Nat := if r.filePath = path then 1 else 0

/-- Candidates that pass an earlier test come first, and among them those of other files. -/
def rank (r : SymbolRecord) : Nat :=
  2 * (if crateTest graph targetCrate r.filePath then 0
    else if packageTest graph path r.filePath then 1 else 2) + elsewhere path r

theorem crateFiltered_eq (primary : List SymbolRecord) :
    crateFiltered (some graph) targetCrate primary =
      primary.filter fun r => crateTest graph targetCrate r.filePath := by
  unfold crateFiltered crateTest
  cases targetCrate with
  | none => simp
  | some tc =>
      simp only [Option.bind_some]
      cases graph.dirPrefixForCrate tc with
      | none => simp
      | some dir => simp

theorem samePkg_eq (primary : List SymbolRecord) :
    samePkg (some graph) path primary =
      primary.filter fun r => packageTest graph path r.filePath := by
  unfold samePkg packageTest
  simp only [Option.bind_some]
  cases (graph.packageForFile path).bind graph.dirPrefixForCrate with
  | none => simp
  | some dir => simp

theorem elsewhere_le (r : SymbolRecord) : elsewhere path r ≤ 1 := by
  unfold elsewhere
  split <;> omega

variable {path} in
theorem preferCrossFile_firstLeast {records : List SymbolRecord} {d : SymbolRecord}
    (chosen : preferCrossFile path records = some d) :
    ∃ front back, records = front ++ d :: back ∧ FirstLeast (elsewhere path) front d back := by
  unfold preferCrossFile at chosen
  cases found : records.find? fun s => s.filePath ≠ path with
  | some e =>
      rw [found] at chosen
      obtain rfl : e = d := by simpa using chosen
      obtain ⟨other, front, back, whole, before⟩ := List.find?_eq_some_iff_append.mp found
      have away : e.filePath ≠ path := by simpa using other
      have zero : elsewhere path e = 0 := if_neg away
      refine ⟨front, back, whole, fun b mem => ?_, fun b mem => by omega⟩
      have here : b.filePath = path := by simpa using before b mem
      have one : elsewhere path b = 1 := if_pos here
      omega
  | none =>
      rw [found] at chosen
      obtain ⟨back, whole⟩ := List.head?_eq_some_iff.mp (by simpa using chosen)
      refine ⟨[], back, whole, nofun, fun b mem => ?_⟩
      have one : ∀ r ∈ records, elsewhere path r = 1 := fun r listed => by
        simpa [elsewhere] using List.find?_eq_none.mp found r listed
      rw [one b (whole ▸ List.mem_cons_of_mem _ mem), one d (whole ▸ List.mem_cons_self)]

variable {path} in
/-- The first of the least among the candidates that pass a test is the first of the least
among all, when those that fail it come behind. -/
theorem firstLeast_of_filter {primary : List SymbolRecord} {passes : SymbolRecord → Bool}
    {key : SymbolRecord → Nat} (level : Nat) {d : SymbolRecord}
    (passed : ∀ r ∈ primary, passes r = true → key r = 2 * level + elsewhere path r)
    (failed : ∀ r ∈ primary, passes r = false → 2 * level + 1 < key r)
    (chosen : preferCrossFile path (primary.filter passes) = some d) :
    ∃ front back, primary = front ++ d :: back ∧ FirstLeast key front d back := by
  obtain ⟨front', back', whole', least⟩ := preferCrossFile_firstLeast chosen
  obtain ⟨front, rest, rfl, kept, tail⟩ := List.filter_eq_append_iff.mp whole'
  obtain ⟨skipped, back, rfl, none, good, kept'⟩ := List.filter_eq_cons_iff.mp tail
  have keyD := passed d (by simp) good
  have low := elsewhere_le path d
  refine ⟨front ++ skipped, back, by simp, fun b mem => ?_, fun b mem => ?_⟩
  · have listed : b ∈ front ++ (skipped ++ d :: back) := by
      rcases List.mem_append.mp mem with mem | mem <;> simp [mem]
    by_cases pass : passes b = true
    · rcases List.mem_append.mp mem with first | second
      · have less := least.before b (kept ▸ List.mem_filter.mpr ⟨first, pass⟩)
        rw [keyD, passed b listed pass]
        omega
      · exact absurd pass (none b second)
    · have more := failed b listed (by simpa using pass)
      omega
  · have listed : b ∈ front ++ (skipped ++ d :: back) := by simp [mem]
    by_cases pass : passes b = true
    · have less := least.after b (kept' ▸ List.mem_filter.mpr ⟨mem, pass⟩)
      rw [keyD, passed b listed pass]
      omega
    · have more := failed b listed (by simpa using pass)
      omega

/-- `disambiguate_target` chooses the first of the candidates of least rank. -/
theorem disambiguateTarget_firstLeast {primary : List SymbolRecord} {d : SymbolRecord}
    (chosen : disambiguateTarget primary path targetCrate (some graph) = some d) :
    ∃ front back, primary = front ++ d :: back ∧
      FirstLeast (rank graph path targetCrate) front d back := by
  rw [disambiguateTarget_eq] at chosen
  simp only [preferred, crateFiltered_eq, samePkg_eq, List.isEmpty_iff] at chosen
  by_cases noCrate : primary.filter (fun r => crateTest graph targetCrate r.filePath) = []
  · have outside : ∀ r ∈ primary, crateTest graph targetCrate r.filePath = false := by
      simpa [List.filter_eq_nil_iff] using noCrate
    rw [if_pos noCrate] at chosen
    by_cases noPackage : primary.filter (fun r => packageTest graph path r.filePath) = []
    · have away : ∀ r ∈ primary, packageTest graph path r.filePath = false := by
        simpa [List.filter_eq_nil_iff] using noPackage
      rw [if_pos noPackage, ← List.filter_true primary] at chosen
      refine firstLeast_of_filter 2 (fun r mem _ => ?_) (fun r mem pass => by simp at pass) chosen
      simp [rank, outside r mem, away r mem]
    · rw [if_neg noPackage] at chosen
      refine firstLeast_of_filter 1 (fun r mem pass => ?_) (fun r mem pass => ?_) chosen
      · simp [rank, outside r mem, pass]
      · simp only [rank, outside r mem, pass, Bool.false_eq_true, if_false]
        omega
  · rw [if_neg noCrate] at chosen
    refine firstLeast_of_filter 0 (fun r mem pass => ?_) (fun r mem pass => ?_) chosen
    · simp [rank, pass]
    · have two : 2 ≤ rank graph path targetCrate r := by
        simp only [rank, pass, Bool.false_eq_true, if_false]
        split <;> omega
      omega

/-! ## When the right package is chosen -/

/-- A candidate of the right package is ahead of all candidates outside it: of a smaller rank,
or of the same one and listed earlier. -/
def RightAhead (primary : List SymbolRecord) : Prop :=
  ∃ front t back, primary = front ++ t :: back ∧
    RightPackage graph path targetCrate primary t.filePath ∧
    (∀ c ∈ front, ¬RightPackage graph path targetCrate primary c.filePath →
      rank graph path targetCrate t < rank graph path targetCrate c) ∧
    ∀ c ∈ back, ¬RightPackage graph path targetCrate primary c.filePath →
      rank graph path targetCrate t ≤ rank graph path targetCrate c

/-- **`disambiguate_target` chooses the right package** exactly where a candidate of it is ahead
of all others. -/
theorem rightPackage_iff (primary : List SymbolRecord) :
    (∃ d, disambiguateTarget primary path targetCrate (some graph) = some d ∧
      RightPackage graph path targetCrate primary d.filePath) ↔
    RightAhead graph path targetCrate primary := by
  constructor
  · rintro ⟨d, chosen, right⟩
    obtain ⟨front, back, whole, least⟩ := disambiguateTarget_firstLeast graph path targetCrate chosen
    exact ⟨front, d, back, whole, right, fun c mem _ => least.before c mem,
      fun c mem _ => least.after c mem⟩
  · rintro ⟨front, t, back, whole, right, before, after⟩
    have candidate : primary ≠ [] := by simp [whole]
    obtain ⟨d, mem, chosen⟩ := disambiguateTarget_spec (some graph) path targetCrate candidate
    refine ⟨d, chosen, ?_⟩
    obtain ⟨front', back', whole', least⟩ :=
      disambiguateTarget_firstLeast graph path targetCrate chosen
    by_contra wrong
    -- the two stand at different places, and each is ahead of the other
    rcases List.append_eq_append_iff.mp (whole.symm.trans whole') with
      ⟨_ | ⟨a, between⟩, first, second⟩ | ⟨_ | ⟨a, between⟩, first, second⟩
    · obtain ⟨rfl, -⟩ := List.cons.inj second
      exact wrong right
    · obtain ⟨rfl, rest⟩ := List.cons.inj second
      have less := least.before t (by simp [first])
      have more := after d (by simp [rest]) wrong
      omega
    · obtain ⟨rfl, -⟩ := List.cons.inj second
      exact wrong right
    · obtain ⟨rfl, rest⟩ := List.cons.inj second
      have less := before d (by simp [first]) wrong
      have more := least.after t (by simp [rest])
      omega

/-- Tests that tell the packages of the candidates apart choose the right one. -/
theorem rightAhead_of_tests {primary : List SymbolRecord} (candidate : primary ≠ [])
    (crate : ∀ r ∈ primary,
      crateTest graph targetCrate r.filePath = true ↔ InTargetCrate graph targetCrate r.filePath)
    (package : ∀ r ∈ primary,
      packageTest graph path r.filePath = true ↔ InOwnPackage graph path r.filePath) :
    RightAhead graph path targetCrate primary := by
  obtain ⟨d, -, chosen⟩ := disambiguateTarget_spec (some graph) path targetCrate candidate
  obtain ⟨front, back, rfl, least⟩ := disambiguateTarget_firstLeast graph path targetCrate chosen
  refine ⟨front, d, back, rfl, ?_, fun c mem _ => least.before c mem,
    fun c mem _ => least.after c mem⟩
  have listed : d ∈ front ++ d :: back := by simp
  unfold RightPackage
  split
  · rename_i someTarget
    obtain ⟨r, mem, inCrate⟩ := someTarget
    have ahead := least.le mem
    have inside : rank graph path targetCrate r ≤ 1 := by
      simpa [rank, (crate r mem).mpr inCrate] using elsewhere_le path r
    refine (crate d listed).mp (by_contra fun outside => ?_)
    simp only [rank, outside, Bool.false_eq_true, if_false] at ahead inside
    split at ahead <;> omega
  · rename_i noTarget
    have outside : ∀ r ∈ front ++ d :: back, crateTest graph targetCrate r.filePath = false :=
      fun r mem => by simpa using fun passed => noTarget ⟨r, mem, (crate r mem).mp passed⟩
    split
    · rename_i someOwn
      obtain ⟨r, mem, own⟩ := someOwn
      have ahead := least.le mem
      have low := elsewhere_le path r
      refine (package d listed).mp (by_contra fun away => ?_)
      simp only [rank, outside r mem, outside d listed, (package r mem).mpr own, away,
        Bool.false_eq_true, if_false, if_true] at ahead
      omega
    · trivial

end Choice

/-- Two packages, the directory of the one being the start of the name of the other. -/
def siblings : PackageGraph :=
  [⟨"core", "core", "core"⟩, ⟨"core_ext", "core_ext", "core_ext"⟩]

def openIn (file : String) : SymbolRecord where
  id := "sym-" ++ file ++ "::open"
  filePath := file
  name := "open"
  kind := "function"
  visibility := "pub"
  signature := "fn open()"
  docComment := none
  modulePath := ""
  lineStart := 1
  lineEnd := 3
  cyclomaticComplexity := some 1

/-- A call in `core_ext` is resolved into `core`, though `core_ext` has such a function. -/
theorem sibling_package_chosen :
    let primary := [openIn "core/src/lib.rs", openIn "core_ext/src/open.rs"]
    disambiguateTarget primary "core_ext/src/lib.rs" none (some siblings) =
        some (openIn "core/src/lib.rs") ∧
      InOwnPackage siblings "core_ext/src/lib.rs" "core_ext/src/open.rs" ∧
      ¬RightPackage siblings "core_ext/src/lib.rs" none primary "core/src/lib.rs" := by
  decide +kernel

end Ministr.Ingestion
