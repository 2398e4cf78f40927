/-
# Session.Delta — the line delta sent when a delivered section has changed

`compute_delta` splits both versions into lines, fills the table of longest
common subsequences row by row, and walks back through it from the last cell.

`computeDelta_minimal` says that the walk is a correct and minimal edit script:
it reads as either version when the other's lines are left out, it keeps as many
lines as any common subsequence can, and it is free of changes only for equal
texts (`splitLines_injective`: a trailing newline or a carriage return is seen).
-/

import Ministr.Theory.CommonSublist

namespace Ministr.Session

open Ministr.Theory

set_option autoImplicit false

/-! ## The source -/

/-- `DeltaLine`. -/
inductive DeltaLine where
  | context (line : String)
  | added (line : String)
  | removed (line : String)
  deriving DecidableEq, Repr

def DeltaLine.isContext : DeltaLine → Bool
  | context _ => true
  | _ => false

def DeltaLine.isAdded : DeltaLine → Bool
  | added _ => true
  | _ => false

def DeltaLine.isRemoved : DeltaLine → Bool
  | removed _ => true
  | _ => false

/-- `ContentDelta`. -/
structure ContentDelta where
  lines : List DeltaLine
  additions : Nat
  removals : Nat
  deriving DecidableEq, Repr

/-- `split_lines`: unlike `str::lines`, a trailing newline gives a last empty
line, and a carriage return stays on its line. -/
def splitLines (s : String) : List String :=
  if s.isEmpty then [] else (s.toList.splitOn '\n').map String.ofList

/-- `Vec<Vec<usize>>`, row by row. -/
abbrev LcsTable := List (List Nat)

/-- `table[i][j]`; the loops stay inside the table. -/
def LcsTable.cell (table : LcsTable) (i j : Nat) : Nat :=
  (table.getD i []).getD j 0

/-- `table[i][j] = value`. -/
def LcsTable.setCell (table : LcsTable) (i j value : Nat) : LcsTable :=
  table.set i ((table.getD i []).set j value)

/-- `old[i]`, for an index inside the list. -/
def lineAt (lines : List String) (i : Nat) : String := lines.getD i ""

/-- The body of the two loops of `lcs_table`. -/
def fillCell (old new : List String) (i : Nat) (table : LcsTable) (j : Nat) : LcsTable :=
  if lineAt old (i - 1) = lineAt new (j - 1) then
    table.setCell i j (table.cell (i - 1) (j - 1) + 1)
  else
    table.setCell i j (max (table.cell (i - 1) j) (table.cell i (j - 1)))

/-- `lcs_table`. -/
def lcsTable (old new : List String) : LcsTable :=
  let m := old.length
  let n := new.length
  (List.range' 1 m).foldl
    (fun table i => (List.range' 1 n).foldl (fillCell old new i) table)
    (List.replicate (m + 1) (List.replicate (n + 1) 0))

/-- The `while` loop of `build_diff`. -/
def backtrack (old new : List String) (table : LcsTable) (i j : Nat) (result : List DeltaLine) :
    List DeltaLine :=
  if 0 < i ∨ 0 < j then
    if 0 < i ∧ 0 < j ∧ lineAt old (i - 1) = lineAt new (j - 1) then
      backtrack old new table (i - 1) (j - 1) (result ++ [.context (lineAt old (i - 1))])
    else if 0 < j ∧ (i = 0 ∨ table.cell (i - 1) j ≤ table.cell i (j - 1)) then
      backtrack old new table i (j - 1) (result ++ [.added (lineAt new (j - 1))])
    else
      backtrack old new table (i - 1) j (result ++ [.removed (lineAt old (i - 1))])
  else
    result
termination_by i + j
decreasing_by all_goals grind

/-- `build_diff`. -/
def buildDiff (old new : List String) (table : LcsTable) : List DeltaLine :=
  (backtrack old new table old.length new.length []).reverse

/-- `compute_delta`. -/
def computeDelta (old new : String) : ContentDelta :=
  let oldLines := splitLines old
  let newLines := splitLines new
  let lines := buildDiff oldLines newLines (lcsTable oldLines newLines)
  { lines := lines
    additions := (lines.filter DeltaLine.isAdded).length
    removals := (lines.filter DeltaLine.isRemoved).length }

/-! ## What a delta stands for -/

def DeltaLine.oldLine : DeltaLine → Option String
  | context line => some line
  | added _ => none
  | removed line => some line

def DeltaLine.newLine : DeltaLine → Option String
  | context line => some line
  | added line => some line
  | removed _ => none

/-- The delta with the added lines erased. -/
def oldSide (lines : List DeltaLine) : List String := lines.filterMap DeltaLine.oldLine

/-- The delta with the removed lines erased. -/
def newSide (lines : List DeltaLine) : List String := lines.filterMap DeltaLine.newLine

/-- The number of lines the delta keeps. -/
def keptLines (lines : List DeltaLine) : Nat := lines.countP DeltaLine.isContext

/-- A minimal edit script from `old` to `new`. -/
structure EditScript (old new : List String) (lines : List DeltaLine) : Prop where
  reads_old : oldSide lines = old
  reads_new : newSide lines = new
  longest : LongestCommon old new (keptLines lines)

theorem length_oldSide (lines : List DeltaLine) :
    (oldSide lines).length = keptLines lines + (lines.filter DeltaLine.isRemoved).length := by
  induction lines with
  | nil => rfl
  | cons line lines ih =>
      simp only [oldSide, keptLines] at ih
      cases line <;>
        simp [oldSide, keptLines, DeltaLine.oldLine, DeltaLine.isContext, DeltaLine.isRemoved,
          List.filterMap_cons, List.countP_cons, List.filter_cons, ih] <;> omega

theorem length_newSide (lines : List DeltaLine) :
    (newSide lines).length = keptLines lines + (lines.filter DeltaLine.isAdded).length := by
  induction lines with
  | nil => rfl
  | cons line lines ih =>
      simp only [newSide, keptLines] at ih
      cases line <;>
        simp [newSide, keptLines, DeltaLine.newLine, DeltaLine.isContext, DeltaLine.isAdded,
          List.filterMap_cons, List.countP_cons, List.filter_cons, ih] <;> omega

/-! ## Lines -/

theorem intercalate_splitLines (s : String) :
    ['\n'].intercalate ((splitLines s).map String.toList) = s.toList := by
  unfold splitLines
  split
  · rename_i empty
    simp [String.isEmpty_iff.mp empty]
  · rw [List.map_map]
    have same : String.toList ∘ String.ofList = id := by
      funext chars
      simp
    rw [same, List.map_id, List.intercalate_splitOn]

/-- **Equal lines are equal texts**: nothing about line ends is lost. -/
theorem splitLines_injective : Function.Injective splitLines := by
  intro s t same
  have := intercalate_splitLines s
  rw [same, intercalate_splitLines] at this
  exact (String.toList_inj.mp this).symm

theorem take_succ_lineAt {lines : List String} {i : Nat} (inside : i < lines.length) :
    lines.take (i + 1) = lines.take i ++ [lineAt lines i] := by
  rw [List.take_succ_eq_append_getElem inside, lineAt, List.getD_eq_getElem?_getD,
    List.getElem?_eq_getElem inside, Option.getD_some]

/-! ## The table -/

section Table

variable {old new : List String} {table : LcsTable} {i j : Nat}

/-- The table is right for every prefix of `old` before row `i`, for the first
`j` columns of row `i`, and for the column of the empty prefix of `new`. -/
structure Filled (old new : List String) (table : LcsTable) (i j : Nat) : Prop where
  rows : table.length = old.length + 1
  columns : ∀ a ≤ old.length, (table.getD a []).length = new.length + 1
  cells : ∀ a ≤ old.length, ∀ b ≤ new.length, (a < i ∨ (a = i ∧ b ≤ j) ∨ b = 0) →
    LongestCommon (old.take a) (new.take b) (table.cell a b)

theorem getD_setCell (inside : i < table.length) (value a : Nat) :
    (table.setCell i j value).getD a [] =
      if a = i then (table.getD i []).set j value else table.getD a [] := by
  by_cases same : a = i
  · subst same
    simp [LcsTable.setCell, inside]
  · have : i ≠ a := fun eq => same eq.symm
    simp [LcsTable.setCell, same, List.getElem?_set_ne this]

theorem cell_setCell (inside : i < table.length) (inRow : j < (table.getD i []).length)
    (value a b : Nat) :
    (table.setCell i j value).cell a b = if a = i ∧ b = j then value else table.cell a b := by
  unfold LcsTable.cell
  rw [getD_setCell inside]
  by_cases row : a = i
  · subst row
    rw [if_pos rfl]
    generalize table.getD a [] = cells at inRow ⊢
    by_cases column : b = j
    · subst column
      simp [inRow]
    · have : j ≠ b := fun eq => column eq.symm
      simp [column, List.getElem?_set_ne this]
  · simp [row]

/-- Row 0 and column 0 of the new table. -/
theorem filled_zeros (old new : List String) :
    Filled old new (List.replicate (old.length + 1) (List.replicate (new.length + 1) 0)) 1 0 := by
  have row : ∀ a ≤ old.length,
      (List.replicate (old.length + 1) (List.replicate (new.length + 1) 0)).getD a [] =
        List.replicate (new.length + 1) 0 := by
    intro a le
    simp [Nat.lt_succ_of_le le]
  refine ⟨by simp, fun a le => by rw [row a le]; simp, ?_⟩
  intro a inOld b inNew edge
  have zero : LcsTable.cell (List.replicate (old.length + 1) (List.replicate (new.length + 1) 0))
      a b = 0 := by
    unfold LcsTable.cell
    rw [row a inOld]
    simp [Nat.lt_succ_of_le inNew]
  rw [zero]
  by_cases first : a = 0
  · subst first
    simpa using longestCommon_nil_left (new.take b)
  · have : b = 0 := by omega
    subst this
    simpa using longestCommon_nil_right (old.take a)

/-- **One cell**: the recurrence gives the next one its length. -/
theorem Filled.fillCell (filled : Filled old new table (i + 1) j)
    (inOld : i < old.length) (inNew : j < new.length) :
    Filled old new (fillCell old new (i + 1) table (j + 1)) (i + 1) (j + 1) := by
  have inside : i + 1 < table.length := by
    rw [filled.rows]
    omega
  have inRow : j + 1 < (table.getD (i + 1) []).length := by
    rw [filled.columns (i + 1) (by omega)]
    omega
  -- both branches write one value at this cell; only its length is at stake
  suffices value : ∃ length, Session.fillCell old new (i + 1) table (j + 1) =
        table.setCell (i + 1) (j + 1) length ∧
      LongestCommon (old.take (i + 1)) (new.take (j + 1)) length by
    obtain ⟨length, eq, longest⟩ := value
    rw [eq]
    refine ⟨by simp [LcsTable.setCell, filled.rows], ?_, ?_⟩
    · intro a le
      rw [getD_setCell inside]
      split
      · simpa using filled.columns (i + 1) (by omega)
      · exact filled.columns a le
    · intro a leOld b leNew done
      rw [cell_setCell inside inRow]
      split
      · rename_i here
        rw [here.1, here.2]
        exact longest
      · exact filled.cells a leOld b leNew (by omega)
  unfold Session.fillCell
  rw [Nat.add_sub_cancel, Nat.add_sub_cancel, take_succ_lineAt inOld, take_succ_lineAt inNew]
  split
  · rename_i same
    refine ⟨_, rfl, ?_⟩
    rw [same]
    exact (filled.cells i (by omega) j (by omega) (by omega)).snoc_same
  · rename_i different
    have up := filled.cells i (by omega) (j + 1) (by omega) (by omega)
    have left := filled.cells (i + 1) (by omega) j (by omega) (by omega)
    rw [take_succ_lineAt inNew] at up
    rw [take_succ_lineAt inOld] at left
    refine ⟨_, rfl, ?_⟩
    rw [max_comm]
    exact LongestCommon.snoc_other different left up

/-- What the body of a counting loop keeps, the loop keeps. -/
theorem foldl_range' {β : Type} (holds : Nat → β → Prop) {f : β → Nat → β} {start : β} {n : Nat}
    (first : holds 0 start) (body : ∀ k < n, ∀ x, holds k x → holds (k + 1) (f x (k + 1))) :
    holds n ((List.range' 1 n).foldl f start) := by
  induction n with
  | zero => exact first
  | succ n ih =>
      rw [List.range'_1_concat, List.foldl_append, Nat.add_comm 1 n]
      exact body n (by omega) _ (ih fun k lt => body k (by omega))

theorem Filled.row (filled : Filled old new table (i + 1) 0) (inOld : i < old.length) :
    Filled old new ((List.range' 1 new.length).foldl (Session.fillCell old new (i + 1)) table)
      (i + 2) 0 := by
  have full : Filled old new
      ((List.range' 1 new.length).foldl (Session.fillCell old new (i + 1)) table)
      (i + 1) new.length :=
    foldl_range' (fun j table => Filled old new table (i + 1) j) filled
      fun _ inNew _ filled => filled.fillCell inOld inNew
  exact ⟨full.rows, full.columns, fun a leOld b leNew done =>
    full.cells a leOld b leNew (by omega)⟩

theorem lcsTable_filled (old new : List String) :
    Filled old new (lcsTable old new) (old.length + 1) 0 :=
  foldl_range' (fun i table => Filled old new table (i + 1) 0) (filled_zeros old new)
    fun _ inOld _ filled => filled.row inOld

theorem lcsTable_cell (inOld : i ≤ old.length) (inNew : j ≤ new.length) :
    LongestCommon (old.take i) (new.take j) ((lcsTable old new).cell i j) :=
  (lcsTable_filled old new).cells i inOld j inNew (by omega)

end Table

/-! ## The walk back -/

section Walk

variable {old new : List String} {i j : Nat} {lines : List DeltaLine}

theorem EditScript.context (rest : EditScript (old.take i) (new.take j) lines)
    (inOld : i < old.length) (inNew : j < new.length) (same : lineAt old i = lineAt new j) :
    EditScript (old.take (i + 1)) (new.take (j + 1)) (lines ++ [.context (lineAt old i)]) where
  reads_old := by
    rw [take_succ_lineAt inOld, ← rest.reads_old]
    simp [oldSide, DeltaLine.oldLine]
  reads_new := by
    rw [take_succ_lineAt inNew, ← rest.reads_new, same]
    simp [newSide, DeltaLine.newLine]
  longest := by
    rw [take_succ_lineAt inOld, take_succ_lineAt inNew, same]
    simpa [keptLines, DeltaLine.isContext] using rest.longest.snoc_same

/-- A line is added where dropping it costs no common line. -/
theorem EditScript.added (rest : EditScript (old.take i) (new.take j) lines)
    (inNew : j < new.length)
    (free : ∀ n, LongestCommon (old.take i) (new.take j) n →
      LongestCommon (old.take i) (new.take (j + 1)) n) :
    EditScript (old.take i) (new.take (j + 1)) (lines ++ [.added (lineAt new j)]) where
  reads_old := by
    rw [← rest.reads_old]
    simp [oldSide, DeltaLine.oldLine]
  reads_new := by
    rw [take_succ_lineAt inNew, ← rest.reads_new]
    simp [newSide, DeltaLine.newLine]
  longest := by
    apply free
    simpa [keptLines, DeltaLine.isContext] using rest.longest

theorem EditScript.removed (rest : EditScript (old.take i) (new.take j) lines)
    (inOld : i < old.length)
    (free : ∀ n, LongestCommon (old.take i) (new.take j) n →
      LongestCommon (old.take (i + 1)) (new.take j) n) :
    EditScript (old.take (i + 1)) (new.take j) (lines ++ [.removed (lineAt old i)]) where
  reads_old := by
    rw [take_succ_lineAt inOld, ← rest.reads_old]
    simp [oldSide, DeltaLine.oldLine]
  reads_new := by
    rw [← rest.reads_new]
    simp [newSide, DeltaLine.newLine]
  longest := by
    apply free
    simpa [keptLines, DeltaLine.isContext] using rest.longest

/-- At two different ends, the cell with the larger neighbour costs nothing. -/
theorem longest_of_cells (inOld : i < old.length) (inNew : j < new.length)
    (different : lineAt old i ≠ lineAt new j) :
    LongestCommon (old.take (i + 1)) (new.take (j + 1))
      (max ((lcsTable old new).cell (i + 1) j) ((lcsTable old new).cell i (j + 1))) := by
  have left := lcsTable_cell (i := i + 1) (j := j) (by omega : i + 1 ≤ old.length)
    (by omega : j ≤ new.length)
  have up := lcsTable_cell (i := i) (j := j + 1) (by omega : i ≤ old.length)
    (by omega : j + 1 ≤ new.length)
  rw [take_succ_lineAt inOld] at left ⊢
  rw [take_succ_lineAt inNew] at up ⊢
  exact LongestCommon.snoc_other different left up

/-- **The walk back** from any cell writes, last line first, a minimal edit script
of the two prefixes the cell stands for. -/
theorem backtrack_script (inOld : i ≤ old.length) (inNew : j ≤ new.length)
    (result : List DeltaLine) :
    ∃ script, backtrack old new (lcsTable old new) i j result = result ++ script ∧
      EditScript (old.take i) (new.take j) script.reverse := by
  fun_induction backtrack old new (lcsTable old new) i j result with
  | case1 i j result going same ih =>
      obtain ⟨i, rfl⟩ : ∃ k, i = k + 1 := ⟨i - 1, by omega⟩
      obtain ⟨j, rfl⟩ : ∃ k, j = k + 1 := ⟨j - 1, by omega⟩
      simp only [Nat.add_sub_cancel] at same ih ⊢
      obtain ⟨script, eq, rest⟩ := ih (by omega) (by omega)
      refine ⟨.context (lineAt old i) :: script, by simp [eq], ?_⟩
      rw [List.reverse_cons]
      exact rest.context inOld inNew same.2.2
  | case2 i j result going different add ih =>
      obtain ⟨j, rfl⟩ : ∃ k, j = k + 1 := ⟨j - 1, by omega⟩
      simp only [Nat.add_sub_cancel] at add different ih ⊢
      obtain ⟨script, eq, rest⟩ := ih inOld (by omega)
      refine ⟨.added (lineAt new j) :: script, by simp [eq], ?_⟩
      rw [List.reverse_cons]
      refine rest.added inNew fun n longest => ?_
      cases i with
      | zero =>
          simp only [List.take_zero] at longest ⊢
          rw [longest.unique (longestCommon_nil_left _)]
          exact longestCommon_nil_left _
      | succ i =>
          rw [longest.unique (lcsTable_cell inOld (by omega))]
          have le : (lcsTable old new).cell i (j + 1) ≤ (lcsTable old new).cell (i + 1) j := by
            simpa using add.2
          have := longest_of_cells inOld inNew (by simpa using different)
          rwa [max_eq_left le] at this
  | case3 i j result going different keep ih =>
      obtain ⟨i, rfl⟩ : ∃ k, i = k + 1 := ⟨i - 1, by omega⟩
      simp only [Nat.add_sub_cancel] at keep different ih ⊢
      obtain ⟨script, eq, rest⟩ := ih (by omega) inNew
      refine ⟨.removed (lineAt old i) :: script, by simp [eq], ?_⟩
      rw [List.reverse_cons]
      refine rest.removed inOld fun n longest => ?_
      cases j with
      | zero =>
          simp only [List.take_zero] at longest ⊢
          rw [longest.unique (longestCommon_nil_right _)]
          exact longestCommon_nil_right _
      | succ j =>
          rw [longest.unique (lcsTable_cell (by omega) inNew)]
          have le : (lcsTable old new).cell (i + 1) j ≤ (lcsTable old new).cell i (j + 1) := by
            have : (lcsTable old new).cell (i + 1) j < (lcsTable old new).cell i (j + 1) := by
              simpa using keep
            omega
          have := longest_of_cells inOld inNew (by simpa using different)
          rwa [max_eq_right le] at this
  | case4 i j result stopped =>
      obtain ⟨rfl, rfl⟩ : i = 0 ∧ j = 0 := by omega
      exact ⟨[], by simp, rfl, rfl, longestCommon_nil_left _⟩

/-- The whole walk, from the last cell. -/
theorem buildDiff_script (old new : List String) :
    EditScript old new (buildDiff old new (lcsTable old new)) := by
  obtain ⟨script, eq, minimal⟩ := backtrack_script (Nat.le_refl old.length) (Nat.le_refl new.length) []
  rw [buildDiff, eq, List.nil_append]
  simpa using minimal

/-- A minimal script changes nothing exactly between equal lists of lines. -/
theorem EditScript.unchanged_iff (script : EditScript old new lines) :
    (lines.filter DeltaLine.isAdded).length + (lines.filter DeltaLine.isRemoved).length = 0 ↔
      old = new := by
  have atOld := length_oldSide lines
  have atNew := length_newSide lines
  rw [script.reads_old] at atOld
  rw [script.reads_new] at atNew
  constructor
  · intro unchanged
    obtain ⟨zs, inOld, inNew, length⟩ := script.longest.attained
    rw [← inOld.eq_of_length (by omega), ← inNew.eq_of_length (by omega)]
  · rintro rfl
    have := script.longest.unique (longestCommon_self old)
    omega

end Walk

/-- **The delta is a correct and minimal edit script.**  For every two texts it
reads as the old lines without its added lines and as the new lines without its
removed ones, the lines it keeps are as many as a longest common subsequence of
the two has, its counts are of its added and removed lines, and both are zero
exactly when the texts are the same string. -/
theorem computeDelta_minimal (old new : String) :
    oldSide (computeDelta old new).lines = splitLines old ∧
    newSide (computeDelta old new).lines = splitLines new ∧
    LongestCommon (splitLines old) (splitLines new) (keptLines (computeDelta old new).lines) ∧
    (computeDelta old new).additions = (computeDelta old new).lines.countP DeltaLine.isAdded ∧
    (computeDelta old new).removals = (computeDelta old new).lines.countP DeltaLine.isRemoved ∧
    ((computeDelta old new).additions + (computeDelta old new).removals = 0 ↔ old = new) := by
  have script := buildDiff_script (splitLines old) (splitLines new)
  refine ⟨script.reads_old, script.reads_new, script.longest, ?_, ?_, ?_⟩
  · exact List.countP_eq_length_filter.symm
  · exact List.countP_eq_length_filter.symm
  · exact script.unchanged_iff.trans splitLines_injective.eq_iff

end Ministr.Session
