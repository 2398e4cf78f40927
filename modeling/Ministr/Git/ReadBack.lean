/-
# Git.ReadBack — for which changes a diff is read back

`parseUnifiedDiff_iff` says which lists of changes the parser reads back from what git prints:
those whose files, as far as they have hunks and are not deleted, are `Readable`.

One direction compares the files change by change.  For the other, a file that is cut in two or
that loses a range weighs less than it should (`weight_pieces_eq_iff`), and no change weighs
more, so that equal lists are equal change by change.
-/
import Ministr.Git.Diff
import Mathlib.Algebra.Order.BigOperators.Group.List
import Mathlib.Algebra.Order.Ring.Nat

namespace Ministr.Git

open Ministr.Theory Ministr.Content

set_option autoImplicit false

section Names

variable (root : List Char)

/-! ## The head side of a name -/

theorem rdropWhile_append (front text : List Char) {c : Char} (visible : isWhitespace c = false) :
    (front ++ c :: text).rdropWhile isWhitespace =
      front ++ c :: text.rdropWhile isWhitespace := by
  induction text using List.reverseRecOn with
  | nil =>
      rw [List.rdropWhile_nil]
      exact List.rdropWhile_concat_neg _ _ _ (by simp [visible])
  | append_singleton text d ih =>
      by_cases white : isWhitespace d
      · rw [← List.cons_append, ← List.append_assoc, List.rdropWhile_concat_pos _ _ _ white,
          List.rdropWhile_concat_pos _ _ _ white, ih]
      · rw [← List.cons_append, ← List.append_assoc, List.rdropWhile_concat_neg _ _ _ white,
          List.rdropWhile_concat_neg _ _ _ white, List.append_assoc, List.cons_append]

/-- The name as the parser keeps it. -/
def GitName.trimmed (name : GitName) : List Char := name.chars.rdropWhile isWhitespace

theorem newFile_headSide {c : FileChange} (present : c.kind ≠ .deleted) :
    newFile root c.headSide = some ⟨joinPath root c.name.trimmed, []⟩ := by
  have side : c.headSide = nameChars ['b', '/'] c.name := by
    rw [FileChange.headSide]
    cases kind : c.kind with
    | deleted => exact absurd kind present
    | _ => rfl
  have noTab : '\t' ∉ ['b', '/'] ++ c.name.chars := by
    simp [c.name.not_mem (show '\t'.toNat < 32 by decide)]
  have first : ((nameChars ['b', '/'] c.name).splitOn '\t').headD (nameChars ['b', '/'] c.name) =
      ['b', '/'] ++ c.name.chars := by
    rw [nameChars]
    split
    · rw [List.splitOn_append_cons_self_of_not_mem noTab, List.headD_cons]
    · rw [List.append_nil, List.splitOn_eq_singleton noTab, List.headD_cons]
  have cut : trim (['b', '/'] ++ c.name.chars) = ['b', '/'] ++ c.name.trimmed :=
    rdropWhile_append ['b'] c.name.chars (c := '/') (by decide)
  have other : ['b', '/'] ++ c.name.trimmed ≠ "/dev/null".toList := fun same => by
    have heads : some 'b' = "/dev/null".toList.head? := congrArg List.head? same
    exact absurd heads (by decide)
  rw [newFile, side, first, cut, if_neg other, stripStart_append]
  rfl

theorem newFile_deleted {c : FileChange} (gone : c.kind = .deleted) :
    newFile root c.headSide = none := by
  have devNull : trim (("/dev/null".toList.splitOn '\t').headD "/dev/null".toList) =
      "/dev/null".toList := by decide
  rw [FileChange.headSide, gone, newFile]
  exact if_pos devNull

theorem joinPath_inj {a b : List Char} (relativeA : a.head? ≠ some '/')
    (relativeB : b.head? ≠ some '/') (same : joinPath root a = joinPath root b) : a = b := by
  rw [joinPath, joinPath, if_neg relativeA, if_neg relativeB] at same
  split at same
  · exact List.append_cancel_left same
  · exact (List.cons.inj (List.append_cancel_left same)).2

theorem GitName.trimmed_relative (name : GitName) : name.trimmed.head? ≠ some '/' := by
  intro slash
  obtain ⟨rest, start⟩ := List.rdropWhile_prefix isWhitespace name.chars
  refine name.relative ?_
  rw [← start]
  change (name.trimmed ++ rest).head? = some '/'
  rw [List.head?_append, slash]
  rfl

end Names

/-! ## When a diff is read back -/

/-- The range of a hunk on the head side; nothing left of it is anchored at its line. -/
def Hunk.headRange (h : Hunk) : ChangedRange :=
  if h.newCount = 0 then ⟨max h.newStart 1, max h.newStart 1⟩
  else ⟨h.newStart, h.newStart + h.newCount - 1⟩

/-- What should be read: the file with its ranges, unless it is deleted or has no hunks. -/
def FileChange.expected (root : List Char) (c : FileChange) : List ChangedFile :=
  match c.kind with
  | .deleted => []
  | _ => if c.hunks = [] then [] else [⟨joinPath root c.name.chars, c.hunks.map Hunk.headRange⟩]

/-- The numbers of the head side are of 32 bits, and so is its last line. -/
def Hunk.Fits (h : Hunk) : Prop :=
  h.newStart < 2 ^ 32 ∧ h.newCount < 2 ^ 32 ∧ h.newStart + h.newCount ≤ 2 ^ 32

/-- Some added line starts with `++ `. -/
def Hunk.Disguised (h : Hunk) : Prop :=
  ∃ text, HunkLine.added text ∈ h.body ∧ ['+', '+', ' '] <+: text.chars

/-- The name does not end in a blank, the ranges fit, and no hunk but the last has an added line
that starts with `++ `. -/
structure FileChange.Readable (c : FileChange) : Prop where
  name : ¬ c.name.chars.getLast?.any isWhitespace
  ranges : ∀ h ∈ c.hunks, h.Fits
  lines : ∀ h ∈ c.hunks.dropLast, ¬ h.Disguised

theorem HunkLine.taken_isSome_iff (l : HunkLine) :
    l.taken.isSome = true ↔ ∃ text, l = .added text ∧ ['+', '+', ' '] <+: text.chars := by
  have marked : ∀ text : List Char, ['+', '+', '+', ' '] <+: dropCr ('+' :: text) ↔
      ['+', '+', ' '] <+: text := by
    intro text
    rw [dropCr_cons (by decide), List.cons_prefix_cons, and_iff_right rfl]
    constructor
    · intro start
      refine start.trans ?_
      rw [dropCr]
      split
      · exact List.dropLast_prefix text
      · exact List.prefix_rfl
    · rintro ⟨rest, rfl⟩
      rw [dropCr_append (by decide)]
      exact List.prefix_append _ _
  have other : ∀ (c : Char) (text : List Char), c ≠ '+' → c ≠ '\r' →
      stripStart ['+', '+', '+', ' '] (dropCr (c :: text)) = none := by
    intro c text plus cr
    rw [dropCr_cons cr]
    exact stripStart_eq_none (Ne.symm plus)
  rw [HunkLine.taken]
  cases l with
  | context text => simp [HunkLine.chars, other ' ' text.chars (by decide) (by decide)]
  | removed text => simp [HunkLine.chars, other '-' text.chars (by decide) (by decide)]
  | noNewline =>
      rw [HunkLine.chars, other '\\' _ (by decide) (by decide)]
      simp
  | added text =>
      rw [HunkLine.chars, stripStart]
      split
      · rename_i start
        exact iff_of_true rfl ⟨text, rfl, (marked text.chars).mp start⟩
      · rename_i start
        refine iff_of_false (by simp) ?_
        rintro ⟨text', same, start'⟩
        cases same
        exact start ((marked text.chars).mpr start')

theorem Hunk.getLast?_eq_none_iff (h : Hunk) :
    (h.body.filterMap HunkLine.taken).getLast? = none ↔ ¬ h.Disguised := by
  rw [List.getLast?_eq_none_iff, List.filterMap_eq_nil_iff]
  constructor
  · rintro none_ ⟨text, mem, start⟩
    have taken := (HunkLine.taken_isSome_iff (.added text)).mpr ⟨text, rfl, start⟩
    rw [none_ _ mem] at taken
    cases taken
  · intro plain l mem
    by_contra taken
    obtain ⟨text, rfl, start⟩ := (HunkLine.taken_isSome_iff l).mp (Option.isSome_iff_ne_none.mpr taken)
    exact plain ⟨text, mem, start⟩

theorem headerRange_eq_iff (h : Hunk) :
    headerRange h.newStart h.newCount = some h.headRange ↔ h.Fits := by
  rw [headerRange, Hunk.headRange, Hunk.Fits]
  by_cases small : h.newStart < 2 ^ 32 ∧ h.newCount < 2 ^ 32
  · rw [if_pos small, Option.some.injEq]
    by_cases empty : h.newCount = 0
    · simp only [empty, if_true, true_iff]
      omega
    · simp only [empty, if_false, ChangedRange.mk.injEq, true_and]
      omega
  · rw [if_neg small]
    exact iff_of_false (by simp) fun fits => small ⟨fits.1, fits.2.1⟩

/-- A measure of a list of files that grows with the ranges and shrinks when a file is cut in
two. -/
def weight (files : List ChangedFile) : Nat := (files.map fun f => 2 * f.ranges.length - 1).sum

theorem weight_append (files files' : List ChangedFile) :
    weight (files ++ files') = weight files + weight files' := by
  simp [weight]

theorem weight_keep (files : List ChangedFile) : weight (keep files) = weight files := by
  induction files with
  | nil => rfl
  | cons f files ih =>
      rw [keep, weight] at *
      by_cases empty : f.ranges = []
      · simpa [empty, weight] using ih
      · simpa [empty, weight] using ih

/-- The number of ranges of the file being read. -/
def rangesRead (current : Option ChangedFile) : Nat := (current.map fun f => f.ranges.length).getD 0

theorem weight_toList (current : Option ChangedFile) :
    weight current.toList = 2 * rangesRead current - 1 := by
  cases current <;> simp [weight, rangesRead]

theorem rangesRead_record (h : Hunk) (current : Option ChangedFile) :
    rangesRead (current.map h.record) ≤ rangesRead current + 1 := by
  cases current with
  | none => simp [rangesRead]
  | some f =>
      cases range : headerRange h.newStart h.newCount <;>
        simp [rangesRead, Hunk.record, range]

theorem rangesRead_newFile (root rest : List Char) : rangesRead (newFile root rest) = 0 := by
  rw [newFile]
  split <;> rfl

section Weights

variable (root : List Char)

theorem weight_pieces_le (current : Option ChangedFile) (hs : List Hunk) :
    weight (pieces root current hs) ≤ 2 * (rangesRead current + hs.length) - 1 := by
  induction hs generalizing current with
  | nil =>
      rw [pieces, weight_keep, weight_toList]
      exact Nat.le_refl _
  | cons h hs ih =>
      have recorded := rangesRead_record h current
      rw [pieces, List.length_cons]
      cases (h.body.filterMap HunkLine.taken).getLast? with
      | none =>
          have rest := ih (current.map h.record)
          show weight (pieces root (current.map h.record) hs) ≤ _
          omega
      | some name =>
          have rest := ih (newFile root name)
          rw [rangesRead_newFile] at rest
          show weight (keep (current.map h.record).toList ++ pieces root (newFile root name) hs) ≤ _
          rw [weight_append, weight_keep, weight_toList]
          omega

/-- The full weight is reached exactly when no range is lost and the file is not cut. -/
theorem weight_pieces_eq_iff {f : ChangedFile} {hs : List Hunk}
    (held : 0 < f.ranges.length + hs.length) :
    weight (pieces root (some f) hs) = 2 * (f.ranges.length + hs.length) - 1 ↔
      (∀ h ∈ hs, (headerRange h.newStart h.newCount).isSome = true) ∧
        ∀ h ∈ hs.dropLast, ¬ h.Disguised := by
  induction hs generalizing f with
  | nil =>
      rw [pieces, weight_keep, weight_toList]
      simp [rangesRead]
  | cons h hs ih =>
      have early : (∀ h' ∈ (h :: hs).dropLast, ¬ h'.Disguised) ↔
          (hs ≠ [] → ¬ h.Disguised) ∧ ∀ h' ∈ hs.dropLast, ¬ h'.Disguised := by
        cases hs <;> simp
      rw [early, List.forall_mem_cons, pieces, List.length_cons]
      cases taken : (h.body.filterMap HunkLine.taken).getLast? with
      | none =>
          have plain := h.getLast?_eq_none_iff.mp taken
          show weight (pieces root (some (h.record f)) hs) = _ ↔ _
          cases range : headerRange h.newStart h.newCount with
          | none =>
              have bound := weight_pieces_le root (some (h.record f)) hs
              have same : rangesRead (some (h.record f)) = f.ranges.length := by
                simp [rangesRead, Hunk.record, range]
              refine iff_of_false ?_ (by simp)
              omega
          | some r =>
              have longer : (h.record f).ranges.length = f.ranges.length + 1 := by
                simp [Hunk.record, range]
              have rest := ih (f := h.record f) (by omega)
              rw [longer, Nat.add_assoc, Nat.add_comm 1] at rest
              rw [rest]
              simp [plain]
      | some name =>
          have disguised : h.Disguised := by
            by_contra plain
            rw [h.getLast?_eq_none_iff.mpr plain] at taken
            cases taken
          show weight (keep [h.record f] ++ pieces root (newFile root name) hs) = _ ↔ _
          rw [weight_append, weight_keep]
          have recorded : weight [h.record f] = 2 * (h.record f).ranges.length - 1 := by
            simp [weight]
          cases hs with
          | nil =>
              rw [pieces, keep_newFile, recorded]
              cases range : headerRange h.newStart h.newCount with
              | none => simpa [weight, Hunk.record, range] using by omega
              | some r => simp [weight, Hunk.record, range]
          | cons next hs =>
              have bound := weight_pieces_le root (newFile root name) (next :: hs)
              have longer := rangesRead_record h (some f)
              rw [rangesRead_newFile, List.length_cons] at bound
              rw [show rangesRead (Option.map h.record (some f)) = (h.record f).ranges.length from rfl,
                show rangesRead (some f) = f.ranges.length from rfl] at longer
              refine iff_of_false ?_ (by simp [disguised])
              rw [recorded, List.length_cons]
              omega

theorem pieces_eq (f : ChangedFile) {hs : List Hunk} (plain : ∀ h ∈ hs.dropLast, ¬ h.Disguised) :
    pieces root (some f) hs = keep [⟨f.path, f.ranges ++
      hs.flatMap fun h => (headerRange h.newStart h.newCount).toList⟩] := by
  induction hs generalizing f with
  | nil => simp [pieces]
  | cons h hs ih =>
      rw [pieces]
      cases taken : (h.body.filterMap HunkLine.taken).getLast? with
      | none =>
          have later : ∀ h' ∈ hs.dropLast, ¬ h'.Disguised := by
            intro h' mem
            refine plain h' ?_
            cases hs with
            | nil => cases mem
            | cons next hs => exact List.mem_cons_of_mem _ mem
          show pieces root (some (h.record f)) hs = _
          rw [ih _ later]
          simp [Hunk.record]
      | some name =>
          have last : hs = [] := by
            cases hs with
            | nil => rfl
            | cons next hs =>
                have here := plain h List.mem_cons_self
                rw [h.getLast?_eq_none_iff.mpr here] at taken
                cases taken
          subst last
          show keep [h.record f] ++ pieces root (newFile root name) [] = _
          rw [pieces, keep_newFile]
          simp [Hunk.record]

theorem pieces_none {hs : List Hunk} (plain : ∀ h ∈ hs, ¬ h.Disguised) :
    pieces root none hs = [] := by
  induction hs with
  | nil => rfl
  | cons h hs ih =>
      rw [pieces, h.getLast?_eq_none_iff.mpr (plain h List.mem_cons_self)]
      exact ih fun h' mem => plain h' (List.mem_cons_of_mem _ mem)

end Weights

/-! ## Change by change -/

section Changes

variable {α : Type}

theorem forall_weight_eq {f g : α → List ChangedFile} {l : List α}
    (le : ∀ a ∈ l, weight (f a) ≤ weight (g a)) (same : l.flatMap f = l.flatMap g) :
    ∀ a ∈ l, weight (f a) = weight (g a) := by
  have sums : ∀ (l : List α) (f : α → List ChangedFile),
      weight (l.flatMap f) = (l.map fun a => weight (f a)).sum := by
    intro l f
    induction l with
    | nil => rfl
    | cons a l ih => rw [List.flatMap_cons, weight_append, ih, List.map_cons, List.sum_cons]
  have total : (l.map fun a => weight (f a)).sum = (l.map fun a => weight (g a)).sum := by
    rw [← sums, ← sums, same]
  clear same
  induction l with
  | nil =>
      intro a mem
      cases mem
  | cons b l ih =>
      have here := le b List.mem_cons_self
      have later := List.sum_le_sum fun a mem => le a (List.mem_cons_of_mem b mem)
      rw [List.map_cons, List.map_cons, List.sum_cons, List.sum_cons] at total
      intro a mem
      rcases List.mem_cons.mp mem with rfl | mem
      · omega
      · exact ih (fun a mem => le a (List.mem_cons_of_mem b mem)) (by omega) a mem

theorem forall_eq_of_length {β : Type} {f g : α → List β} {l : List α}
    (lengths : ∀ a ∈ l, (f a).length = (g a).length) (same : l.flatMap f = l.flatMap g) :
    ∀ a ∈ l, f a = g a := by
  induction l with
  | nil =>
      intro a mem
      cases mem
  | cons b l ih =>
      rw [List.flatMap_cons, List.flatMap_cons] at same
      obtain ⟨here, later⟩ := List.append_inj same (lengths b List.mem_cons_self)
      intro a mem
      rcases List.mem_cons.mp mem with rfl | mem
      · exact here
      · exact ih (fun a mem => lengths a (List.mem_cons_of_mem b mem)) later a mem

end Changes

section ReadBack

variable (root : List Char)

theorem expected_deleted {c : FileChange} (gone : c.kind = .deleted) : c.expected root = [] := by
  rw [FileChange.expected, gone]

theorem expected_present {c : FileChange} (present : c.kind ≠ .deleted) (some_ : c.hunks ≠ []) :
    c.expected root = [⟨joinPath root c.name.chars, c.hunks.map Hunk.headRange⟩] := by
  rw [FileChange.expected]
  cases kind : c.kind with
  | deleted => exact absurd kind present
  | _ => exact if_neg some_

theorem entries_deleted {c : FileChange} (gone : c.kind = .deleted) : c.entries root = [] := by
  rw [FileChange.entries]
  split
  · rfl
  · rw [newFile_deleted root gone]
    refine pieces_none root fun h mem disguised => ?_
    obtain ⟨text, added, -⟩ := disguised
    exact c.removesOnly gone h mem text added

/-- Deleted files and files without hunks are always read as they should be. -/
theorem entries_eq_expected {c : FileChange} (apart : c.kind = .deleted ∨ c.hunks = []) :
    c.entries root = c.expected root := by
  rcases apart with gone | none_
  · rw [entries_deleted root gone, expected_deleted root gone]
  · rw [FileChange.entries, if_pos none_, FileChange.expected]
    cases c.kind with
    | deleted => rfl
    | _ => exact (if_pos none_).symm

theorem weight_expected {c : FileChange} (present : c.kind ≠ .deleted) (some_ : c.hunks ≠ []) :
    weight (c.expected root) = 2 * c.hunks.length - 1 := by
  rw [expected_present root present some_]
  simp [weight]

theorem weight_entries_le (c : FileChange) : weight (c.entries root) ≤ weight (c.expected root) := by
  by_cases apart : c.kind = .deleted ∨ c.hunks = []
  · rw [entries_eq_expected root apart]
  · obtain ⟨present, some_⟩ := not_or.mp apart
    rw [weight_expected root present some_, FileChange.entries, if_neg some_,
      newFile_headSide root present]
    simpa [rangesRead] using
      weight_pieces_le root (some ⟨joinPath root c.name.trimmed, []⟩) c.hunks

/-- A file that is neither cut nor short of a range is read as one entry. -/
theorem entries_eq {c : FileChange} (present : c.kind ≠ .deleted) (some_ : c.hunks ≠ [])
    (plain : ∀ h ∈ c.hunks.dropLast, ¬ h.Disguised) :
    c.entries root = keep [⟨joinPath root c.name.trimmed,
      c.hunks.flatMap fun h => (headerRange h.newStart h.newCount).toList⟩] := by
  rw [FileChange.entries, if_neg some_, newFile_headSide root present, pieces_eq root _ plain]
  rfl

theorem trimmed_eq_iff (name : GitName) :
    name.trimmed = name.chars ↔ ¬ name.chars.getLast?.any isWhitespace := by
  rw [GitName.trimmed, List.rdropWhile_eq_self_iff]
  cases last : name.chars.getLast? with
  | none =>
      rw [List.getLast?_eq_none_iff] at last
      simp [last]
  | some c =>
      obtain ⟨front, same⟩ := List.getLast?_eq_some_iff.mp last
      simp [same]

/-- **A diff is read back exactly when each file with hunks that is not deleted is readable.** -/
theorem parseUnifiedDiff_iff (changes : List FileChange) :
    parseUnifiedDiff (gitText changes) root = changes.flatMap (FileChange.expected root) ↔
      ∀ c ∈ changes, c.kind ≠ .deleted → c.hunks ≠ [] → c.Readable := by
  rw [parseUnifiedDiff_gitText]
  constructor
  · intro same
    have weights := forall_weight_eq (fun c _ => weight_entries_le root c) same
    have whole : ∀ c ∈ changes, c.kind ≠ .deleted → c.hunks ≠ [] →
        (∀ h ∈ c.hunks, (headerRange h.newStart h.newCount).isSome = true) ∧
          ∀ h ∈ c.hunks.dropLast, ¬ h.Disguised := by
      intro c mem present some_
      have full := weights c mem
      rw [weight_expected root present some_, FileChange.entries, if_neg some_,
        newFile_headSide root present] at full
      have held : 0 < 0 + c.hunks.length := by
        rw [Nat.zero_add]
        exact List.length_pos_iff.mpr some_
      exact (weight_pieces_eq_iff root (f := ⟨joinPath root c.name.trimmed, []⟩) held).mp
        (by simpa using full)
    have single : ∀ c ∈ changes, c.kind ≠ .deleted → c.hunks ≠ [] →
        c.entries root = [⟨joinPath root c.name.trimmed,
          c.hunks.flatMap fun h => (headerRange h.newStart h.newCount).toList⟩] := by
      intro c mem present some_
      obtain ⟨parsed, plain⟩ := whole c mem present some_
      rw [entries_eq root present some_ plain]
      obtain ⟨h, hs, hunks⟩ := List.exists_cons_of_ne_nil some_
      obtain ⟨range, read⟩ := Option.isSome_iff_exists.mp (parsed h (by simp [hunks]))
      simp [keep, hunks, read]
    have lengths : ∀ c ∈ changes, (c.entries root).length = (c.expected root).length := by
      intro c mem
      by_cases apart : c.kind = .deleted ∨ c.hunks = []
      · rw [entries_eq_expected root apart]
      · obtain ⟨present, some_⟩ := not_or.mp apart
        rw [single c mem present some_, expected_present root present some_]
        rfl
    intro c mem present some_
    have files := forall_eq_of_length lengths same c mem
    rw [single c mem present some_, expected_present root present some_] at files
    obtain ⟨paths, ranges⟩ := ChangedFile.mk.inj (List.cons.inj files).1
    obtain ⟨parsed, plain⟩ := whole c mem present some_
    refine ⟨(trimmed_eq_iff c.name).mp (joinPath_inj root c.name.trimmed_relative c.name.relative
      paths), fun h inside => (headerRange_eq_iff h).mp ?_, plain⟩
    rw [List.map_eq_flatMap] at ranges
    have each := forall_eq_of_length (fun h inside => ?_) ranges h inside
    · obtain ⟨range, read⟩ := Option.isSome_iff_exists.mp (parsed h inside)
      rw [read] at each ⊢
      exact congrArg some (List.cons.inj each).1
    · obtain ⟨range, read⟩ := Option.isSome_iff_exists.mp (parsed h inside)
      simp [read]
  · intro readable
    refine List.flatMap_congr fun c mem => ?_
    by_cases apart : c.kind = .deleted ∨ c.hunks = []
    · exact entries_eq_expected root apart
    · obtain ⟨present, some_⟩ := not_or.mp apart
      obtain ⟨name, fits, plain⟩ := readable c mem present some_
      have ranges : (c.hunks.flatMap fun h => (headerRange h.newStart h.newCount).toList) =
          c.hunks.map Hunk.headRange := by
        rw [List.map_eq_flatMap]
        refine List.flatMap_congr fun h inside => ?_
        rw [(headerRange_eq_iff h).mpr (fits h inside)]
        rfl
      rw [entries_eq root present some_ plain, expected_present root present some_, ranges,
        (trimmed_eq_iff c.name).mpr name]
      simp [keep, some_]

end ReadBack

/-- A modified file in which `++ i;` is added, and another line further down. -/
def incrementAdded : FileChange where
  kind := .modified
  name := ⟨"src/a.c".toList, by decide, by simp⟩
  headers := [(.index, ⟨"1111111..2222222 100644".toList, by decide⟩)]
  hunks :=
    [⟨3, 0, 4, 1, ⟨[], by decide⟩, [.added ⟨"++ i;".toList, by decide⟩]⟩,
      ⟨10, 0, 12, 1, ⟨[], by decide⟩, [.added ⟨"x = i;".toList, by decide⟩]⟩]
  removesOnly := by intro kind; cases kind

/-- The second hunk is reported for a file `i;`. -/
theorem incrementAdded_cut :
    parseUnifiedDiff (gitText [incrementAdded]) "/repo".toList =
        [⟨"/repo/src/a.c".toList, [⟨4, 4⟩]⟩, ⟨"/repo/i;".toList, [⟨12, 12⟩]⟩] ∧
      parseUnifiedDiff (gitText [incrementAdded]) "/repo".toList ≠
        [incrementAdded].flatMap (FileChange.expected "/repo".toList) := by
  rw [parseUnifiedDiff_gitText]
  decide

end Ministr.Git
