/-
# Git.Diff — reading back what `git diff` prints

`parse_unified_diff` walks over the lines of a diff and looks at their first characters only:
`+++ ` starts a file, `@@` adds a range to it.  It does not count how many lines a hunk still
has, so an added line whose own text starts with `++ ` starts a file as well.

The printed side is git's format: extended headers, the two names, and hunks of context,
removed and added lines (`FileChange.lines`, `gitText`).  `parseUnifiedDiff_gitText` gives what
the parser makes of it (`pieces`), and `parseUnifiedDiff_iff` says for which changes that is
what was printed.
-/
import Ministr.Content.Document
import Ministr.Theory.Decimal

namespace Ministr.Git

open Ministr.Theory Ministr.Content

set_option autoImplicit false

/-! ## The parser -/

/-- Lines of the head side, both ends included. -/
structure ChangedRange where
  start : Nat
  stop : Nat
  deriving DecidableEq, Repr

structure ChangedFile where
  path : List Char
  ranges : List ChangedRange
  deriving DecidableEq, Repr

/-- `strip_prefix`. -/
def stripStart (mark text : List Char) : Option (List Char) :=
  if mark <+: text then some (text.drop mark.length) else none

/-- The carriage return before a line feed. -/
def dropCr (line : List Char) : List Char :=
  if line.getLast? = some '\r' then line.dropLast else line

/-- `str::lines`. -/
def textLines (text : List Char) : List (List Char) :=
  let pieces := text.splitOn '\n'
  pieces.dropLast.map dropCr ++ pieces.getLast?.toList.filter fun last => !last.isEmpty

/-- `parse::<u32>`. -/
def parseU32 (text : List Char) : Option Nat :=
  let digits := (stripStart ['+'] text).getD text
  let n := Nat.ofDigitChars 10 digits 0
  if !digits.isEmpty && digits.all Char.isDigit && decide (n < 2 ^ 32) then some n else none

/-- `split("@@").next()`. -/
def beforeMarks : List Char → List Char
  | [] => []
  | '@' :: '@' :: _ => []
  | c :: rest => c :: beforeMarks rest

/-- `parse_hunk_head_side`; the sum wraps at 32 bits. -/
def parseHunkHeadSide (line : List Char) : Option ChangedRange := do
  let rest ← stripStart ['@', '@'] line
  let inner := beforeMarks rest
  let plus ← (words isWhitespace inner).find? fun word => word.head? == some '+'
  let spec ← stripStart ['+'] plus
  let parts := spec.splitOn ','
  let start ← parts.head?.bind parseU32
  let count ← match parts[1]? with
    | some text => parseU32 text
    | none => some 1
  if count = 0 then some ⟨max start 1, max start 1⟩
  else some ⟨start, (start + count - 1) % 2 ^ 32⟩

/-- `Path::join`. -/
def joinPath (root rel : List Char) : List Char :=
  if rel.head? = some '/' then rel
  else if root = [] ∨ root.getLast? = some '/' then root ++ rel
  else root ++ '/' :: rel

/-- What a `+++ ` line starts. -/
def newFile (root rest : List Char) : Option ChangedFile :=
  let raw := trim ((rest.splitOn '\t').headD rest)
  if raw = "/dev/null".toList then none
  else
    let rel := ((stripStart ['b', '/'] raw).or (stripStart ['a', '/'] raw)).getD raw
    some ⟨joinPath root rel, []⟩

/-- The files so far and the one being read. -/
structure DiffState where
  files : List ChangedFile
  current : Option ChangedFile

def diffStep (root : List Char) (s : DiffState) (line : List Char) : DiffState :=
  match stripStart ['+', '+', '+', ' '] line with
  | some rest => ⟨s.files ++ s.current.toList, newFile root rest⟩
  | none =>
      if ['@', '@'] <+: line then
        match s.current, parseHunkHeadSide line with
        | some f, some range => ⟨s.files, some { f with ranges := f.ranges ++ [range] }⟩
        | _, _ => s
      else s

/-- Files without ranges are dropped at the end. -/
def keep (files : List ChangedFile) : List ChangedFile := files.filter fun f => !f.ranges.isEmpty

def parseUnifiedDiff (text root : List Char) : List ChangedFile :=
  let s := (textLines text).foldl (diffStep root) ⟨[], none⟩
  keep (s.files ++ s.current.toList)

/-! ## What git prints -/

/-- Text of one line. -/
structure LineText where
  chars : List Char
  oneLine : '\n' ∉ chars

/-- A file name that is printed without quotes: no control character, quote or backslash. -/
structure GitName where
  chars : List Char
  relative : chars.head? ≠ some '/'
  plain : ∀ c ∈ chars, 32 ≤ c.toNat ∧ c.toNat ≠ 127 ∧ c ≠ '"' ∧ c ≠ '\\'

inductive HunkLine where
  | context (text : LineText)
  | removed (text : LineText)
  | added (text : LineText)
  | noNewline

def HunkLine.chars : HunkLine → List Char
  | .context text => ' ' :: text.chars
  | .removed text => '-' :: text.chars
  | .added text => '+' :: text.chars
  | .noNewline => '\\' :: " No newline at end of file".toList

/-- A hunk: its two ranges, the text after the second `@@`, and its lines. -/
structure Hunk where
  oldStart : Nat
  oldCount : Nat
  newStart : Nat
  newCount : Nat
  heading : LineText
  body : List HunkLine

/-- A count of one is not printed. -/
def rangeText (start count : Nat) : List Char :=
  (toString start).toList ++ if count = 1 then [] else ',' :: (toString count).toList

def Hunk.header (h : Hunk) : List Char :=
  ['@', '@', ' ', '-'] ++ rangeText h.oldStart h.oldCount ++ [' ', '+'] ++
    rangeText h.newStart h.newCount ++ [' ', '@', '@'] ++
    if h.heading.chars = [] then [] else ' ' :: h.heading.chars

def Hunk.lines (h : Hunk) : List (List Char) := h.header :: h.body.map HunkLine.chars

/-- The extended headers of git's format. -/
inductive HeaderTag where
  | oldMode
  | newMode
  | deletedFileMode
  | newFileMode
  | copyFrom
  | copyTo
  | renameFrom
  | renameTo
  | similarityIndex
  | dissimilarityIndex
  | index
  | binaryFiles
  deriving DecidableEq, Repr

def HeaderTag.chars : HeaderTag → List Char
  | .oldMode => "old mode ".toList
  | .newMode => "new mode ".toList
  | .deletedFileMode => "deleted file mode ".toList
  | .newFileMode => "new file mode ".toList
  | .copyFrom => "copy from ".toList
  | .copyTo => "copy to ".toList
  | .renameFrom => "rename from ".toList
  | .renameTo => "rename to ".toList
  | .similarityIndex => "similarity index ".toList
  | .dissimilarityIndex => "dissimilarity index ".toList
  | .index => "index ".toList
  | .binaryFiles => "Binary files ".toList

inductive ChangeKind where
  | added
  | modified
  | deleted
  | renamed (source : GitName)

/-- The change of one file.  A deletion has removed lines only. -/
structure FileChange where
  kind : ChangeKind
  name : GitName
  headers : List (HeaderTag × LineText)
  hunks : List Hunk
  removesOnly : kind = .deleted → ∀ h ∈ hunks, ∀ text, HunkLine.added text ∉ h.body

/-- A name after `--- ` or `+++ `; a tab closes one with a space in it. -/
def nameChars (side : List Char) (name : GitName) : List Char :=
  side ++ name.chars ++ if ' ' ∈ name.chars then ['\t'] else []

def FileChange.source (c : FileChange) : GitName :=
  match c.kind with
  | .renamed source => source
  | _ => c.name

def FileChange.baseSide (c : FileChange) : List Char :=
  match c.kind with
  | .added => "/dev/null".toList
  | _ => nameChars ['a', '/'] c.source

def FileChange.headSide (c : FileChange) : List Char :=
  match c.kind with
  | .deleted => "/dev/null".toList
  | _ => nameChars ['b', '/'] c.name

/-- The lines of one file.  The names are printed with the hunks only. -/
def FileChange.lines (c : FileChange) : List (List Char) :=
  ("diff --git a/".toList ++ c.source.chars ++ " b/".toList ++ c.name.chars) ::
    c.headers.map (fun h => h.1.chars ++ h.2.chars) ++
    if c.hunks = [] then []
    else (['-', '-', '-', ' '] ++ c.baseSide) :: (['+', '+', '+', ' '] ++ c.headSide) ::
      c.hunks.flatMap Hunk.lines

/-- Lines, one below the other. -/
def ofLines (lines : List (List Char)) : List Char := lines.flatMap fun line => line ++ ['\n']

def gitText (changes : List FileChange) : List Char := ofLines (changes.flatMap FileChange.lines)

/-! ## Reading lines back -/

theorem dropCr_cons {c : Char} (other : c ≠ '\r') (text : List Char) :
    dropCr (c :: text) = c :: dropCr text := by
  cases text with
  | nil => simp [dropCr, other]
  | cons d text =>
      rw [dropCr, dropCr, List.getLast?_cons_cons, List.dropLast_cons_cons]
      split <;> rfl

theorem dropCr_append {start : List Char} (plain : '\r' ∉ start) (text : List Char) :
    dropCr (start ++ text) = start ++ dropCr text := by
  induction start with
  | nil => rfl
  | cons c start ih =>
      rw [List.mem_cons, not_or] at plain
      rw [List.cons_append, dropCr_cons (Ne.symm plain.1), ih plain.2, List.cons_append]

theorem dropCr_eq_self {line : List Char} (plain : '\r' ∉ line) : dropCr line = line := by
  simpa [dropCr] using dropCr_append plain []

/-- The lines of a text whose lines all end in a line feed. -/
theorem textLines_ofLines {ls : List (List Char)} (whole : ∀ l ∈ ls, '\n' ∉ l) :
    textLines (ofLines ls) = ls.map dropCr := by
  have pieces : (ofLines ls).splitOn '\n' = ls ++ [[]] := by
    induction ls with
    | nil => rfl
    | cons l ls ih =>
        rw [ofLines, List.flatMap_cons, List.append_assoc, List.singleton_append,
          List.splitOn_append_cons_self_of_not_mem (whole l List.mem_cons_self), ← ofLines,
          ih fun l mem => whole l (List.mem_cons_of_mem _ mem), List.cons_append]
  rw [textLines, pieces]
  simp

theorem stripStart_append (mark text : List Char) : stripStart mark (mark ++ text) = some text := by
  rw [stripStart, if_pos (List.prefix_append mark text), List.drop_left]

theorem stripStart_eq_none {mark text : List Char} {c d : Char} (other : c ≠ d) :
    stripStart (c :: mark) (d :: text) = none := by
  rw [stripStart, if_neg]
  rintro ⟨rest, same⟩
  exact other (List.cons.inj same).1

/-! ## Numbers -/

theorem isDigit_of_mem_toString {n : Nat} {c : Char} (mem : c ∈ (toString n).toList) :
    c.isDigit = true := by
  rw [Nat.toString_eq_repr, Nat.toList_repr] at mem
  exact Nat.isDigit_of_mem_toDigits (by decide) (by decide) mem

theorem toString_ne_nil (n : Nat) : (toString n).toList ≠ [] := by
  rw [Nat.toString_eq_repr, Nat.toList_repr]
  exact Nat.toDigits_ne_nil

theorem not_mem_rangeText {c : Char} (digit : c.isDigit = false) (comma : c ≠ ',')
    (start count : Nat) : c ∉ rangeText start count := by
  have digits : ∀ n : Nat, c ∉ (toString n).toList := fun n mem => by
    rw [isDigit_of_mem_toString mem] at digit
    cases digit
  rw [rangeText]
  split
  · rw [List.append_nil]
    exact digits start
  · rw [List.mem_append, List.mem_cons]
    rintro (mem | same | mem)
    · exact digits start mem
    · exact comma same
    · exact digits count mem

theorem parseU32_eq (text : List Char) : parseU32 text = parseDecimal (2 ^ 32) text := by
  have sign : (stripStart ['+'] text).getD text =
      if text.head? = some '+' then text.tail else text := by
    cases text with
    | nil => rfl
    | cons c rest =>
        by_cases plus : c = '+'
        · subst plus
          have stripped : stripStart ['+'] ('+' :: rest) = some rest := stripStart_append ['+'] rest
          rw [List.head?_cons, if_pos rfl, stripped]
          rfl
        · rw [stripStart_eq_none (Ne.symm plus), List.head?_cons, if_neg (by simpa using plus)]
          rfl
  rw [parseU32, parseDecimal, sign]

theorem parseU32_toString (n : Nat) :
    parseU32 (toString n).toList = if n < 2 ^ 32 then some n else none := by
  rw [parseU32_eq, Nat.toString_eq_repr, Nat.toList_repr, parseDecimal_toDigits_eq]

/-! ## Hunk headers -/

theorem beforeMarks_append {text : List Char} (plain : '@' ∉ text) (rest : List Char) :
    beforeMarks (text ++ '@' :: '@' :: rest) = text := by
  induction text with
  | nil => rfl
  | cons c text ih =>
      rw [List.mem_cons, not_or] at plain
      rw [List.cons_append, beforeMarks, ih plain.2]
      intro rest' c' same
      exact absurd c'.symm plain.1

/-- What a hunk header says, and what the parser reads in it. -/
def headerRange (start count : Nat) : Option ChangedRange :=
  if start < 2 ^ 32 ∧ count < 2 ^ 32 then
    some (if count = 0 then ⟨max start 1, max start 1⟩ else ⟨start, (start + count - 1) % 2 ^ 32⟩)
  else none

/-- Between its marks, a header has the two ranges. -/
def Hunk.ranges (h : Hunk) : List Char :=
  ' ' :: (('-' :: rangeText h.oldStart h.oldCount) ++
    ' ' :: (('+' :: rangeText h.newStart h.newCount) ++ [' ']))

theorem Hunk.header_eq (h : Hunk) :
    h.header = ['@', '@'] ++ (h.ranges ++ '@' :: '@' ::
      if h.heading.chars = [] then [] else ' ' :: h.heading.chars) := by
  simp [Hunk.header, Hunk.ranges]

theorem Hunk.not_mem_ranges {c : Char} (digit : c.isDigit = false) (comma : c ≠ ',')
    (blank : c ≠ ' ') (minus : c ≠ '-') (plus : c ≠ '+') (h : Hunk) : c ∉ h.ranges := by
  simp [Hunk.ranges, not_mem_rangeText digit comma, blank, minus, plus]

theorem Hunk.dropCr_header (h : Hunk) :
    ∃ rest, dropCr h.header = ['@', '@'] ++ (h.ranges ++ '@' :: '@' :: rest) := by
  refine ⟨dropCr (if h.heading.chars = [] then [] else ' ' :: h.heading.chars), ?_⟩
  have plain : '\r' ∉ h.ranges :=
    h.not_mem_ranges (by decide) (by decide) (by decide) (by decide) (by decide)
  rw [h.header_eq, dropCr_append (by decide), dropCr_append plain, dropCr_cons (by decide),
    dropCr_cons (by decide)]

theorem Hunk.words_ranges (h : Hunk) :
    words isWhitespace h.ranges =
      ['-' :: rangeText h.oldStart h.oldCount, '+' :: rangeText h.newStart h.newCount] := by
  have solid : ∀ c : Char, isWhitespace c = true → c.isDigit = false ∧ c ≠ ',' := by
    intro c white
    refine ⟨?_, by rintro rfl; cases white⟩
    by_contra digit
    rw [Bool.not_eq_false] at digit
    have bounds : (decide (c.val ≥ '0'.val) && decide (c.val ≤ '9'.val)) = true := digit
    simp only [Bool.and_eq_true, decide_eq_true_eq, ge_iff_le, UInt32.le_iff_toNat_le] at bounds
    have low : '0'.val.toNat = 48 := rfl
    have high : '9'.val.toNat = 57 := rfl
    have same : c.toNat = c.val.toNat := rfl
    simp only [isWhitespace, Bool.or_eq_true, decide_eq_true_eq, beq_iff_eq] at white
    omega
  have single : ∀ (sign : Char) (start count : Nat), isWhitespace sign = false →
      words isWhitespace (sign :: rangeText start count) = [sign :: rangeText start count] := by
    intro sign start count visible
    refine words_single (fun c mem => ?_) (List.cons_ne_nil _ _)
    rcases List.mem_cons.mp mem with rfl | mem
    · exact visible
    · by_contra white
      rw [Bool.not_eq_false] at white
      exact not_mem_rangeText (solid c white).1 (solid c white).2 start count mem
  rw [Hunk.ranges, words_cons _ (by decide), words_append_cons _ _ (by decide),
    words_concat _ (by decide), single _ _ _ (by decide), single _ _ _ (by decide)]
  rfl

theorem splitOn_rangeText (start count : Nat) :
    (rangeText start count).splitOn ',' = (toString start).toList ::
      if count = 1 then [] else [(toString count).toList] := by
  have plain : ∀ n : Nat, ',' ∉ (toString n).toList := fun n mem => by
    have digit := isDigit_of_mem_toString mem
    cases digit
  rw [rangeText]
  split
  · rw [List.append_nil, List.splitOn_eq_singleton (plain start)]
  · rw [List.splitOn_append_cons_self_of_not_mem (plain start),
      List.splitOn_eq_singleton (plain count)]

/-- The parser reads the head side of a header, when its numbers are of 32 bits. -/
theorem parseHunkHeadSide_header (h : Hunk) :
    parseHunkHeadSide (dropCr h.header) = headerRange h.newStart h.newCount := by
  obtain ⟨rest, line⟩ := h.dropCr_header
  have inner : beforeMarks (h.ranges ++ '@' :: '@' :: rest) = h.ranges :=
    beforeMarks_append (h.not_mem_ranges (by decide) (by decide) (by decide) (by decide)
      (by decide)) rest
  have found : (words isWhitespace h.ranges).find? (fun word => word.head? == some '+') =
      some ('+' :: rangeText h.newStart h.newCount) := by
    rw [h.words_ranges]
    rfl
  have spec : stripStart ['+'] ('+' :: rangeText h.newStart h.newCount) =
      some (rangeText h.newStart h.newCount) := stripStart_append ['+'] _
  rw [parseHunkHeadSide, line, stripStart_append]
  simp only [bind, Option.bind, inner, found, spec, splitOn_rangeText, List.head?_cons,
    parseU32_toString, headerRange]
  by_cases fits : h.newStart < 2 ^ 32
  · by_cases one : h.newCount = 1
    · simp only [one, fits, if_true, List.getElem?_cons_succ, List.getElem?_nil]
      rfl
    · by_cases fits' : h.newCount < 2 ^ 32
      · simp only [one, fits, fits', if_true, if_false, List.getElem?_cons_succ,
          List.getElem?_cons_zero, parseU32_toString, and_self]
        split <;> rfl
      · simp only [one, fits, fits', if_true, if_false, List.getElem?_cons_succ,
          List.getElem?_cons_zero, parseU32_toString, and_false]
  · simp only [fits, if_false, false_and]

/-! ## What the parser makes of a change -/

/-- The line as the parser takes it for the name of a file. -/
def HunkLine.taken (l : HunkLine) : Option (List Char) :=
  stripStart ['+', '+', '+', ' '] (dropCr l.chars)

/-- A hunk adds its range to the file being read. -/
def Hunk.record (h : Hunk) (f : ChangedFile) : ChangedFile :=
  { f with ranges := f.ranges ++ (headerRange h.newStart h.newCount).toList }

/-- The files that come out of the hunks of one file: a line that is taken for a name ends the
file being read. -/
def pieces (root : List Char) : Option ChangedFile → List Hunk → List ChangedFile
  | current, [] => keep current.toList
  | current, h :: hs =>
      match (h.body.filterMap HunkLine.taken).getLast? with
      | none => pieces root (current.map h.record) hs
      | some rest => keep (current.map h.record).toList ++ pieces root (newFile root rest) hs

section Steps

variable (root : List Char)

theorem diffStep_other (s : DiffState) {c : Char} (plus : c ≠ '+') (mark : c ≠ '@')
    (text : List Char) : diffStep root s (c :: text) = s := by
  have noHunk : ¬ ['@', '@'] <+: c :: text := by
    rintro ⟨rest, same⟩
    exact mark (List.cons.inj same).1.symm
  rw [diffStep, stripStart_eq_none (Ne.symm plus)]
  simp only [noHunk, if_false]

theorem diffStep_dropCr (s : DiffState) {c : Char} (plus : c ≠ '+') (mark : c ≠ '@')
    (cr : c ≠ '\r') (text : List Char) : diffStep root s (dropCr (c :: text)) = s := by
  rw [dropCr_cons cr, diffStep_other root s plus mark]

theorem diffStep_name (s : DiffState) (rest : List Char) :
    diffStep root s (['+', '+', '+', ' '] ++ rest) =
      ⟨s.files ++ s.current.toList, newFile root rest⟩ := by
  rw [diffStep, stripStart_append]

theorem diffStep_header (s : DiffState) (h : Hunk) :
    diffStep root s (dropCr h.header) = ⟨s.files, s.current.map h.record⟩ := by
  have read := parseHunkHeadSide_header h
  obtain ⟨rest, line⟩ := h.dropCr_header
  have noName : stripStart ['+', '+', '+', ' '] (dropCr h.header) = none := by
    rw [line]
    exact stripStart_eq_none (by decide)
  have marked : ['@', '@'] <+: dropCr h.header := by
    rw [line]
    exact List.prefix_append _ _
  rw [diffStep, noName]
  simp only [marked, if_true, read]
  obtain ⟨files, current⟩ := s
  cases current with
  | none => cases headerRange h.newStart h.newCount <;> rfl
  | some f => cases range : headerRange h.newStart h.newCount <;> simp [Hunk.record, range]

theorem diffStep_body (s : DiffState) (l : HunkLine) :
    diffStep root s (dropCr l.chars) = match l.taken with
      | none => s
      | some rest => ⟨s.files ++ s.current.toList, newFile root rest⟩ := by
  have noHunk : ¬ ['@', '@'] <+: dropCr l.chars := by
    cases l <;>
      · rw [HunkLine.chars, dropCr_cons (by decide)]
        rintro ⟨rest, same⟩
        cases (List.cons.inj same).1
  rw [diffStep, HunkLine.taken]
  simp only [noHunk, if_false]
  cases stripStart ['+', '+', '+', ' '] (dropCr l.chars) <;> rfl

/-- A file just started has no ranges, so it is dropped if nothing follows. -/
theorem keep_newFile (rest : List Char) : keep (newFile root rest).toList = [] := by
  rw [newFile]
  split <;> rfl

theorem keep_append (files files' : List ChangedFile) :
    keep (files ++ files') = keep files ++ keep files' := List.filter_append _ _

theorem foldl_body (body : List HunkLine) (s : DiffState) :
    keep ((body.map fun l => dropCr l.chars).foldl (diffStep root) s).files =
        keep s.files ++ (if (body.filterMap HunkLine.taken).getLast? = none then []
          else keep s.current.toList) ∧
      ((body.map fun l => dropCr l.chars).foldl (diffStep root) s).current =
        match (body.filterMap HunkLine.taken).getLast? with
        | none => s.current
        | some rest => newFile root rest := by
  induction body generalizing s with
  | nil => simp
  | cons l body ih =>
      rw [List.map_cons, List.foldl_cons, diffStep_body]
      cases taken : l.taken with
      | none =>
          rw [List.filterMap_cons_none taken]
          exact ih s
      | some rest =>
          obtain ⟨files, current⟩ := ih ⟨s.files ++ s.current.toList, newFile root rest⟩
          rw [List.filterMap_cons_some taken, List.getLast?_cons]
          refine ⟨?_, ?_⟩
          · rw [files, keep_append, keep_newFile]
            simp
          · rw [current]
            cases (body.filterMap HunkLine.taken).getLast? <;> rfl

/-- The hunks of one file, read from any state. -/
theorem foldl_hunks (hs : List Hunk) (s : DiffState) :
    keep (((hs.flatMap Hunk.lines).map dropCr).foldl (diffStep root) s).files ++
        keep (((hs.flatMap Hunk.lines).map dropCr).foldl (diffStep root) s).current.toList =
      keep s.files ++ pieces root s.current hs := by
  induction hs generalizing s with
  | nil => rfl
  | cons h hs ih =>
      have lines : ((h :: hs).flatMap Hunk.lines).map dropCr = dropCr h.header ::
          (h.body.map (fun l => dropCr l.chars) ++ (hs.flatMap Hunk.lines).map dropCr) := by
        simp [Hunk.lines]
      obtain ⟨files, current⟩ := foldl_body root h.body ⟨s.files, s.current.map h.record⟩
      rw [lines, List.foldl_cons, List.foldl_append, diffStep_header, ih, files, current, pieces]
      cases (h.body.filterMap HunkLine.taken).getLast? with
      | none => simp
      | some rest => simp

/-- A line the parser passes by. -/
def Passed (line : List Char) : Prop :=
  ∃ c text, line = c :: text ∧ c ≠ '+' ∧ c ≠ '@' ∧ c ≠ '\r'

theorem foldl_passed {ls : List (List Char)} (passed : ∀ l ∈ ls, Passed l) (s : DiffState) :
    (ls.map dropCr).foldl (diffStep root) s = s := by
  induction ls with
  | nil => rfl
  | cons l ls ih =>
      obtain ⟨c, text, rfl, plus, mark, cr⟩ := passed l List.mem_cons_self
      rw [List.map_cons, List.foldl_cons, diffStep_dropCr root s plus mark cr,
        ih fun l mem => passed l (List.mem_cons_of_mem _ mem)]

/-- The files that come out of one change. -/
def FileChange.entries (c : FileChange) : List ChangedFile :=
  if c.hunks = [] then [] else pieces root (newFile root c.headSide) c.hunks

theorem HeaderTag.passed (tag : HeaderTag) (text : List Char) : Passed (tag.chars ++ text) := by
  cases tag <;> exact ⟨_, _, rfl, by decide, by decide, by decide⟩

theorem GitName.not_mem {c : Char} (control : c.toNat < 32) (name : GitName) : c ∉ name.chars := by
  intro mem
  have printable := (name.plain c mem).1
  omega

theorem FileChange.not_mem_headSide {c : Char} (control : c.toNat < 32) (tab : c ≠ '\t')
    (change : FileChange) : c ∉ change.headSide := by
  have devNull : c ∉ "/dev/null".toList := by
    intro mem
    have all : ∀ d ∈ "/dev/null".toList, 32 ≤ d.toNat := by simp
    exact absurd (all c mem) (by omega)
  have side : c ∉ nameChars ['b', '/'] change.name := by
    have notB : c ≠ 'b' := by rintro rfl; exact absurd control (by decide)
    have notSlash : c ≠ '/' := by rintro rfl; exact absurd control (by decide)
    rw [nameChars]
    split <;> simp [notB, notSlash, change.name.not_mem control, tab]
  rw [FileChange.headSide]
  cases change.kind with
  | deleted => exact devNull
  | _ => exact side

theorem foldl_change (c : FileChange) (s : DiffState) :
    keep ((c.lines.map dropCr).foldl (diffStep root) s).files ++
        keep ((c.lines.map dropCr).foldl (diffStep root) s).current.toList =
      keep s.files ++ keep s.current.toList ++ c.entries root := by
  have first : Passed ("diff --git a/".toList ++ c.source.chars ++ " b/".toList ++ c.name.chars) :=
    ⟨_, _, rfl, by decide, by decide, by decide⟩
  have headers : ∀ l ∈ c.headers.map (fun h => h.1.chars ++ h.2.chars), Passed l := by
    intro l mem
    obtain ⟨h, -, rfl⟩ := List.mem_map.mp mem
    exact h.1.passed _
  have front : ∀ l ∈ ("diff --git a/".toList ++ c.source.chars ++ " b/".toList ++ c.name.chars) ::
      c.headers.map (fun h => h.1.chars ++ h.2.chars), Passed l := by
    intro l mem
    rcases List.mem_cons.mp mem with rfl | mem
    · exact first
    · exact headers l mem
  rw [FileChange.lines, List.map_append, List.foldl_append, foldl_passed root front,
    FileChange.entries]
  by_cases none_ : c.hunks = []
  · simp [none_]
  · rw [if_neg none_, if_neg none_, List.map_cons, List.map_cons, List.foldl_cons, List.foldl_cons,
      List.cons_append, diffStep_dropCr root s (by decide) (by decide) (by decide),
      dropCr_append (by decide), dropCr_eq_self (c.not_mem_headSide (by decide) (by decide)),
      diffStep_name, foldl_hunks, keep_append]

/-- No line of a change has a line feed in it. -/
theorem FileChange.lines_whole (c : FileChange) : ∀ l ∈ c.lines, '\n' ∉ l := by
  have name : ∀ name : GitName, '\n' ∉ name.chars := fun name => name.not_mem (by decide)
  have nameSide : ∀ (name : GitName) (side : List Char), '\n' ∉ side →
      '\n' ∉ nameChars side name := by
    intro git side plain
    rw [nameChars]
    split <;> simp [plain, name git]
  have base : '\n' ∉ c.baseSide := by
    rw [FileChange.baseSide]
    cases c.kind with
    | added => exact show '\n' ∉ "/dev/null".toList by decide
    | _ => exact nameSide _ _ (by decide)
  have hunk : ∀ h : Hunk, ∀ l ∈ h.lines, '\n' ∉ l := by
    intro h l mem
    rcases List.mem_cons.mp mem with rfl | mem
    · have ranges : '\n' ∉ h.ranges :=
        h.not_mem_ranges (by decide) (by decide) (by decide) (by decide) (by decide)
      rw [h.header_eq]
      split <;> simp [ranges, h.heading.oneLine]
    · obtain ⟨line, -, rfl⟩ := List.mem_map.mp mem
      cases line with
      | noNewline => decide
      | context text => simp [HunkLine.chars, text.oneLine]
      | removed text => simp [HunkLine.chars, text.oneLine]
      | added text => simp [HunkLine.chars, text.oneLine]
  intro l mem
  rw [FileChange.lines, List.cons_append, List.mem_cons, List.mem_append] at mem
  rcases mem with rfl | mem | mem
  · have lead : '\n' ∉ "diff --git a/".toList := by decide
    have middle : '\n' ∉ " b/".toList := by decide
    simp only [List.mem_append, not_or]
    exact ⟨⟨⟨lead, name _⟩, middle⟩, name _⟩
  · obtain ⟨h, -, rfl⟩ := List.mem_map.mp mem
    have tag : '\n' ∉ h.1.chars := by
      cases h.1 <;> decide
    rw [List.mem_append, not_or]
    exact ⟨tag, h.2.oneLine⟩
  · split at mem
    · cases mem
    · rcases List.mem_cons.mp mem with rfl | mem
      · simp [base]
      · rcases List.mem_cons.mp mem with rfl | mem
        · simp [c.not_mem_headSide (show '\n'.toNat < 32 by decide) (by decide)]
        · obtain ⟨h, -, inside⟩ := List.mem_flatMap.mp mem
          exact hunk h l inside

/-- **What the parser makes of a diff**: the files of each change, one after the other. -/
theorem parseUnifiedDiff_gitText (changes : List FileChange) :
    parseUnifiedDiff (gitText changes) root = changes.flatMap (FileChange.entries root) := by
  have whole : ∀ l ∈ changes.flatMap FileChange.lines, '\n' ∉ l := by
    intro l mem
    obtain ⟨c, -, inside⟩ := List.mem_flatMap.mp mem
    exact c.lines_whole l inside
  have run : ∀ (changes : List FileChange) (s : DiffState),
      keep (((changes.flatMap FileChange.lines).map dropCr).foldl (diffStep root) s).files ++
        keep (((changes.flatMap FileChange.lines).map dropCr).foldl (diffStep root)
          s).current.toList =
      keep s.files ++ keep s.current.toList ++ changes.flatMap (FileChange.entries root) := by
    intro changes
    induction changes with
    | nil => intro s; simp
    | cons c changes ih =>
        intro s
        rw [List.flatMap_cons, List.map_append, List.foldl_append, ih, foldl_change,
          List.flatMap_cons, List.append_assoc, List.append_assoc]
  rw [parseUnifiedDiff, gitText, textLines_ofLines whole, keep_append, run]
  rfl

end Steps

end Ministr.Git
