/-
# Code.Diagnostics — compiler diagnostics, read from the lines a tool prints

`parse_tsc_text` and `parse_gcc_text` read one line at a time and cut its fields out at the first
delimiter they find.  Here are the two parsers, the lines that the tools print, and what trimming
and reading a number do to a text.  `Code.DiagnosticsRead` says which lines are read back.
-/
import Ministr.Git.ReadBack
import Ministr.Ingestion.Reshape
import Ministr.Theory.FirstCut

namespace Ministr.Code.Diagnostics

open Ministr.Theory Ministr.Content
open Ministr.Git (LineText textLines textLines_ofLines dropCr stripStart stripStart_append
  stripStart_eq_none joinPath parseU32 parseU32_toString toString_ne_nil isDigit_of_mem_toString
  rdropWhile_append)
open Ministr.Ingestion.Reshape (words_trim)

set_option autoImplicit false

inductive DiagnosticSeverity where
  | error
  | warning
  | info
  | hint
  deriving DecidableEq, Repr

structure Diagnostic where
  file : List Char
  lineStart : Nat
  colStart : Nat
  lineEnd : Nat
  colEnd : Nat
  severity : DiagnosticSeverity
  code : Option (List Char)
  message : List Char
  source : List Char
  symbolId : Option (List Char)
  deriving DecidableEq, Repr

/-- `absolutize`. -/
def absolutize (root file : List Char) : List Char :=
  joinPath root ((stripStart "file://".toList file).getD file)

/-- `trim_end`. -/
def trimEnd (text : List Char) : List Char := text.rdropWhile isWhitespace

/-- The text before and behind the last `c`. -/
def cutLast (c : Char) (text : List Char) : Option (List Char × List Char) :=
  (cutFirst [c] text.reverse).map fun cut => (cut.2.reverse, cut.1.reverse)

/-- The severity that the text behind a position begins with. -/
def severityWord (rest : List Char) : Option DiagnosticSeverity :=
  if "error".toList <+: rest then some .error
  else if "warning".toList <+: rest then some .warning
  else none

/-- `trim_start_matches([':', ' '])`. -/
def afterPosition (behind : List Char) : List Char := behind.dropWhile fun c => c == ':' || c == ' '

section Parsers

variable (source root : List Char)

/-- A diagnostic with one position. -/
def diagnosticAt (file : List Char) (line col : Nat) (severity : DiagnosticSeverity)
    (code : Option (List Char)) (message : List Char) : Diagnostic where
  file := absolutize root file
  lineStart := line
  colStart := col
  lineEnd := line
  colEnd := col
  severity := severity
  code := code
  message := message
  source := source
  symbolId := none

/-- One line of `tsc --pretty false`. -/
def parseTscLine (line : List Char) : Option Diagnostic := do
  let (filePart, behind) ← cutFirst ['('] (trimEnd line)
  let (coords, behind) ← cutFirst [')'] behind
  let nums := coords.splitOn ','
  let l ← nums[0]?
  let c ← nums[1]?
  let lineStart ← parseU32 (trim l)
  let colStart ← parseU32 (trim c)
  let rest := afterPosition behind
  let severity ← severityWord rest
  let (head, message) ← cutFirst [':'] rest
  return diagnosticAt source root filePart lineStart colStart severity
    (words isWhitespace (trim head))[1]? (trim message)

/-- `parse_tsc_text`. -/
def parseTscText (output : List Char) : List Diagnostic :=
  (textLines output).filterMap (parseTscLine source root)

/-- The severity word that a message begins with, and the rest of it. -/
def stripSeverity (message : List Char) : DiagnosticSeverity × List Char :=
  match stripStart "error: ".toList message with
  | some rest => (.error, rest)
  | none =>
      match stripStart "warning: ".toList message with
      | some rest => (.warning, rest)
      | none =>
          match stripStart "note: ".toList message with
          | some rest => (.info, rest)
          | none => (.error, message)

/-- The position in `path:line[:col]`, and how much of the text it takes (`rsplitn(3, ':')`). -/
def parseLocation (loc : List Char) : Option (Nat × Nat × Nat) := do
  let (before, last) ← cutLast ':' loc
  match cutLast ':' before with
  | some (_, mid) =>
      let line ← parseU32 mid
      let col ← parseU32 last
      return (line, col, 1 + last.length + (1 + mid.length))
  | none =>
      let line ← parseU32 last
      return (line, 1, 1 + last.length)

/-- One line of gcc, clang or `go vet`. -/
def parseGccLine (line : List Char) : Option Diagnostic := do
  let (loc, message) ← cutFirst [':', ' '] (trimEnd line)
  let (lineStart, colStart, width) ← parseLocation loc
  let (severity, message) := stripSeverity message
  return diagnosticAt source root (loc.take (loc.length - width)) lineStart colStart severity none
    message

/-- `parse_gcc_text`. -/
def parseGccText (output : List Char) : List Diagnostic :=
  (textLines output).filterMap (parseGccLine source root)

end Parsers

/-! ## What the tools print -/

inductive TscCategory where
  | error
  | warning
  deriving DecidableEq, Repr

def TscCategory.word : TscCategory → List Char
  | .error => "error".toList
  | .warning => "warning".toList

def TscCategory.severity : TscCategory → DiagnosticSeverity
  | .error => .error
  | .warning => .warning

/-- A diagnostic of `tsc`; the code is `TS` and digits. -/
structure TscDiagnostic where
  path : LineText
  line : Nat
  col : Nat
  category : TscCategory
  digits : List Char
  message : LineText
  lineFits : line < 2 ^ 32
  colFits : col < 2 ^ 32
  areDigits : ∀ c ∈ digits, c.isDigit = true

namespace TscDiagnostic

variable (d : TscDiagnostic)

def code : List Char := 'T' :: 'S' :: d.digits

def coords : List Char := (toString d.line).toList ++ ',' :: (toString d.col).toList

/-- `category TSnnnn`. -/
def head : List Char := d.category.word ++ ' ' :: d.code

/-- `path(line,col): category TSnnnn: message`. -/
def text : List Char :=
  d.path.chars ++ '(' :: (d.coords ++ ')' :: ':' :: ' ' :: (d.head ++ ':' :: ' ' :: d.message.chars))

def diagnostic (source root : List Char) : Diagnostic :=
  diagnosticAt source root d.path.chars d.line d.col d.category.severity (some d.code)
    d.message.chars

end TscDiagnostic

/-- The severity a line of gcc names; `go vet` names none. -/
inductive GccSeverity where
  | error
  | warning
  | note
  | unnamed
  deriving DecidableEq, Repr

def GccSeverity.word : GccSeverity → List Char
  | .error => "error: ".toList
  | .warning => "warning: ".toList
  | .note => "note: ".toList
  | .unnamed => []

def GccSeverity.severity : GccSeverity → DiagnosticSeverity
  | .error => .error
  | .warning => .warning
  | .note => .info
  | .unnamed => .error

structure GccDiagnostic where
  path : LineText
  line : Nat
  col : Nat
  severity : GccSeverity
  message : LineText
  colonFree : ':' ∉ path.chars
  lineFits : line < 2 ^ 32
  colFits : col < 2 ^ 32

namespace GccDiagnostic

variable (d : GccDiagnostic)

def location : List Char :=
  d.path.chars ++ ':' :: ((toString d.line).toList ++ ':' :: (toString d.col).toList)

/-- `path:line:col: severity: message`. -/
def text : List Char := d.location ++ ':' :: ' ' :: (d.severity.word ++ d.message.chars)

def diagnostic (source root : List Char) : Diagnostic :=
  diagnosticAt source root d.path.chars d.line d.col d.severity.severity none d.message.chars

end GccDiagnostic

/-- A line of output: a diagnostic, or any other text. -/
inductive OutputLine (δ : Type) where
  | diagnostic (d : δ)
  | other (line : LineText)

namespace OutputLine

variable {δ : Type}

/-- The text of a line, given those of the diagnostics. -/
def text (textOf : δ → List Char) : OutputLine δ → List Char
  | .diagnostic d => textOf d
  | .other line => line.chars

/-- The diagnostic of a line, where it has one. -/
def wanted (diagnosticOf : δ → Diagnostic) : OutputLine δ → Option Diagnostic
  | .diagnostic d => some (diagnosticOf d)
  | .other _ => none

end OutputLine

/-! ## Trimmed texts -/

theorem trim_eq (text : List Char) : trim text = trimEnd (trimStart text) := rfl

theorem trimEnd_append_cons (front text : List Char) {c : Char} (visible : isWhitespace c = false) :
    trimEnd (front ++ c :: text) = front ++ c :: trimEnd text :=
  rdropWhile_append front text visible

theorem trimEnd_cons_of_ne {text : List Char} (held : trimEnd text ≠ []) (c : Char) :
    trimEnd (c :: text) = c :: trimEnd text := by
  have split : text.rdropWhile isWhitespace ++ text.rtakeWhile isWhitespace = text :=
    List.rdropWhile_append_rtakeWhile
  rcases List.eq_nil_or_concat' (trimEnd text) with empty | ⟨init, d, last⟩
  · exact absurd empty held
  · have visible : isWhitespace d = false := by
      have no := List.rdropWhile_last_not isWhitespace text held
      rw [Bool.not_eq_true] at no
      simpa only [show text.rdropWhile isWhitespace = init ++ [d] from last,
        List.getLast_append_singleton] using no
    rw [show text.rdropWhile isWhitespace = init ++ [d] from last, List.append_assoc] at split
    rw [← split, List.singleton_append, ← List.cons_append, trimEnd_append_cons _ _ visible,
      trimEnd_append_cons _ _ visible, List.cons_append]

theorem trimEnd_cons_of_white {c : Char} (white : isWhitespace c = true) {text : List Char}
    (blank : trimEnd text = []) : trimEnd (c :: text) = [] := by
  rw [trimEnd, List.rdropWhile_eq_nil_iff] at *
  intro d mem
  rcases List.mem_cons.mp mem with rfl | mem
  · exact white
  · exact blank d mem

theorem trimStart_trimEnd (text : List Char) : trimStart (trimEnd text) = trimEnd (trimStart text) := by
  have split : text.takeWhile isWhitespace ++ trimStart text = text :=
    List.takeWhile_append_dropWhile
  cases rest : trimStart text with
  | nil =>
      have white := List.dropWhile_eq_nil_iff.mp rest
      rw [show trimEnd text = [] from List.rdropWhile_eq_nil_iff.mpr white]
      rfl
  | cons c visibleText =>
      have visible : isWhitespace c = false := by
        have no := List.head?_dropWhile_not isWhitespace text
        rw [show text.dropWhile isWhitespace = c :: visibleText from rest] at no
        simpa using no
      rw [rest] at split
      have start : trimEnd (c :: visibleText) = c :: trimEnd visibleText :=
        trimEnd_append_cons [] visibleText visible
      rw [← split, trimEnd_append_cons _ _ visible, start, trimStart,
        List.dropWhile_append_of_pos fun d mem => List.mem_takeWhile_imp mem,
        List.dropWhile_cons_of_neg (by simp [visible])]

theorem trimEnd_trimEnd (text : List Char) : trimEnd (trimEnd text) = trimEnd text :=
  List.rdropWhile_idempotent _ _

theorem trim_trimEnd (text : List Char) : trim (trimEnd text) = trim text := by
  rw [trim_eq, trimStart_trimEnd, trimEnd_trimEnd, ← trim_eq]

theorem trim_of_visible {text : List Char} (visible : ∀ c ∈ text, isWhitespace c = false) :
    trim text = text := by
  have start : trimStart text = text := by
    cases text with
    | nil => rfl
    | cons c text => simp [trimStart, visible c List.mem_cons_self]
  rw [trim_eq, start, trimEnd]
  rcases List.eq_nil_or_concat' text with rfl | ⟨init, c, rfl⟩
  · rfl
  · exact List.rdropWhile_concat_neg _ _ _ (by simp [visible c (by simp)])

theorem mem_trim {text : List Char} {c : Char} (mem : c ∈ text) (visible : isWhitespace c = false) :
    c ∈ trim text := by
  obtain ⟨front, back, rfl⟩ := List.append_of_mem mem
  have kept : trimStart (front ++ c :: back) = trimStart front ++ c :: back := by
    rw [trimStart, List.dropWhile_append]
    split
    · rename_i empty
      rw [List.dropWhile_cons_of_neg (by simp [visible]), trimStart, List.isEmpty_iff.mp empty,
        List.nil_append]
    · rfl
  rw [trim_eq, kept, trimEnd_append_cons _ _ visible]
  simp

theorem trimEnd_dropCr (line : List Char) : trimEnd (dropCr line) = trimEnd line := by
  unfold dropCr
  split
  · rename_i cr
    obtain ⟨front, rfl⟩ := List.getLast?_eq_some_iff.mp cr
    rw [List.dropLast_concat, trimEnd, trimEnd, List.rdropWhile_concat_pos _ _ _ (by decide)]
  · rfl

theorem cutLast_eq_some {c : Char} {text front back : List Char} :
    cutLast c text = some (front, back) ↔ text = front ++ c :: back ∧ c ∉ back := by
  rw [cutLast, Option.map_eq_some_iff]
  constructor
  · rintro ⟨⟨b, a⟩, found, same⟩
    obtain ⟨rfl, rfl⟩ := Prod.mk.inj same
    obtain ⟨whole, free⟩ := cutFirst_single.mp found
    refine ⟨?_, by simpa using free⟩
    rw [← List.reverse_reverse text, whole]
    simp
  · rintro ⟨rfl, free⟩
    refine ⟨(back.reverse, front.reverse), cutFirst_single.mpr ⟨by simp, by simpa using free⟩, ?_⟩
    simp

theorem cutLast_eq_none {c : Char} {text : List Char} : cutLast c text = none ↔ c ∉ text := by
  rw [cutLast, Option.map_eq_none_iff, cutFirst_single_eq_none]
  simp

/-! ## Numbers -/

/-- A number of 32 bits, written in digits. -/
def Numeral (text : List Char) : Prop := (parseU32 text).isSome

theorem visible_of_isDigit {c : Char} (digit : c.isDigit = true) : isWhitespace c = false := by
  rw [Char.isDigit_iff_toNat] at digit
  have low : '0'.toNat = 48 := rfl
  have high : '9'.toNat = 57 := rfl
  simp only [isWhitespace, Bool.or_eq_false_iff, decide_eq_false_iff_not, beq_eq_false_iff_ne]
  omega

theorem Numeral.chars {text : List Char} (numeral : Numeral text) {c : Char} (mem : c ∈ text) :
    c.isDigit = true ∨ c = '+' := by
  rw [Numeral, parseU32] at numeral
  split at numeral
  · rename_i formed
    simp only [Bool.and_eq_true, List.all_eq_true] at formed
    have digits := formed.1.2
    rw [stripStart] at digits
    split at digits
    · rename_i plus
      obtain ⟨rest, rfl⟩ := plus
      rcases List.mem_append.mp mem with sign | mem
      · exact .inr (List.mem_singleton.mp sign)
      · exact .inl (digits c (by simpa using mem))
    · exact .inl (digits c mem)
  · simp at numeral

theorem Numeral.not_mem {text : List Char} (numeral : Numeral text) {c : Char}
    (digit : c.isDigit = false) (plus : c ≠ '+') : c ∉ text := by
  intro mem
  rcases numeral.chars mem with isDigit | same
  · rw [isDigit] at digit
    cases digit
  · exact plus same

/-- A numeral with blanks around it has no other visible characters either. -/
theorem Numeral.not_mem_of_trim {text : List Char} (numeral : Numeral (trim text)) {c : Char}
    (visible : isWhitespace c = false) (digit : c.isDigit = false) (plus : c ≠ '+') : c ∉ text :=
  fun mem => numeral.not_mem digit plus (mem_trim mem visible)

theorem numeral_toString {n : Nat} (fits : n < 2 ^ 32) : Numeral (toString n).toList := by
  rw [Numeral, parseU32_toString, if_pos fits]
  rfl

theorem trim_toString (n : Nat) : trim (toString n).toList = (toString n).toList :=
  trim_of_visible fun _ mem => visible_of_isDigit (isDigit_of_mem_toString mem)

end Ministr.Code.Diagnostics
