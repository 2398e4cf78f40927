/-
# Code.DiagnosticsRead — which diagnostics are read back

What `tsc` prints is read back exactly when the path has no opening parenthesis and the message
has no blanks around it; what `gcc` prints, when the message ends in a visible character and, for
`go vet`, which prints no severity, begins with no severity word.  Other lines are passed over
exactly when they do not have the loose shape that the parsers look for
(`diagnostics_readBack_iff`).  A file under a directory such as `app/(shop)` is lost
(`routeGroup_lost`).
-/
import Ministr.Code.Diagnostics

namespace Ministr.Code.Diagnostics

open Ministr.Theory Ministr.Content
open Ministr.Git (LineText textLines textLines_ofLines ofLines dropCr stripStart stripStart_append
  stripStart_eq_none joinPath parseU32 parseU32_toString toString_ne_nil isDigit_of_mem_toString
  rdropWhile_append)
open Ministr.Ingestion.Reshape (words_trim)

set_option autoImplicit false

/-! ## Lines of `tsc` -/

/-- A line with the loose shape the parser looks for: two numbers behind the first parenthesis,
and a severity word behind the one that closes it, with a colon somewhere after that. -/
def TscShaped (line : List Char) : Prop :=
  ∃ file l c more gap word rest,
    trimEnd line =
      file ++ '(' :: ((l ++ ',' :: (c ++ more)) ++ ')' :: (gap ++ (word ++ rest))) ∧
    '(' ∉ file ∧ Numeral (trim l) ∧ Numeral (trim c) ∧ (more = [] ∨ [','] <+: more) ∧
    ')' ∉ more ∧ (∀ d ∈ gap, d = ':' ∨ d = ' ') ∧
    (word = "error".toList ∨ word = "warning".toList) ∧ ':' ∈ rest

section Tsc

variable {source root : List Char}

theorem severityWord_isSome_iff {rest : List Char} :
    (severityWord rest).isSome ↔
      ∃ word, (word = "error".toList ∨ word = "warning".toList) ∧ word <+: rest := by
  rw [severityWord]
  split
  · rename_i error
    exact ⟨fun _ => ⟨_, .inl rfl, error⟩, fun _ => rfl⟩
  · rename_i noError
    split
    · rename_i warning
      exact ⟨fun _ => ⟨_, .inr rfl, warning⟩, fun _ => rfl⟩
    · rename_i noWarning
      constructor
      · simp
      · rintro ⟨word, rfl | rfl, start⟩
        · exact absurd start noError
        · exact absurd start noWarning

theorem afterPosition_append {gap : List Char} (blanks : ∀ d ∈ gap, d = ':' ∨ d = ' ')
    {word : List Char} (severity : word = "error".toList ∨ word = "warning".toList)
    (rest : List Char) : afterPosition (gap ++ (word ++ rest)) = word ++ rest := by
  rw [afterPosition, List.dropWhile_append_of_pos]
  · rcases severity with rfl | rfl <;> rfl
  · intro d mem
    simpa using blanks d mem

/-- The first two pieces between commas. -/
theorem splitOn_two_iff {coords l c : List Char} (first : ',' ∉ l) (second : ',' ∉ c) :
    ((coords.splitOn ',')[0]? = some l ∧ (coords.splitOn ',')[1]? = some c) ↔
      ∃ more, coords = l ++ ',' :: (c ++ more) ∧ (more = [] ∨ [','] <+: more) := by
  constructor
  · rintro ⟨zero, one⟩
    have joined : [','].intercalate (coords.splitOn ',') = coords := List.intercalate_splitOn ','
    cases pieces : coords.splitOn ',' with
    | nil => simp [pieces] at zero
    | cons l' pieces' =>
        cases pieces' with
        | nil => simp [pieces] at one
        | cons c' more =>
            obtain rfl : l' = l := by simpa [pieces] using zero
            obtain rfl : c' = c := by simpa [pieces] using one
            rw [pieces] at joined
            cases more with
            | nil => exact ⟨[], by simpa [List.intercalate] using joined.symm, .inl rfl⟩
            | cons d more =>
                refine ⟨',' :: [','].intercalate (d :: more), ?_, .inr ⟨_, rfl⟩⟩
                simpa [List.intercalate, List.intersperse] using joined.symm
  · rintro ⟨more, rfl, empty | ⟨rest, rfl⟩⟩
    · rw [List.splitOn_append_cons_self_of_not_mem first, empty, List.append_nil,
        List.splitOn_eq_singleton second]
      exact ⟨rfl, rfl⟩
    · rw [List.splitOn_append_cons_self_of_not_mem first, List.singleton_append,
        List.splitOn_append_cons_self_of_not_mem second]
      exact ⟨rfl, rfl⟩

/-- What the parser found, where it found something. -/
theorem parseTscLine_eq_some {line : List Char} {e : Diagnostic} :
    parseTscLine source root line = some e ↔
      ∃ file behind coords behind' l c lineStart colStart severity head message,
        cutFirst ['('] (trimEnd line) = some (file, behind) ∧
        cutFirst [')'] behind = some (coords, behind') ∧
        (coords.splitOn ',')[0]? = some l ∧ (coords.splitOn ',')[1]? = some c ∧
        parseU32 (trim l) = some lineStart ∧ parseU32 (trim c) = some colStart ∧
        severityWord (afterPosition behind') = some severity ∧
        cutFirst [':'] (afterPosition behind') = some (head, message) ∧
        diagnosticAt source root file lineStart colStart severity
          (words isWhitespace (trim head))[1]? (trim message) = e := by
  simp only [parseTscLine, Option.bind_eq_bind, Option.bind_eq_some_iff, Prod.exists,
    Option.pure_def, Option.some.injEq]
  constructor
  · rintro ⟨file, behind, h1, coords, behind', h2, l, h3, c, h4, lineStart, h5, colStart, h6,
      severity, h7, head, message, h8, h9⟩
    exact ⟨file, behind, coords, behind', l, c, lineStart, colStart, severity, head, message,
      h1, h2, h3, h4, h5, h6, h7, h8, h9⟩
  · rintro ⟨file, behind, coords, behind', l, c, lineStart, colStart, severity, head, message,
      h1, h2, h3, h4, h5, h6, h7, h8, h9⟩
    exact ⟨file, behind, h1, coords, behind', h2, l, h3, c, h4, lineStart, h5, colStart, h6,
      severity, h7, head, message, h8, h9⟩

theorem parseTscLine_isSome_iff {line : List Char} :
    (parseTscLine source root line).isSome ↔ TscShaped line := by
  rw [Option.isSome_iff_exists]
  constructor
  · rintro ⟨e, found⟩
    obtain ⟨file, behind, coords, behind', l, c, _, _, _, head, message, cut, cut', zero, one,
      lineNumber, colNumber, severity, colon, -⟩ := parseTscLine_eq_some.mp found
    have numeralL : Numeral (trim l) := by rw [Numeral, lineNumber]; rfl
    have numeralC : Numeral (trim c) := by rw [Numeral, colNumber]; rfl
    obtain ⟨whole, fileFree⟩ := cutFirst_single.mp cut
    obtain ⟨rfl, coordsFree⟩ := cutFirst_single.mp cut'
    obtain ⟨more, rfl, start⟩ :=
      (splitOn_two_iff (numeralL.not_mem_of_trim (by decide) (by decide) (by decide))
        (numeralC.not_mem_of_trim (by decide) (by decide) (by decide))).mp ⟨zero, one⟩
    obtain ⟨word, isWord, rest, behindWord⟩ :=
      severityWord_isSome_iff.mp (Option.isSome_iff_exists.mpr ⟨_, severity⟩)
    have gap := List.takeWhile_append_dropWhile (p := fun c => c == ':' || c == ' ') (l := behind')
    refine ⟨file, l, c, more, behind'.takeWhile fun c => c == ':' || c == ' ', word, rest, ?_,
      fileFree, numeralL, numeralC, start, fun mem => coordsFree (by simp [mem]), fun d mem => ?_,
      isWord, ?_⟩
    · rw [whole, behindWord]
      exact congrArg (fun text => file ++ '(' :: (l ++ ',' :: (c ++ more) ++ ')' :: text)) gap.symm
    · simpa using List.mem_takeWhile_imp mem
    · have mem : ':' ∈ word ++ rest := by
        rw [behindWord, (cutFirst_single.mp colon).1]
        simp
      rcases List.mem_append.mp mem with inWord | inRest
      · rcases isWord with rfl | rfl <;> simp at inWord
      · exact inRest
  · rintro ⟨file, l, c, more, gap, word, rest, whole, fileFree, numeralL, numeralC, start, moreFree,
      blanks, isWord, colon⟩
    have free : ')' ∉ l ++ ',' :: (c ++ more) := by
      simp [numeralL.not_mem_of_trim (c := ')') (by decide) (by decide) (by decide),
        numeralC.not_mem_of_trim (c := ')') (by decide) (by decide) (by decide), moreFree]
    obtain ⟨zero, one⟩ :=
      (splitOn_two_iff (numeralL.not_mem_of_trim (by decide) (by decide) (by decide))
        (numeralC.not_mem_of_trim (by decide) (by decide) (by decide))).mpr ⟨more, rfl, start⟩
    obtain ⟨lineStart, lineNumber⟩ := Option.isSome_iff_exists.mp numeralL
    obtain ⟨colStart, colNumber⟩ := Option.isSome_iff_exists.mp numeralC
    have behind := afterPosition_append blanks isWord rest
    obtain ⟨severity, found⟩ := Option.isSome_iff_exists.mp
      (severityWord_isSome_iff.mpr ⟨word, isWord, rest, behind.symm⟩)
    have occurs : [':'] <:+: afterPosition (gap ++ (word ++ rest)) := by
      rw [behind, List.singleton_infix_iff]
      simp [colon]
    obtain ⟨head, message, cut⟩ := exists_cutFirst occurs
    exact ⟨_, parseTscLine_eq_some.mpr ⟨file, _, _, _, l, c, lineStart, colStart, severity, head,
      message, cutFirst_single.mpr ⟨whole, fileFree⟩, cutFirst_single.mpr ⟨rfl, free⟩, zero, one,
      lineNumber, colNumber, found, cut, rfl⟩⟩

end Tsc

/-! ## Files of a diagnostic -/

theorem start_of_append {mark front back : List Char} {c : Char} (free : c ∉ mark) :
    mark <+: front ++ c :: back ↔ mark <+: front := by
  constructor
  · intro start
    rcases List.prefix_or_prefix_of_prefix start (List.prefix_append front (c :: back)) with
      done | ⟨rest, rfl⟩
    · exact done
    · rw [List.prefix_append_right_inj] at start
      cases rest with
      | nil => rw [List.append_nil]
      | cons d rest =>
          obtain ⟨rfl, -⟩ := List.cons_prefix_cons.mp start
          exact absurd (by simp) free
  · exact fun start => start.trans (List.prefix_append _ _)

theorem absolutize_append {front : List Char} (root back : List Char) {c : Char}
    (free : c ∉ "file://".toList) :
    absolutize root (front ++ c :: back) = absolutize root front ++ c :: back := by
  have stripped : (stripStart "file://".toList (front ++ c :: back)).getD (front ++ c :: back) =
      (stripStart "file://".toList front).getD front ++ c :: back := by
    by_cases start : "file://".toList <+: front
    · rw [stripStart, stripStart, if_pos start, if_pos ((start_of_append free).mpr start),
        Option.getD_some, Option.getD_some, List.drop_append_of_le_length start.length_le]
    · rw [stripStart, stripStart, if_neg start, if_neg (mt (start_of_append free).mp start),
        Option.getD_none, Option.getD_none]
  have slash : c ≠ '/' := fun same => free (by simp [same])
  rw [absolutize, stripped, absolutize]
  generalize (stripStart "file://".toList front).getD front = file
  have heads : (file ++ c :: back).head? = some '/' ↔ file.head? = some '/' := by
    cases file with
    | nil => simpa using slash
    | cons d file => simp
  simp only [joinPath, heads]
  split
  · rfl
  · split
    · rw [List.append_assoc]
    · rw [List.append_assoc, List.cons_append]

namespace TscDiagnostic

variable {source root : List Char} (d : TscDiagnostic)

/-- No parenthesis in the path, and no blanks around the message. -/
def Reads : Prop := '(' ∉ d.path.chars ∧ trim d.message.chars = d.message.chars

theorem not_mem_coords {c : Char} (digit : c.isDigit = false) (comma : c ≠ ',') :
    c ∉ d.coords := by
  have digits : ∀ n : Nat, c ∉ (toString n).toList := fun n mem => by
    rw [isDigit_of_mem_toString mem] at digit
    cases digit
  rw [coords, List.mem_append, List.mem_cons, not_or, not_or]
  exact ⟨digits d.line, comma, digits d.col⟩

theorem not_mem_head {c : Char} (digit : c.isDigit = false) (letter : c ∉ "warning TSerror".toList) :
    c ∉ d.head := by
  have digits : c ∉ d.digits := fun mem => by
    rw [d.areDigits c mem] at digit
    cases digit
  have letters : ∀ e ∈ "warning TSerror".toList, c ≠ e := fun e mem same => letter (same ▸ mem)
  have word : c ∉ d.category.word := by
    intro mem
    refine letter ?_
    cases category : d.category with
    | error =>
        rw [category] at mem
        exact List.mem_append_right "warning TS".toList mem
    | warning =>
        rw [category] at mem
        exact List.mem_append_left " TSerror".toList mem
  rw [head, code, List.mem_append, List.mem_cons, List.mem_cons, List.mem_cons]
  simp only [not_or]
  exact ⟨word, letters ' ' (by simp), letters 'T' (by simp), letters 'S' (by simp), digits⟩

theorem oneLine : '\n' ∉ d.text := by
  have coords := d.not_mem_coords (c := '\n') (by decide) (by decide)
  have head := d.not_mem_head (c := '\n') (by decide) (by decide)
  simp [text, d.path.oneLine, d.message.oneLine, coords, head]

theorem trimEnd_text :
    trimEnd d.text =
      d.path.chars ++ '(' :: (d.coords ++ ')' :: ([':', ' '] ++ (d.head ++ ':' ::
        trimEnd (' ' :: d.message.chars)))) := by
  have split : d.text = (d.path.chars ++ '(' :: (d.coords ++ ')' :: ':' :: ' ' :: d.head)) ++
      ':' :: ' ' :: d.message.chars := by simp [text]
  rw [split, trimEnd_append_cons _ _ (by decide)]
  simp

theorem words_head : words isWhitespace d.head = [d.category.word, d.code] := by
  have word : words isWhitespace d.category.word = [d.category.word] := by
    cases d.category <;> decide
  have code : words isWhitespace d.code = [d.code] := by
    refine words_single (fun c mem => ?_) (List.cons_ne_nil _ _)
    rcases List.mem_cons.mp mem with rfl | mem
    · decide
    · rcases List.mem_cons.mp mem with rfl | mem
      · decide
      · exact visible_of_isDigit (d.areDigits c mem)
  rw [head, words_append_cons _ _ (by decide), word, code]
  rfl

theorem severity_head (rest : List Char) :
    afterPosition ([':', ' '] ++ (d.head ++ rest)) = d.head ++ rest ∧
      severityWord (d.head ++ rest) = some d.category.severity := by
  rw [head]
  cases d.category with
  | error => exact ⟨rfl, if_pos ⟨_, rfl⟩⟩
  | warning =>
      refine ⟨rfl, ?_⟩
      rw [severityWord, if_neg, if_pos ⟨_, rfl⟩]
      · rfl
      · rintro ⟨rest, same⟩
        cases same

theorem parse_of_free (free : '(' ∉ d.path.chars) :
    parseTscLine source root d.text =
      some (diagnosticAt source root d.path.chars d.line d.col d.category.severity (some d.code)
        (trim d.message.chars)) := by
  obtain ⟨behind, severity⟩ := d.severity_head (':' :: trimEnd (' ' :: d.message.chars))
  obtain ⟨zero, one⟩ :=
    (splitOn_two_iff (l := (toString d.line).toList) (c := (toString d.col).toList)
      ((numeral_toString d.lineFits).not_mem (by decide) (by decide))
      ((numeral_toString d.colFits).not_mem (by decide) (by decide))).mpr
      ⟨[], rfl, .inl rfl⟩
  rw [List.append_nil] at zero one
  refine parseTscLine_eq_some.mpr ⟨d.path.chars, _, d.coords, _, _, _, d.line, d.col,
    d.category.severity, d.head, _, cutFirst_single.mpr ⟨d.trimEnd_text, free⟩,
    cutFirst_single.mpr ⟨rfl, d.not_mem_coords (by decide) (by decide)⟩, zero, one, ?_, ?_, ?_,
    cutFirst_single.mpr ⟨behind, d.not_mem_head (by decide) (by decide)⟩, ?_⟩
  · rw [trim_toString, parseU32_toString, if_pos d.lineFits]
  · rw [trim_toString, parseU32_toString, if_pos d.colFits]
  · rw [behind, severity]
  · rw [words_trim, d.words_head, trim_trimEnd]
    rfl

/-- With a parenthesis in the path, what is read is at most about another file. -/
theorem file_of_paren (paren : '(' ∈ d.path.chars) {e : Diagnostic}
    (found : parseTscLine source root d.text = some e) : e ≠ d.diagnostic source root := by
  obtain ⟨front, back, cut⟩ := exists_cutFirst ((List.singleton_infix_iff _ _).mpr paren)
  obtain ⟨path, free⟩ := cutFirst_single.mp cut
  obtain ⟨file, behind, _, _, _, _, _, _, _, _, _, first, -, -, -, -, -, -, -, rfl⟩ :=
    parseTscLine_eq_some.mp found
  rw [d.trimEnd_text, path, List.append_assoc, List.cons_append,
    cutFirst_single.mpr ⟨rfl, free⟩] at first
  obtain ⟨rfl, -⟩ := Prod.mk.inj (Option.some.inj first)
  intro same
  have files : absolutize root front = absolutize root d.path.chars := congrArg Diagnostic.file same
  rw [path, absolutize_append root back (by decide)] at files
  have lengths := congrArg List.length files
  rw [List.length_append, List.length_cons] at lengths
  omega

theorem parse_iff : parseTscLine source root d.text = some (d.diagnostic source root) ↔ d.Reads := by
  by_cases paren : '(' ∈ d.path.chars
  · refine iff_of_false (fun found => d.file_of_paren paren found rfl) fun reads => reads.1 paren
  · rw [d.parse_of_free paren, Option.some.injEq]
    constructor
    · exact fun same => ⟨paren, congrArg Diagnostic.message same⟩
    · rintro ⟨-, trimmed⟩
      rw [trimmed]
      rfl

end TscDiagnostic

/-! ## Lines of gcc -/

/-- A line with the loose shape the parser looks for: before its first colon and blank stands a
number behind a path, or two of them. -/
def GccShaped (line : List Char) : Prop :=
  ∃ file l position message,
    trimEnd line = (file ++ ':' :: (l ++ position)) ++ ':' :: ' ' :: message ∧
    ¬ [':', ' '] <:+: file ∧ Numeral l ∧
    ((position = [] ∧ ':' ∉ file) ∨ ∃ c, position = ':' :: c ∧ Numeral c)

/-- The text begins with none of the severity words. -/
def NoWord (text : List Char) : Prop :=
  ∀ severity : GccSeverity, severity ≠ .unnamed → ¬ severity.word <+: text

section Gcc

variable {source root : List Char}

theorem parseLocation_two {file l c : List Char} (lineFree : ':' ∉ l) (colFree : ':' ∉ c) :
    parseLocation (file ++ ':' :: (l ++ ':' :: c)) =
      (parseU32 l).bind fun line => (parseU32 c).map fun col =>
        (line, col, 1 + c.length + (1 + l.length)) := by
  have outer : cutLast ':' (file ++ ':' :: (l ++ ':' :: c)) = some (file ++ ':' :: l, c) :=
    cutLast_eq_some.mpr ⟨by simp, colFree⟩
  have inner : cutLast ':' (file ++ ':' :: l) = some (file, l) :=
    cutLast_eq_some.mpr ⟨rfl, lineFree⟩
  rw [parseLocation, outer]
  simp only [Option.bind_eq_bind, Option.bind_some, inner]
  cases parseU32 l with
  | none => rfl
  | some line => cases parseU32 c <;> rfl

theorem parseLocation_one {file l : List Char} (fileFree : ':' ∉ file) (lineFree : ':' ∉ l) :
    parseLocation (file ++ ':' :: l) = (parseU32 l).map fun line => (line, 1, 1 + l.length) := by
  have outer : cutLast ':' (file ++ ':' :: l) = some (file, l) :=
    cutLast_eq_some.mpr ⟨rfl, lineFree⟩
  rw [parseLocation, outer]
  simp only [Option.bind_eq_bind, Option.bind_some, cutLast_eq_none.mpr fileFree]
  cases parseU32 l <;> rfl

theorem parseLocation_isSome_iff {loc : List Char} :
    (parseLocation loc).isSome ↔
      ∃ file l position, loc = file ++ ':' :: (l ++ position) ∧ Numeral l ∧
        ((position = [] ∧ ':' ∉ file) ∨ ∃ c, position = ':' :: c ∧ Numeral c) := by
  constructor
  · intro found
    cases outer : cutLast ':' loc with
    | none => simp [parseLocation, outer] at found
    | some cut =>
        obtain ⟨before, last⟩ := cut
        obtain ⟨rfl, lastFree⟩ := cutLast_eq_some.mp outer
        cases inner : cutLast ':' before with
        | none =>
            rw [cutLast_eq_none] at inner
            rw [parseLocation_one inner lastFree, Option.isSome_map] at found
            exact ⟨before, last, [], by rw [List.append_nil], found, .inl ⟨rfl, inner⟩⟩
        | some cut =>
            obtain ⟨file, mid⟩ := cut
            obtain ⟨rfl, midFree⟩ := cutLast_eq_some.mp inner
            rw [List.append_assoc, List.cons_append, parseLocation_two midFree lastFree] at found
            obtain ⟨position, same⟩ := Option.isSome_iff_exists.mp found
            obtain ⟨line, lineNumber, rest⟩ := Option.bind_eq_some_iff.mp same
            obtain ⟨col, colNumber, -⟩ := Option.map_eq_some_iff.mp rest
            refine ⟨file, mid, ':' :: last, by simp, ?_, .inr ⟨last, rfl, ?_⟩⟩
            · rw [Numeral, lineNumber]
              rfl
            · rw [Numeral, colNumber]
              rfl
  · rintro ⟨file, l, position, rfl, numeralL, ⟨rfl, free⟩ | ⟨c, rfl, numeralC⟩⟩
    · rw [List.append_nil, parseLocation_one free (numeralL.not_mem (by decide) (by decide)),
        Option.isSome_map]
      exact numeralL
    · rw [parseLocation_two (numeralL.not_mem (by decide) (by decide))
        (numeralC.not_mem (by decide) (by decide))]
      obtain ⟨line, lineNumber⟩ := Option.isSome_iff_exists.mp numeralL
      obtain ⟨col, colNumber⟩ := Option.isSome_iff_exists.mp numeralC
      rw [lineNumber, colNumber]
      rfl

/-- A colon and a blank stand in the first part, when the second has no blank. -/
theorem infix_of_append {front back : List Char} (free : ' ' ∉ back)
    (found : [':', ' '] <:+: front ++ ':' :: back) : [':', ' '] <:+: front := by
  obtain ⟨before, after, whole⟩ := found
  rcases List.append_eq_append_iff.mp whole with ⟨rest, same, -⟩ | ⟨rest, same, split⟩
  · exact ⟨before, rest, same.symm⟩
  · rcases List.eq_nil_or_concat' rest with rfl | ⟨init, last, rfl⟩
    · exact ⟨before, [], by simpa using same⟩
    · have last_eq : last = ' ' := by
        have ends := congrArg List.getLast? same
        rw [← List.append_assoc, List.getLast?_concat] at ends
        simpa using ends.symm
      subst last_eq
      have mem : ' ' ∈ ':' :: back := by
        rw [split]
        simp
      simp [free] at mem

theorem parseGccLine_eq_some {line : List Char} {e : Diagnostic} :
    parseGccLine source root line = some e ↔
      ∃ loc message lineStart colStart width,
        cutFirst [':', ' '] (trimEnd line) = some (loc, message) ∧
        parseLocation loc = some (lineStart, colStart, width) ∧
        diagnosticAt source root (loc.take (loc.length - width)) lineStart colStart
          (stripSeverity message).1 none (stripSeverity message).2 = e := by
  simp only [parseGccLine, Option.bind_eq_bind, Option.bind_eq_some_iff, Prod.exists,
    Option.pure_def, Option.some.injEq]
  constructor
  · rintro ⟨loc, message, cut, lineStart, colStart, width, position, same⟩
    exact ⟨loc, message, lineStart, colStart, width, cut, position, same⟩
  · rintro ⟨loc, message, lineStart, colStart, width, cut, position, same⟩
    exact ⟨loc, message, cut, lineStart, colStart, width, position, same⟩

theorem parseGccLine_isSome_iff {line : List Char} :
    (parseGccLine source root line).isSome ↔ GccShaped line := by
  rw [Option.isSome_iff_exists]
  constructor
  · rintro ⟨e, found⟩
    obtain ⟨loc, message, _, _, _, cut, located, -⟩ := parseGccLine_eq_some.mp found
    obtain ⟨whole, free⟩ := (cutFirst_pair (by decide)).mp cut
    obtain ⟨file, l, position, rfl, numeralL, col⟩ :=
      parseLocation_isSome_iff.mp (Option.isSome_iff_exists.mpr ⟨_, located⟩)
    exact ⟨file, l, position, message, whole,
      fun inside => free (inside.trans (List.prefix_append _ _).isInfix), numeralL, col⟩
  · rintro ⟨file, l, position, message, whole, free, numeralL, col⟩
    obtain ⟨⟨lineStart, colStart, width⟩, found⟩ := Option.isSome_iff_exists.mp
      (parseLocation_isSome_iff.mpr ⟨file, l, position, rfl, numeralL, col⟩)
    have noBlank : ' ' ∉ l ++ position := by
      have lineFree := numeralL.not_mem (c := ' ') (by decide) (by decide)
      rcases col with ⟨rfl, -⟩ | ⟨c, rfl, numeralC⟩
      · simpa using lineFree
      · simp [lineFree, numeralC.not_mem (c := ' ') (by decide) (by decide)]
    exact ⟨_, parseGccLine_eq_some.mpr ⟨_, message, lineStart, colStart, width,
      (cutFirst_pair (by decide)).mpr ⟨whole, fun inside => free (infix_of_append noBlank inside)⟩,
      found, rfl⟩⟩

theorem stripSeverity_word {severity : GccSeverity} (named : severity ≠ .unnamed)
    (text : List Char) : stripSeverity (severity.word ++ text) = (severity.severity, text) := by
  rw [stripSeverity]
  cases severity with
  | error =>
      rw [show GccSeverity.error.word = "error: ".toList from rfl, stripStart_append]
      rfl
  | warning =>
      rw [show GccSeverity.warning.word = "warning: ".toList from rfl,
        show stripStart "error: ".toList ("warning: ".toList ++ text) = none from
          stripStart_eq_none (by decide), stripStart_append]
      rfl
  | note =>
      rw [show GccSeverity.note.word = "note: ".toList from rfl,
        show stripStart "error: ".toList ("note: ".toList ++ text) = none from
          stripStart_eq_none (by decide),
        show stripStart "warning: ".toList ("note: ".toList ++ text) = none from
          stripStart_eq_none (by decide), stripStart_append]
      rfl
  | unnamed => exact absurd rfl named

theorem stripSeverity_of_noWord {text : List Char} (plain : NoWord text) :
    stripSeverity text = (.error, text) := by
  have error : stripStart "error: ".toList text = none := if_neg (plain .error (by decide))
  have warning : stripStart "warning: ".toList text = none := if_neg (plain .warning (by decide))
  have note : stripStart "note: ".toList text = none := if_neg (plain .note (by decide))
  rw [stripSeverity, error, warning, note]

/-- What is left of a message with a severity word is shorter. -/
theorem stripSeverity_shorter {text : List Char} (worded : ¬ NoWord text) :
    (stripSeverity text).2.length < text.length := by
  simp only [NoWord, not_forall, Classical.not_not] at worded
  obtain ⟨severity, named, rest, rfl⟩ := worded
  rw [stripSeverity_word named, List.length_append]
  show rest.length < severity.word.length + rest.length
  have positive : 0 < severity.word.length := by
    cases severity with
    | unnamed => exact absurd rfl named
    | _ => decide
  omega

end Gcc

namespace GccDiagnostic

variable {source root : List Char} (d : GccDiagnostic)

/-- The message ends in a visible character; where no severity is named, it does not begin with
a severity word. -/
def Reads : Prop :=
  d.message.chars ≠ [] ∧ trimEnd d.message.chars = d.message.chars ∧
    (d.severity = .unnamed → NoWord d.message.chars)

def body : List Char := d.severity.word ++ d.message.chars

theorem oneLine : '\n' ∉ d.text := by
  have digits : ∀ n : Nat, '\n' ∉ (toString n).toList := fun n mem =>
    absurd (isDigit_of_mem_toString mem) (by decide)
  have word : '\n' ∉ d.severity.word := by cases d.severity <;> decide
  simp only [text, location, List.mem_append, List.mem_cons, not_or]
  exact ⟨⟨d.path.oneLine, by decide, digits _, by decide, digits _⟩, by decide, by decide, word,
    d.message.oneLine⟩

theorem numeral_free {n : Nat} {c : Char} (digit : c.isDigit = false) : c ∉ (toString n).toList :=
  fun mem => by
    rw [isDigit_of_mem_toString mem] at digit
    cases digit

theorem location_free : ¬ [':', ' '] <:+: d.location := by
  intro inside
  have back : ' ' ∉ (toString d.line).toList ++ ':' :: (toString d.col).toList := by
    rw [List.mem_append, List.mem_cons, not_or, not_or]
    exact ⟨numeral_free (by decide), by decide, numeral_free (by decide)⟩
  exact d.colonFree ((infix_of_append back inside).subset (by simp))

theorem parseLocation_location :
    parseLocation d.location = some (d.line, d.col,
      1 + (toString d.col).toList.length + (1 + (toString d.line).toList.length)) := by
  rw [location, parseLocation_two (numeral_free (by decide)) (numeral_free (by decide)),
    parseU32_toString, parseU32_toString, if_pos d.lineFits, if_pos d.colFits]
  rfl

theorem take_location :
    d.location.take (d.location.length -
      (1 + (toString d.col).toList.length + (1 + (toString d.line).toList.length))) =
    d.path.chars := by
  have length : d.location.length - (1 + (toString d.col).toList.length +
      (1 + (toString d.line).toList.length)) = d.path.chars.length := by
    rw [location, List.length_append, List.length_cons, List.length_append, List.length_cons]
    omega
  rw [length, location, List.take_left]

theorem parse_of_body (held : trimEnd d.body ≠ []) :
    parseGccLine source root d.text =
      some (diagnosticAt source root d.path.chars d.line d.col (stripSeverity (trimEnd d.body)).1
        none (stripSeverity (trimEnd d.body)).2) := by
  have line : trimEnd d.text = d.location ++ ':' :: ' ' :: trimEnd d.body := by
    rw [text, trimEnd_append_cons _ _ (by decide), ← body, trimEnd_cons_of_ne held]
  refine parseGccLine_eq_some.mpr ⟨d.location, _, _, _, _,
    (cutFirst_pair (by decide)).mpr ⟨line, d.location_free⟩, d.parseLocation_location, ?_⟩
  rw [d.take_location]

theorem parse_blank (blank : trimEnd d.body = []) : parseGccLine source root d.text = none := by
  have line : trimEnd d.text = d.location ++ [':'] := by
    rw [text, trimEnd_append_cons _ _ (by decide), ← body,
      trimEnd_cons_of_white (by decide) blank]
  have none : cutFirst [':', ' '] (trimEnd d.text) = none := by
    rw [cutFirst_eq_none, line]
    exact fun inside => d.location_free (infix_of_append (by simp) inside)
  rw [parseGccLine, none]
  rfl

/-- A severity word with nothing visible behind it is kept as the message. -/
theorem trimEnd_body_of_blank (named : d.severity ≠ .unnamed)
    (blank : trimEnd d.message.chars = []) :
    ∃ text, trimEnd d.body = text ∧ (stripSeverity text).2 = text ∧ ':' ∈ text := by
  have behind : trimEnd (' ' :: d.message.chars) = [] := trimEnd_cons_of_white (by decide) blank
  have cut : ∀ word, d.severity.word = word ++ [':', ' '] → trimEnd d.body = word ++ [':'] := by
    intro word same
    rw [body, same, List.append_assoc, List.cons_append, trimEnd_append_cons _ _ (by decide)]
    exact congrArg (fun text => word ++ ':' :: text) behind
  cases severity : d.severity with
  | error => exact ⟨"error:".toList, cut "error".toList (by rw [severity]; rfl), by decide, by decide⟩
  | warning =>
      exact ⟨"warning:".toList, cut "warning".toList (by rw [severity]; rfl), by decide, by decide⟩
  | note => exact ⟨"note:".toList, cut "note".toList (by rw [severity]; rfl), by decide, by decide⟩
  | unnamed => exact absurd severity named

/-- The message as it is read, when something of it is visible. -/
theorem trimEnd_body (held : trimEnd d.message.chars ≠ []) :
    trimEnd d.body = d.severity.word ++ trimEnd d.message.chars := by
  rw [body]
  generalize d.severity.word = word
  induction word with
  | nil => rfl
  | cons c word ih =>
      rw [List.cons_append, trimEnd_cons_of_ne (by rw [ih]; simp [held]), ih, List.cons_append]

theorem parse_iff : parseGccLine source root d.text = some (d.diagnostic source root) ↔ d.Reads := by
  by_cases blank : trimEnd d.message.chars = []
  · refine iff_of_false (fun found => ?_) fun reads => reads.1 (reads.2.1 ▸ blank)
    by_cases named : d.severity = .unnamed
    · have bodyBlank : trimEnd d.body = [] := by
        rw [body, named]
        exact blank
      rw [d.parse_blank bodyBlank] at found
      cases found
    · obtain ⟨text, kept, strip, colon⟩ := d.trimEnd_body_of_blank named blank
      rw [d.parse_of_body (by rw [kept]; rintro rfl; simp at colon), kept, Option.some.injEq] at found
      have message : text = d.message.chars := strip.symm.trans (congrArg Diagnostic.message found)
      rw [message] at colon
      have white := List.rdropWhile_eq_nil_iff.mp blank _ colon
      exact absurd white (by decide)
  · have whole := d.trimEnd_body blank
    rw [d.parse_of_body (by rw [whole]; simp [blank]), Option.some.injEq, whole]
    by_cases named : d.severity = .unnamed
    · rw [named]
      show diagnosticAt source root _ _ _ (stripSeverity (trimEnd d.message.chars)).1 none
        (stripSeverity (trimEnd d.message.chars)).2 = _ ↔ _
      by_cases plain : NoWord (trimEnd d.message.chars)
      · rw [stripSeverity_of_noWord plain]
        constructor
        · intro same
          have message : trimEnd d.message.chars = d.message.chars :=
            congrArg Diagnostic.message same
          refine ⟨fun empty => blank (message.trans empty), message, fun _ => message ▸ plain⟩
        · rintro ⟨-, message, -⟩
          rw [message, diagnostic, named]
          rfl
      · refine iff_of_false (fun same => ?_) fun reads => ?_
        · have message : (stripSeverity (trimEnd d.message.chars)).2 = d.message.chars :=
            congrArg Diagnostic.message same
          have shorter := stripSeverity_shorter plain
          have cut := (List.rdropWhile_prefix isWhitespace d.message.chars).length_le
          rw [message] at shorter
          exact absurd shorter (Nat.not_lt_of_le cut)
        · rw [reads.2.1] at plain
          exact plain (reads.2.2 named)
    · rw [stripSeverity_word named]
      constructor
      · intro same
        have message : trimEnd d.message.chars = d.message.chars := congrArg Diagnostic.message same
        exact ⟨fun empty => blank (message.trans empty), message, fun none => absurd none named⟩
      · rintro ⟨-, message, -⟩
        rw [message]
        rfl

end GccDiagnostic

/-! ## Whole outputs -/

namespace OutputLine

variable {δ : Type}

/-- A diagnostic that is read back, or a line that is taken for none. -/
def Reads (reads : δ → Prop) (shaped : List Char → Prop) : OutputLine δ → Prop
  | .diagnostic d => reads d
  | .other line => ¬ shaped line.chars

/-- A parser that reads line by line gives what is wanted of every part of the output, exactly
when it does so of every line. -/
theorem readBack_iff {parseLine : List Char → Option Diagnostic} {textOf : δ → List Char}
    {diagnosticOf : δ → Diagnostic} (cr : ∀ line, parseLine (dropCr line) = parseLine line)
    (oneLine : ∀ d, '\n' ∉ textOf d) (lines : List (OutputLine δ)) :
    (∀ front, front <+: lines →
      (textLines (ofLines (front.map (text textOf)))).filterMap parseLine =
        front.filterMap (wanted diagnosticOf)) ↔
    ∀ line ∈ lines, parseLine (line.text textOf) = line.wanted diagnosticOf := by
  have parsed : ∀ front : List (OutputLine δ),
      (textLines (ofLines (front.map (text textOf)))).filterMap parseLine =
        front.filterMap fun line => parseLine (line.text textOf) := by
    intro front
    have whole : ∀ l ∈ front.map (text textOf), '\n' ∉ l := by
      intro l mem
      obtain ⟨line, -, rfl⟩ := List.mem_map.mp mem
      cases line with
      | diagnostic d => exact oneLine d
      | other line => exact line.oneLine
    rw [textLines_ofLines whole, List.filterMap_map, List.filterMap_map]
    exact List.filterMap_congr fun line _ => cr _
  simp only [parsed]
  constructor
  · intro all line mem
    obtain ⟨before, after, rfl⟩ := List.append_of_mem mem
    have here := all (before ++ [line]) ⟨after, by simp⟩
    rw [List.filterMap_append, List.filterMap_append, all before (List.prefix_append _ _),
      List.append_cancel_left_eq] at here
    have single : ∀ f : OutputLine δ → Option Diagnostic, ([line].filterMap f).head? = f line := by
      intro f
      cases item : f line <;> simp [item]
    rw [← single fun line => parseLine (line.text textOf), here, single]
  · intro each front start
    exact List.filterMap_congr fun line mem => each line (start.subset mem)

end OutputLine

/-- **Diagnostics are read back, line for line, exactly when every diagnostic reads back and no
other line has the shape of one.** -/
theorem diagnostics_readBack_iff (source root : List Char) (tsc : List (OutputLine TscDiagnostic))
    (gcc : List (OutputLine GccDiagnostic)) :
    ((∀ front, front <+: tsc →
        parseTscText source root (ofLines (front.map (OutputLine.text TscDiagnostic.text))) =
          front.filterMap (OutputLine.wanted fun d => d.diagnostic source root)) ↔
      ∀ line ∈ tsc, line.Reads TscDiagnostic.Reads TscShaped) ∧
    ((∀ front, front <+: gcc →
        parseGccText source root (ofLines (front.map (OutputLine.text GccDiagnostic.text))) =
          front.filterMap (OutputLine.wanted fun d => d.diagnostic source root)) ↔
      ∀ line ∈ gcc, line.Reads GccDiagnostic.Reads GccShaped) := by
  constructor
  · refine (OutputLine.readBack_iff (fun line => ?_) TscDiagnostic.oneLine tsc).trans
      (forall₂_congr fun line _ => ?_)
    · rw [parseTscLine, trimEnd_dropCr, ← parseTscLine]
    · cases line with
      | diagnostic d => exact d.parse_iff
      | other line =>
          show parseTscLine source root line.chars = none ↔ ¬ TscShaped line.chars
          rw [← parseTscLine_isSome_iff, Option.not_isSome_iff_eq_none]
  · refine (OutputLine.readBack_iff (fun line => ?_) GccDiagnostic.oneLine gcc).trans
      (forall₂_congr fun line _ => ?_)
    · rw [parseGccLine, trimEnd_dropCr, ← parseGccLine]
    · cases line with
      | diagnostic d => exact d.parse_iff
      | other line =>
          show parseGccLine source root line.chars = none ↔ ¬ GccShaped line.chars
          rw [← parseGccLine_isSome_iff, Option.not_isSome_iff_eq_none]

/-- `tsc` prints `app/(shop)/page.tsx(12,5): error TS2345: no`. -/
def routeGroup : TscDiagnostic where
  path := ⟨"app/(shop)/page.tsx".toList, by decide⟩
  line := 12
  col := 5
  category := .error
  digits := "2345".toList
  message := ⟨"no".toList, by decide⟩
  lineFits := by decide
  colFits := by decide
  areDigits := by simp

/-- The first parenthesis is the one in the path, and the line is passed over. -/
theorem routeGroup_lost :
    parseTscText "tsc".toList "/proj".toList (ofLines [routeGroup.text]) = [] ∧
      [routeGroup.diagnostic "tsc".toList "/proj".toList] ≠ [] :=
  ⟨by decide +kernel, List.cons_ne_nil _ _⟩

end Ministr.Code.Diagnostics
