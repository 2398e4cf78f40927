/-
# Theory.JsonText — string literals in JSON text, and reading them back

The part of JSON that decides whether an encoding of strings is injective: the
escaping of a string literal and its inverse.  `escapeChar` follows the usual
serializers: the quotation mark, the backslash and the five named control
characters have a short escape, the other control characters a `\u00xx`, and
everything else stands for itself.  `readString` is a reader for what
`quoted` writes, and `readString_quoted` the round trip, with any text behind it.
-/
import Ministr.Theory.Hexadecimal

namespace Ministr.Theory

set_option autoImplicit false

/-- The short escapes: the character and the letter that stands for it. -/
def shortEscapes : List (Char × Char) :=
  [('\"', '\"'), ('\\', '\\'), ('\x08', 'b'), ('\t', 't'), ('\n', 'n'), ('\x0c', 'f'), ('\r', 'r')]

def escapeChar (c : Char) : List Char :=
  match shortEscapes.find? fun e => e.1 = c with
  | some e => ['\\', e.2]
  | none =>
      if c.toNat < 32 then ['\\', 'u', '0', '0', hexDigit (c.toNat / 16), hexDigit c.toNat]
      else [c]

/-- The character an escape stands for, after the backslash. -/
def readEscape : List Char → Option (Char × List Char)
  | [] => none
  | letter :: rest =>
      match shortEscapes.find? fun e => e.2 = letter with
      | some e => some (e.1, rest)
      | none =>
          match letter, rest with
          | 'u', '0' :: '0' :: high :: low :: rest => do
              let x ← hexValue high
              let y ← hexValue low
              return (Char.ofNat (16 * x + y), rest)
          | _, _ => none

/-- A string literal's body up to the closing quotation mark, and what follows. -/
def readString : Nat → List Char → Option (List Char × List Char)
  | 0, _ => none
  | _ + 1, [] => none
  | fuel + 1, c :: cs =>
      if c = '\"' then some ([], cs)
      else if c = '\\' then
        match readEscape cs with
        | none => none
        | some (d, rest) => (readString fuel rest).map fun r => (d :: r.1, r.2)
      else (readString fuel cs).map fun r => (c :: r.1, r.2)

/-- A string literal's body and its closing quotation mark. -/
def quoted (s : List Char) : List Char := s.flatMap escapeChar ++ ['\"']

theorem readEscape_control (n : Nat) (control : n < 32) (rest : List Char) :
    readEscape ('u' :: '0' :: '0' :: hexDigit (n / 16) :: hexDigit n :: rest) =
      some (Char.ofNat n, rest) := by
  show (hexValue (hexDigit (n / 16))).bind (fun x => (hexValue (hexDigit n)).bind fun y =>
    some (Char.ofNat (16 * x + y), rest)) = _
  have whole : 16 * (n / 16 % 16) + n % 16 = n := by omega
  rw [hexValue_hexDigit, hexValue_hexDigit, Option.bind_some, Option.bind_some, whole]

/-- Reading one character's escape in front of a body. -/
theorem readString_escapeChar (c : Char) (fuel : Nat) (tail : List Char) :
    readString (fuel + 1) (escapeChar c ++ tail) =
      (readString fuel tail).map fun r => (c :: r.1, r.2) := by
  unfold escapeChar
  cases short : shortEscapes.find? fun e => e.1 = c with
  | some e =>
      have listed := List.mem_of_find?_eq_some short
      have same : e.1 = c := by simpa using List.find?_some short
      simp only [shortEscapes, List.mem_cons, List.not_mem_nil, or_false] at listed
      subst same
      rcases listed with rfl | rfl | rfl | rfl | rfl | rfl | rfl <;> rfl
  | none =>
      by_cases control : c.toNat < 32
      · have back : Char.ofNat c.toNat = c := Char.ofNat_toNat c
        have read := readEscape_control c.toNat control tail
        rw [back] at read
        simp only [control, if_true, List.cons_append, List.nil_append]
        rw [readString, if_neg (by decide), if_pos rfl, read]
      · have notQuote : c ≠ '\"' := by
          rintro rfl
          exact absurd short (by decide)
        have notBackslash : c ≠ '\\' := by
          rintro rfl
          exact absurd short (by decide)
        simp only [control, if_false, List.cons_append, List.nil_append]
        rw [readString, if_neg notQuote, if_neg notBackslash]

/-- **A quoted string is read back, whatever stands behind it.** -/
theorem readString_quoted (s tail : List Char) (fuel : Nat) (enough : s.length < fuel) :
    readString fuel (quoted s ++ tail) = some (s, tail) := by
  induction s generalizing fuel with
  | nil =>
      obtain ⟨fuel, rfl⟩ : ∃ f, fuel = f + 1 := ⟨fuel - 1, by simp at enough; omega⟩
      rfl
  | cons c s ih =>
      rw [List.length_cons] at enough
      obtain ⟨fuel, rfl⟩ : ∃ f, fuel = f + 1 := ⟨fuel - 1, by omega⟩
      have split : quoted (c :: s) ++ tail = escapeChar c ++ (quoted s ++ tail) := by
        simp [quoted]
      rw [split, readString_escapeChar, ih fuel (by omega)]
      rfl

theorem length_le_quoted (s : List Char) : s.length ≤ (quoted s).length := by
  have each : ∀ c, 1 ≤ (escapeChar c).length := by
    intro c
    unfold escapeChar
    split
    · simp
    · split <;> simp
  induction s with
  | nil => simp
  | cons c s ih =>
      have := each c
      simp only [quoted, List.flatMap_cons, List.length_append, List.length_cons,
        List.length_nil] at ih ⊢
      omega

/-- A label and the string literal behind it. -/
def readField (label : List Char) (text : List Char) : Option (List Char × List Char) :=
  if label.isPrefixOf text then readString (text.length + 1) (text.drop label.length) else none

theorem readField_quoted (label s tail : List Char) :
    readField label (label ++ (quoted s ++ tail)) = some (s, tail) := by
  unfold readField
  have starts : label.isPrefixOf (label ++ (quoted s ++ tail)) = true := by simp
  rw [if_pos starts, List.drop_left]
  apply readString_quoted
  have bound := length_le_quoted s
  simp only [List.length_append]
  omega

end Ministr.Theory
