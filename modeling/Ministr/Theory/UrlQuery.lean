/-
# Theory.UrlQuery — the parameters of an address

The query of an address is what stands between the first `?` and a `#`.  It is split at `&`, each
part at its first `=`, and an escape `%hh` stands for the byte it names.  A text without an escape
is read as its own bytes, and no other text is (`percentDecode_eq_iff`): an escape is read as fewer
bytes than it takes.
-/
import Ministr.Theory.Bytes
import Ministr.Theory.ByteOffsets
import Ministr.Theory.FirstCut
import Ministr.Theory.Hexadecimal
import Mathlib.Data.List.TakeWhile

namespace Ministr.Theory.UrlQuery

open Ministr.Theory

set_option autoImplicit false

/-- The bytes of a text. -/
def textBytes (text : List Char) : List UInt8 := text.flatMap String.utf8EncodeChar

@[simp] theorem textBytes_append (front back : List Char) :
    textBytes (front ++ back) = textBytes front ++ textBytes back := List.flatMap_append

theorem length_textBytes (text : List Char) : (textBytes text).length = byteLength text := by
  induction text with
  | nil => rfl
  | cons c text ih =>
      rw [textBytes, List.flatMap_cons, List.length_append, String.length_utf8EncodeChar,
        byteLength_cons, ← ih]
      rfl

/-! ## Escapes -/

/-- The byte that three characters name. -/
def escapedByte (c high low : Char) : Option UInt8 :=
  if c = '%' then do
    let x ← hexValue high
    let y ← hexValue low
    return UInt8.ofNat (x * 16 + y)
  else none

def percentDecode : List Char → List UInt8
  | c :: high :: low :: text =>
      match escapedByte c high low with
      | some byte => byte :: percentDecode text
      | none => String.utf8EncodeChar c ++ percentDecode (high :: low :: text)
  | c :: text => String.utf8EncodeChar c ++ percentDecode text
  | [] => []

/-- A `%` and two hexadecimal digits. -/
def HasEscape (text : List Char) : Prop :=
  ∃ high low, (hexValue high).isSome ∧ (hexValue low).isSome ∧ ['%', high, low] <:+: text

theorem escapedByte_isSome {c high low : Char} :
    (escapedByte c high low).isSome ↔
      c = '%' ∧ (hexValue high).isSome ∧ (hexValue low).isSome := by
  rw [escapedByte]
  split
  · rename_i mark
    cases hexValue high <;> cases hexValue low <;> simp [mark]
  · rename_i other
    simp [other]

theorem hasEscape_cons {c : Char} {text : List Char} :
    HasEscape (c :: text) ↔
      (∃ high low rest, text = high :: low :: rest ∧ (escapedByte c high low).isSome) ∨
        HasEscape text := by
  constructor
  · rintro ⟨high, low, isHigh, isLow, occurs⟩
    rcases List.infix_cons_iff.mp occurs with ⟨rest, here⟩ | later
    · obtain ⟨rfl, whole⟩ := List.cons.inj here
      exact .inl ⟨high, low, rest, whole.symm, escapedByte_isSome.mpr ⟨rfl, isHigh, isLow⟩⟩
    · exact .inr ⟨high, low, isHigh, isLow, later⟩
  · rintro (⟨high, low, rest, rfl, here⟩ | ⟨high, low, isHigh, isLow, occurs⟩)
    · obtain ⟨rfl, isHigh, isLow⟩ := escapedByte_isSome.mp here
      exact ⟨high, low, isHigh, isLow, [], rest, rfl⟩
    · exact ⟨high, low, isHigh, isLow, List.infix_cons occurs⟩

theorem percentDecode_cons_of_some {c high low : Char} {byte : UInt8}
    (here : escapedByte c high low = some byte) (text : List Char) :
    percentDecode (c :: high :: low :: text) = byte :: percentDecode text := by
  rw [percentDecode, here]

theorem percentDecode_cons_of_not {c : Char} {text : List Char}
    (other : ∀ high low rest, text = high :: low :: rest → escapedByte c high low = none) :
    percentDecode (c :: text) = String.utf8EncodeChar c ++ percentDecode text := by
  match text with
  | [] => rfl
  | [_] => rfl
  | high :: low :: rest => rw [percentDecode, other high low rest rfl]

/-- Every start of a text is an escape or a character. -/
theorem escape_or_char (c : Char) (text : List Char) :
    (∃ high low rest byte, text = high :: low :: rest ∧ escapedByte c high low = some byte) ∨
      ∀ high low rest, text = high :: low :: rest → escapedByte c high low = none := by
  by_cases here : ∃ high low rest byte, text = high :: low :: rest ∧
      escapedByte c high low = some byte
  · exact .inl here
  · refine .inr fun high low rest whole => Option.eq_none_iff_forall_ne_some.mpr fun byte found => ?_
    exact here ⟨high, low, rest, byte, whole, found⟩

theorem length_percentDecode_le (text : List Char) :
    (percentDecode text).length ≤ byteLength text := by
  induction text using percentDecode.induct with
  | case1 c high low text byte here ih =>
      have one := Char.utf8Size_pos c
      rw [percentDecode_cons_of_some here]
      simp only [List.length_cons, byteLength_cons]
      omega
  | case2 c high low text other ih =>
      rw [percentDecode, other]
      simp only [List.length_append, String.length_utf8EncodeChar, byteLength_cons] at ih ⊢
      omega
  | case3 c text other ih =>
      rw [percentDecode_cons_of_not fun high low rest whole => absurd whole (other high low rest),
        List.length_append, String.length_utf8EncodeChar, byteLength_cons]
      omega
  | case4 => exact Nat.le_refl _

theorem percentDecode_append_of_free {front : List Char} (free : '%' ∉ front) (back : List Char) :
    percentDecode (front ++ back) = textBytes front ++ percentDecode back := by
  induction front with
  | nil => rfl
  | cons c front ih =>
      rw [List.mem_cons, not_or] at free
      have plain : ∀ high low rest, front ++ back = high :: low :: rest →
          escapedByte c high low = none := by
        intro high low rest _
        rw [escapedByte, if_neg fun mark => free.1 mark.symm]
      rw [List.cons_append, percentDecode_cons_of_not plain, ih free.2, ← List.append_assoc]
      rfl

theorem percentDecode_of_free {text : List Char} (free : '%' ∉ text) :
    percentDecode text = textBytes text := by
  have whole := percentDecode_append_of_free free []
  rwa [List.append_nil, percentDecode, List.append_nil] at whole

/-- **A text is read as its own bytes exactly where it has no escape.** -/
theorem percentDecode_eq_iff (text : List Char) :
    percentDecode text = textBytes text ↔ ¬ HasEscape text := by
  induction text with
  | nil => simp [percentDecode, textBytes, HasEscape]
  | cons c text ih =>
      rw [hasEscape_cons, not_or]
      rcases escape_or_char c text with ⟨high, low, rest, byte, rfl, here⟩ | plain
      · refine iff_of_false (fun same => ?_) fun none =>
          none.1 ⟨high, low, rest, rfl, by rw [here]; rfl⟩
        -- an escape takes three bytes at least, and is read as one
        have shorter := congrArg List.length same
        have rest_le := length_percentDecode_le rest
        have sizes := And.intro (Char.utf8Size_pos c)
          (And.intro (Char.utf8Size_pos high) (Char.utf8Size_pos low))
        rw [percentDecode_cons_of_some here, length_textBytes] at shorter
        simp only [List.length_cons, byteLength_cons] at shorter
        omega
      · rw [percentDecode_cons_of_not plain]
        have split : textBytes (c :: text) = String.utf8EncodeChar c ++ textBytes text := rfl
        rw [split, List.append_cancel_left_eq, ih, iff_and_self]
        rintro - ⟨high, low, rest, whole, here⟩
        rw [plain high low rest whole] at here
        cases here

/-- A start of a text is read as the bytes of the whole only where it is the whole. -/
theorem eq_of_percentDecode {start text : List Char} (before : start <+: text)
    (same : percentDecode start = textBytes text) : start = text := by
  obtain ⟨rest, rfl⟩ := before
  have length := length_percentDecode_le start
  rw [same, length_textBytes, byteLength_append] at length
  have none : rest = [] := by
    by_contra some
    have positive := byteLength_pos some
    omega
  rw [none, List.append_nil]

/-! ## Parameters -/

/-- What stands behind the first `?` and before a `#`. -/
def queryOf (address : List Char) : Option (List Char) :=
  (cutFirst ['?'] (address.takeWhile (· ≠ '#'))).map Prod.snd

/-- A name and a value. -/
def parameter (part : List Char) : List UInt8 × List UInt8 :=
  match cutFirst ['='] part with
  | some (name, value) => (percentDecode name, percentDecode value)
  | none => (percentDecode part, [])

/-- The parameters of a query; nothing between two `&` is none. -/
def parametersOf (query : List Char) : List (List UInt8 × List UInt8) :=
  ((query.splitOn '&').filter (· ≠ [])).map parameter

def parameters (address : List Char) : List (List UInt8 × List UInt8) :=
  (queryOf address).elim [] parametersOf

theorem parametersOf_append (front back : List Char) :
    parametersOf (front ++ '&' :: back) = parametersOf front ++ parametersOf back := by
  rw [parametersOf, List.splitOn_append_cons_self, List.filter_append, List.map_append]
  rfl

theorem parametersOf_single {part : List Char} (whole : '&' ∉ part) (nonempty : part ≠ []) :
    parametersOf part = [parameter part] := by
  rw [parametersOf, List.splitOn_eq_singleton whole]
  simp [nonempty]

/-- The first parameter reaches to the first `&`. -/
theorem exists_parametersOf {query : List Char} (start : query.takeWhile (· ≠ '&') ≠ []) :
    ∃ others, parametersOf query = parameter (query.takeWhile (· ≠ '&')) :: others := by
  have split := List.takeWhile_append_dropWhile (p := (· ≠ '&')) (l := query)
  have free : '&' ∉ query.takeWhile (· ≠ '&') := fun mem => by
    have other := List.mem_takeWhile_imp mem
    simp at other
  cases rest : query.dropWhile (· ≠ '&') with
  | nil =>
      rw [rest, List.append_nil] at split
      refine ⟨[], ?_⟩
      rw [split] at start free ⊢
      exact parametersOf_single free start
  | cons c back =>
      have mark : c = '&' := by
        have head := List.head?_dropWhile_not (fun c => decide (c ≠ '&')) query
        rw [rest] at head
        simpa using head
      rw [rest, mark] at split
      refine ⟨parametersOf back, ?_⟩
      conv_lhs => rw [← split]
      rw [parametersOf_append, parametersOf_single free start]
      rfl

theorem parameter_named {name : List Char} (plain : '=' ∉ name) (value : List Char) :
    parameter (name ++ '=' :: value) = (percentDecode name, percentDecode value) := by
  rw [parameter, cutFirst_single.mpr ⟨rfl, plain⟩]

/-! ## An address with more behind it -/

/-- What parameters are put behind. -/
def joiner (address : List Char) : Char := if '?' ∈ address then '&' else '?'

/-- **What stands behind an address adds its own parameters, up to a `#`.** -/
theorem parameters_append {address : List Char} (whole : '#' ∉ address) (more : List Char) :
    parameters (address ++ joiner address :: more) =
      parameters address ++ parametersOf (more.takeWhile (· ≠ '#')) := by
  have keep : ∀ c ∈ address, decide (c ≠ '#') = true := by
    intro c mem
    rw [decide_eq_true_eq]
    rintro rfl
    exact whole mem
  have joins : joiner address ≠ '#' := by
    rw [joiner]
    split <;> decide
  have cut : (address ++ joiner address :: more).takeWhile (· ≠ '#') =
      address ++ joiner address :: more.takeWhile (· ≠ '#') := by
    rw [List.takeWhile_append_of_pos keep, List.takeWhile_cons, if_pos (decide_eq_true joins)]
  have own : address.takeWhile (· ≠ '#') = address := List.takeWhile_eq_self_iff.mpr keep
  rw [parameters, parameters, queryOf, queryOf, cut, own, joiner]
  split
  · rename_i asked
    obtain ⟨front, back, rfl, free⟩ := List.eq_append_cons_of_mem asked
    rw [cutFirst_single.mpr ⟨rfl, free⟩, List.append_assoc, List.cons_append,
      cutFirst_single.mpr ⟨rfl, free⟩]
    exact parametersOf_append _ _
  · rename_i unasked
    have none : cutFirst ['?'] address = none := by
      rw [cutFirst_single_eq_none]
      exact unasked
    rw [none, cutFirst_single.mpr ⟨rfl, unasked⟩]
    rfl

end Ministr.Theory.UrlQuery
