/-
# Theory.Hexadecimal — digits in base sixteen

A digit is written in lower case by `hexDigit` and in upper case by `upperHexDigit`, and
`hexValue` reads it in either.  Numbers written in so many digits are told apart where they fit
(`hexDigits_injective`).
-/
import Mathlib.Tactic.Common
import Mathlib.Tactic.IntervalCases

namespace Ministr.Theory

set_option autoImplicit false

/-! ## One digit -/

def hexDigit (n : Nat) : Char := Nat.digitChar (n % 16)

def upperHexDigit (n : Nat) : Char := (hexDigit n).toUpper

def hexValue (c : Char) : Option Nat :=
  if '0' ≤ c ∧ c ≤ '9' then some (c.toNat - '0'.toNat)
  else if 'A' ≤ c ∧ c ≤ 'F' then some (c.toNat - 'A'.toNat + 10)
  else if 'a' ≤ c ∧ c ≤ 'f' then some (c.toNat - 'a'.toNat + 10)
  else none

theorem hexValue_hexDigit (n : Nat) : hexValue (hexDigit n) = some (n % 16) := by
  have small : n % 16 < 16 := Nat.mod_lt n (by decide)
  rw [hexDigit]
  generalize n % 16 = digit at small
  interval_cases digit <;> rfl

theorem hexValue_upperHexDigit (n : Nat) : hexValue (upperHexDigit n) = some (n % 16) := by
  have small : n % 16 < 16 := Nat.mod_lt n (by decide)
  rw [upperHexDigit, hexDigit]
  generalize n % 16 = digit at small
  interval_cases digit <;> rfl

theorem hexDigit_inj {a b : Nat} (same : hexDigit a = hexDigit b) : a % 16 = b % 16 := by
  have read := hexValue_hexDigit a
  rw [same, hexValue_hexDigit] at read
  exact (Option.some.inj read).symm

/-! ## Numbers of one width -/

/-- The last `width` digits of a number. -/
def hexDigits : Nat → Nat → List Char
  | 0, _ => []
  | width + 1, n => hexDigits width (n / 16) ++ [hexDigit n]

@[simp] theorem length_hexDigits (width n : Nat) : (hexDigits width n).length = width := by
  induction width generalizing n with
  | zero => rfl
  | succ width ih => simp [hexDigits, ih]

theorem hexDigits_injective {width a b : Nat} (fitsA : a < 16 ^ width) (fitsB : b < 16 ^ width)
    (same : hexDigits width a = hexDigits width b) : a = b := by
  induction width generalizing a b with
  | zero =>
      rw [Nat.pow_zero] at fitsA fitsB
      omega
  | succ width ih =>
      obtain ⟨high, low⟩ := List.append_inj' same rfl
      have quotient : a / 16 = b / 16 := by
        apply ih _ _ high
        · rw [Nat.pow_succ] at fitsA; omega
        · rw [Nat.pow_succ] at fitsB; omega
      have remainder : a % 16 = b % 16 := hexDigit_inj (List.cons.inj low).1
      omega

end Ministr.Theory
