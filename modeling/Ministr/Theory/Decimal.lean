/-
# Theory.Decimal — unsigned numbers read from their digits

A number is read from decimal digits behind an optional plus sign, and refused where it reaches the
bound of its type.  What is printed below the bound is read back (`parseDecimal_toDigits`).
-/
import Mathlib.Data.List.Basic
import Mathlib.Tactic.Common

namespace Ministr.Theory

set_option autoImplicit false

/-- `parse` at an unsigned type that holds the numbers below `bound`. -/
def parseDecimal (bound : Nat) (text : List Char) : Option Nat :=
  let digits := if text.head? = some '+' then text.tail else text
  let n := Nat.ofDigitChars 10 digits 0
  if !digits.isEmpty && digits.all Char.isDigit && decide (n < bound) then some n else none

theorem parseDecimal_lt {bound n : Nat} {text : List Char} (read : parseDecimal bound text = some n) :
    n < bound := by
  unfold parseDecimal at read
  dsimp only at read
  generalize (if text.head? = some '+' then text.tail else text) = digits at read
  split at read
  · rename_i accepted
    obtain rfl := Option.some.inj read
    simp only [Bool.and_eq_true, decide_eq_true_eq] at accepted
    exact accepted.2
  · cases read

theorem parseDecimal_toDigits_eq (bound n : Nat) :
    parseDecimal bound (Nat.toDigits 10 n) = if n < bound then some n else none := by
  have digit : ∀ c ∈ Nat.toDigits 10 n, c.isDigit = true := fun c mem =>
    Nat.isDigit_of_mem_toDigits (by decide) (by decide) mem
  have unsigned : (Nat.toDigits 10 n).head? ≠ some '+' := by
    intro plus
    exact absurd (digit '+' (List.mem_of_head? plus)) (by decide)
  have held : (Nat.toDigits 10 n).isEmpty = false :=
    List.isEmpty_eq_false_iff.mpr Nat.toDigits_ne_nil
  rw [parseDecimal, if_neg unsigned, Nat.ofDigitChars_ten_toDigits, held,
    List.all_eq_true.mpr digit]
  simp

theorem parseDecimal_toDigits {bound n : Nat} (fits : n < bound) :
    parseDecimal bound (Nat.toDigits 10 n) = some n := by
  rw [parseDecimal_toDigits_eq, if_pos fits]

end Ministr.Theory
