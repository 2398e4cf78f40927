/-
# Theory.FixedWidth — numbers padded to a width

Decimal numbers padded with zeros to one width compare as texts in the order of the numbers
(`padded_lt_iff`).  Texts of one length in front decide a comparison before what follows them
(`append_lt_append_iff`).
-/
import Mathlib.Algebra.Ring.Nat
import Mathlib.Data.List.Basic
import Mathlib.Tactic.Common

namespace Ministr.Theory

set_option autoImplicit false

/-- `{n:0width}`. -/
def padded (width n : Nat) : List Char :=
  List.replicate (width - (Nat.toDigits 10 n).length) '0' ++ Nat.toDigits 10 n

section Order

variable {front front' back back' : List Char}

theorem append_lt_append_iff (same : front.length = front'.length) :
    front ++ back < front' ++ back' ↔ front < front' ∨ (front = front' ∧ back < back') := by
  induction front generalizing front' with
  | nil =>
      obtain rfl := List.length_eq_zero_iff.mp same.symm
      simp
  | cons a front ih =>
      cases front' with
      | nil => cases same
      | cons b front' =>
          rw [List.cons_append, List.cons_append, List.cons_lt_cons_iff, List.cons_lt_cons_iff,
            ih (Nat.succ.inj same), List.cons.injEq]
          tauto

end Order

/-! ## Digits -/

/-- The last `width` digits of a number. -/
def lastDigits : Nat → Nat → List Char
  | 0, _ => []
  | width + 1, n => lastDigits width (n / 10) ++ [Nat.digitChar (n % 10)]

@[simp] theorem length_lastDigits (width n : Nat) : (lastDigits width n).length = width := by
  induction width generalizing n with
  | zero => rfl
  | succ width ih => rw [lastDigits, List.length_append, ih, List.length_singleton]

theorem lastDigits_zero (width : Nat) : lastDigits width 0 = List.replicate width '0' := by
  induction width with
  | zero => rfl
  | succ width ih =>
      rw [lastDigits, Nat.zero_div, ih, List.replicate_succ']
      rfl

theorem padded_eq {width n : Nat} (positive : 0 < width) (fits : n < 10 ^ width) :
    padded width n = lastDigits width n := by
  induction width generalizing n with
  | zero => cases positive
  | succ width ih =>
      rw [padded, Nat.toDigits_eq_if (by decide), lastDigits]
      by_cases single : n < 10
      · rw [if_pos single, Nat.div_eq_of_lt single, Nat.mod_eq_of_lt single, lastDigits_zero]
        rfl
      · rw [if_neg single]
        have shorter : n / 10 < 10 ^ width := by
          rw [Nat.pow_succ] at fits
          omega
        have room : 0 < width := by
          rcases Nat.eq_zero_or_pos width with rfl | room
          · omega
          · exact room
        rw [← ih room shorter, padded, List.length_append, List.length_singleton,
          Nat.add_sub_add_right, List.append_assoc]

theorem digitChar_lt_iff {m n : Nat} (small : m < 10) (small' : n < 10) :
    Nat.digitChar m < Nat.digitChar n ↔ m < n := by
  rw [Char.lt_def, UInt32.lt_iff_toNat_lt]
  show (Nat.digitChar m).toNat < (Nat.digitChar n).toNat ↔ m < n
  rw [Nat.toNat_digitChar_of_lt_ten small, Nat.toNat_digitChar_of_lt_ten small']
  omega

theorem digitChar_inj {m n : Nat} (small : m < 10) (small' : n < 10)
    (same : Nat.digitChar m = Nat.digitChar n) : m = n := by
  have code := congrArg Char.toNat same
  rw [Nat.toNat_digitChar_of_lt_ten small, Nat.toNat_digitChar_of_lt_ten small'] at code
  omega

theorem lastDigits_inj {width m n : Nat} (fits : m < 10 ^ width) (fits' : n < 10 ^ width)
    (same : lastDigits width m = lastDigits width n) : m = n := by
  induction width generalizing m n with
  | zero => omega
  | succ width ih =>
      rw [Nat.pow_succ] at fits fits'
      obtain ⟨front, last⟩ := List.append_inj' same rfl
      have tens : m / 10 = n / 10 := ih (by omega) (by omega) front
      have ones : m % 10 = n % 10 :=
        digitChar_inj (Nat.mod_lt _ (by decide)) (Nat.mod_lt _ (by decide)) (List.cons.inj last).1
      omega

theorem lastDigits_lt_iff {width m n : Nat} (fits : m < 10 ^ width) (fits' : n < 10 ^ width) :
    lastDigits width m < lastDigits width n ↔ m < n := by
  induction width generalizing m n with
  | zero =>
      have none : ¬ m < n := by omega
      simp [lastDigits, none]
  | succ width ih =>
      rw [Nat.pow_succ] at fits fits'
      have inj : lastDigits width (m / 10) = lastDigits width (n / 10) ↔ m / 10 = n / 10 :=
        ⟨lastDigits_inj (by omega) (by omega), fun same => by rw [same]⟩
      have last : [Nat.digitChar (m % 10)] < [Nat.digitChar (n % 10)] ↔ m % 10 < n % 10 := by
        rw [List.cons_lt_cons_iff, digitChar_lt_iff (Nat.mod_lt _ (by decide)) (Nat.mod_lt _ (by decide))]
        simp
      rw [lastDigits, lastDigits, append_lt_append_iff (by simp), ih (by omega) (by omega), inj, last]
      omega

theorem padded_lt_iff {width m n : Nat} (positive : 0 < width) (fits : m < 10 ^ width)
    (fits' : n < 10 ^ width) : padded width m < padded width n ↔ m < n := by
  rw [padded_eq positive fits, padded_eq positive fits', lastDigits_lt_iff fits fits']

theorem padded_inj {width m n : Nat} (positive : 0 < width) (fits : m < 10 ^ width)
    (fits' : n < 10 ^ width) (same : padded width m = padded width n) : m = n := by
  rw [padded_eq positive fits, padded_eq positive fits'] at same
  exact lastDigits_inj fits fits' same

theorem length_padded {width n : Nat} (positive : 0 < width) (fits : n < 10 ^ width) :
    (padded width n).length = width := by
  rw [padded_eq positive fits, length_lastDigits]

end Ministr.Theory
