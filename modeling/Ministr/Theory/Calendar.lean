/-
# Theory.Calendar — the proleptic Gregorian calendar

Days are numbered by adding up the lengths of the years and months before them.  Each day has
exactly one date (`Date.dayNumber_injective`), and dates come in the order of their numbers
(`Date.dayNumber_lt_iff`).
-/
import Mathlib.Tactic.Common

namespace Ministr.Theory.Calendar

set_option autoImplicit false

def IsLeap (year : Nat) : Prop := year % 4 = 0 ∧ (year % 100 ≠ 0 ∨ year % 400 = 0)

instance (year : Nat) : Decidable (IsLeap year) := inferInstanceAs (Decidable (_ ∧ _))

def yearLength (year : Nat) : Nat := if IsLeap year then 366 else 365

def monthLength (year month : Nat) : Nat :=
  match month with
  | 2 => if IsLeap year then 29 else 28
  | 4 | 6 | 9 | 11 => 30
  | _ => 31

def daysBeforeYear : Nat → Nat
  | 0 => 0
  | year + 1 => daysBeforeYear year + yearLength year

/-- The days of the year before its month; the first month is number 1. -/
def daysBeforeMonth (year : Nat) : Nat → Nat
  | 0 => 0
  | 1 => 0
  | month + 2 => daysBeforeMonth year (month + 1) + monthLength year (month + 1)

structure Date where
  year : Nat
  month : Nat
  day : Nat
  deriving DecidableEq, Repr

namespace Date

variable (d : Date)

structure Valid : Prop where
  month_pos : 1 ≤ d.month
  month_le : d.month ≤ 12
  day_pos : 1 ≤ d.day
  day_le : d.day ≤ monthLength d.year d.month

/-- The days from the first of January of the year 0. -/
def dayNumber : Nat := daysBeforeYear d.year + daysBeforeMonth d.year d.month + (d.day - 1)

end Date

/-! ## Sums -/

theorem daysBeforeYear_eq (year : Nat) :
    daysBeforeYear year = 365 * year + (year + 3) / 4 - (year + 99) / 100 + (year + 399) / 400 := by
  induction year with
  | zero => rfl
  | succ year ih =>
      rw [daysBeforeYear, ih, yearLength]
      split
      · rename_i leap
        obtain ⟨four, century⟩ := leap
        omega
      · rename_i common
        rw [IsLeap] at common
        omega

theorem daysBeforeYear_le {first second : Nat} (le : first ≤ second) :
    daysBeforeYear first ≤ daysBeforeYear second := by
  induction le with
  | refl => exact Nat.le_refl _
  | step _ ih => exact Nat.le_trans ih (Nat.le_add_right _ _)

theorem daysBeforeMonth_succ {month : Nat} (positive : 1 ≤ month) (year : Nat) :
    daysBeforeMonth year (month + 1) = daysBeforeMonth year month + monthLength year month := by
  cases month with
  | zero => cases positive
  | succ month => rfl

theorem daysBeforeMonth_le (year : Nat) {first second : Nat} (le : first ≤ second) :
    daysBeforeMonth year first ≤ daysBeforeMonth year second := by
  induction le with
  | refl => exact Nat.le_refl _
  | @step month _ ih =>
      cases month with
      | zero => exact ih
      | succ month => exact Nat.le_trans ih (Nat.le_add_right _ _)

theorem daysBeforeMonth_thirteen (year : Nat) : daysBeforeMonth year 13 = yearLength year := by
  simp only [daysBeforeMonth, monthLength, yearLength]
  split <;> rfl

/-! ## Order -/

namespace Date

variable {d e : Date}

theorem dayNumber_lt_nextMonth (valid : d.Valid) :
    d.dayNumber < daysBeforeYear d.year + daysBeforeMonth d.year (d.month + 1) := by
  have first := valid.day_pos
  have last := valid.day_le
  rw [daysBeforeMonth_succ valid.month_pos, dayNumber]
  omega

theorem dayNumber_lt_nextYear (valid : d.Valid) : d.dayNumber < daysBeforeYear (d.year + 1) := by
  have month := dayNumber_lt_nextMonth valid
  have year := daysBeforeMonth_le d.year (show d.month + 1 ≤ 13 from Nat.succ_le_succ valid.month_le)
  rw [daysBeforeMonth_thirteen] at year
  rw [daysBeforeYear]
  omega

/-- The order of dates: by year, then month, then day. -/
def Before (d e : Date) : Prop :=
  d.year < e.year ∨
    (d.year = e.year ∧ (d.month < e.month ∨ (d.month = e.month ∧ d.day < e.day)))

theorem dayNumber_lt_of_before (validD : d.Valid) (before : Before d e) :
    d.dayNumber < e.dayNumber := by
  rcases before with year | ⟨year, month | ⟨month, day⟩⟩
  · have next := dayNumber_lt_nextYear validD
    have later := daysBeforeYear_le (show d.year + 1 ≤ e.year from year)
    show d.dayNumber < daysBeforeYear e.year + daysBeforeMonth e.year e.month + (e.day - 1)
    omega
  · have next := dayNumber_lt_nextMonth validD
    have later := daysBeforeMonth_le d.year (show d.month + 1 ≤ e.month from month)
    show d.dayNumber < daysBeforeYear e.year + daysBeforeMonth e.year e.month + (e.day - 1)
    rw [← year]
    omega
  · have first := validD.day_pos
    rw [dayNumber, dayNumber, year, month]
    omega

theorem before_trichotomy (d e : Date) : Before d e ∨ d = e ∨ Before e d := by
  rcases d with ⟨year, month, day⟩
  rcases e with ⟨year', month', day'⟩
  simp only [Before, mk.injEq]
  omega

theorem dayNumber_lt_iff (validD : d.Valid) (validE : e.Valid) :
    d.dayNumber < e.dayNumber ↔ Before d e := by
  refine ⟨fun less => ?_, dayNumber_lt_of_before validD⟩
  rcases before_trichotomy d e with before | rfl | after
  · exact before
  · exact absurd less (Nat.lt_irrefl _)
  · exact absurd (dayNumber_lt_of_before validE after) (Nat.lt_asymm less)

theorem dayNumber_injective (validD : d.Valid) (validE : e.Valid)
    (same : d.dayNumber = e.dayNumber) : d = e := by
  rcases before_trichotomy d e with before | rfl | after
  · exact absurd same (Nat.ne_of_lt (dayNumber_lt_of_before validD before))
  · rfl
  · exact absurd same.symm (Nat.ne_of_lt (dayNumber_lt_of_before validE after))

end Date

end Ministr.Theory.Calendar
