/-
# Mcp.Timestamp — the timestamps of tasks and sessions

`format_timestamp` turns a number of seconds since 1970 into a date by arithmetic on 400-year eras
of years that begin in March.  Its subtractions are on unsigned numbers; here they are checked.
For every year that four digits can write, none of them underflows, the date is the one whose day
number is that of the seconds, and the texts sort as the seconds do (`formatTimestamp_civil`).
-/
import Ministr.Theory.Calendar
import Ministr.Theory.FixedWidth
import Mathlib.Tactic.IntervalCases

namespace Ministr.Mcp.Timestamp

open Ministr.Theory Ministr.Theory.Calendar

set_option autoImplicit false

/-- A subtraction of unsigned numbers. -/
def checkedSub (a b : Nat) : Option Nat := if b ≤ a then some (a - b) else none

theorem checkedSub_eq {a b : Nat} (le : b ≤ a) : checkedSub a b = some (a - b) := if_pos le

structure CivilTime extends Date where
  hour : Nat
  minute : Nat
  second : Nat
  deriving DecidableEq, Repr

/-- `{year:04}-{month:02}-{day:02}T{hours:02}:{minutes:02}:{seconds:02}Z`. -/
def CivilTime.text (t : CivilTime) : List Char :=
  padded 4 t.year ++ '-' :: (padded 2 t.month ++ '-' :: (padded 2 t.day ++ 'T' ::
    (padded 2 t.hour ++ ':' :: (padded 2 t.minute ++ ':' :: (padded 2 t.second ++ ['Z'])))))

/-- The year of the era, the years beginning in March, that a day of the era is in. -/
def yearOfEra (dayOfEra : Nat) : Option Nat := do
  let n ← checkedSub dayOfEra (dayOfEra / (1461 - 1))
  let n ← checkedSub (n + dayOfEra / 36524) (dayOfEra / (146097 - 1))
  return n / 365

/-- The date with this many days since the first of March of the year 0. -/
def dateOfDays (days : Nat) : Option Date := do
  let era := days / 146097
  let dayOfEra := days % 146097
  let yearOfEra ← yearOfEra dayOfEra
  let year := yearOfEra + era * 400
  let before ← checkedSub (365 * yearOfEra + yearOfEra / 4) (yearOfEra / 100)
  let dayOfYear ← checkedSub dayOfEra before
  let mp := (5 * dayOfYear + 2) / 153
  let day ← checkedSub dayOfYear ((153 * mp + 2) / 5)
  let month ← if mp < 10 then some (mp + 3) else checkedSub mp 9
  return ⟨if month ≤ 2 then year + 1 else year, month, day + 1⟩

/-- `format_timestamp`; nothing where a subtraction underflows. -/
def formatTimestamp (secs : Nat) : Option (List Char) := do
  let timeOfDay := secs % 86400
  let date ← dateOfDays (secs / 86400 + 719468)
  return CivilTime.text
    { date with
      hour := timeOfDay / 3600
      minute := timeOfDay % 3600 / 60
      second := timeOfDay % 60 }

/-! ## Years that begin in March -/

/-- The days from the first of March of the year 0 to that of another year. -/
def marchStart (year : Nat) : Nat := 365 * year + year / 4 - year / 100 + year / 400

def leapDay (year : Nat) : Nat := if IsLeap year then 1 else 0

theorem daysBeforeYear_march (year : Nat) :
    daysBeforeYear year + leapDay year = marchStart year + 1 := by
  rw [daysBeforeYear_eq, marchStart, leapDay]
  by_cases leap : IsLeap year
  · rw [if_pos leap]
    obtain ⟨four, century⟩ := leap
    omega
  · rw [if_neg leap]
    rcases Nat.eq_zero_or_pos (year % 4) with four | uneven
    · -- the end of a century that has no leap day
      have century : year % 100 = 0 := by
        by_contra other
        exact leap ⟨four, Or.inl other⟩
      have common : year % 400 ≠ 0 := fun fourth => leap ⟨four, Or.inr fourth⟩
      have fours : (year + 3) / 4 = year / 4 := by omega
      have hundreds : (year + 99) / 100 = year / 100 := by omega
      have fourHundreds : (year + 399) / 400 = year / 400 + 1 := by omega
      have less : year / 100 ≤ 365 * year + year / 4 := by omega
      rw [fours, hundreds, fourHundreds]
      omega
    · have century : year % 100 ≠ 0 := by omega
      have fours : (year + 3) / 4 = year / 4 + 1 := by omega
      have hundreds : (year + 99) / 100 = year / 100 + 1 := by omega
      have fourHundreds : (year + 399) / 400 = year / 400 + 1 := by omega
      have less : year / 100 ≤ 365 * year + year / 4 := by omega
      rw [fours, hundreds, fourHundreds]
      omega

theorem daysBeforeYear_succ_march (year : Nat) : daysBeforeYear (year + 1) = marchStart year + 366 := by
  have march := daysBeforeYear_march year
  have length : yearLength year = 365 + leapDay year := by
    rw [yearLength, leapDay]
    split <;> rfl
  rw [daysBeforeYear, length]
  omega

theorem marchStart_succ (year : Nat) : marchStart (year + 1) = marchStart year + 365 + leapDay (year + 1) := by
  have march := daysBeforeYear_march (year + 1)
  rw [daysBeforeYear_succ_march] at march
  omega

theorem marchStart_era (year era : Nat) :
    marchStart (year + era * 400) = marchStart year + era * 146097 := by
  rw [marchStart, marchStart]
  omega

theorem leapDay_le (year : Nat) : leapDay year ≤ 1 := by
  rw [leapDay]
  split <;> decide

/-- The days of a common year, from March, before a month. -/
def monthStart (mp : Nat) : Nat := (153 * mp + 2) / 5

theorem daysBeforeMonth_march {mp : Nat} (inYear : mp < 10) (year : Nat) :
    daysBeforeMonth year (mp + 3) = monthStart mp + 59 + leapDay year := by
  rw [leapDay]
  by_cases leap : IsLeap year
  · rw [if_pos leap]
    interval_cases mp <;> simp [daysBeforeMonth, monthLength, monthStart, leap]
  · rw [if_neg leap]
    interval_cases mp <;> simp [daysBeforeMonth, monthLength, monthStart, leap]

theorem monthLength_march {mp : Nat} (inYear : mp < 10) (year : Nat) :
    monthStart (mp + 1) = monthStart mp + monthLength year (mp + 3) := by
  interval_cases mp <;> simp [monthLength, monthStart]

/-- The month that the code finds for a day of the year. -/
theorem monthStart_between : ∀ dayOfYear < 366,
    (5 * dayOfYear + 2) / 153 ≤ 11 ∧ monthStart ((5 * dayOfYear + 2) / 153) ≤ dayOfYear ∧
      dayOfYear < monthStart ((5 * dayOfYear + 2) / 153 + 1) := by
  decide +kernel

/-! ## The year of an era -/

def eraYear (dayOfEra : Nat) : Nat :=
  (dayOfEra - dayOfEra / 1460 + dayOfEra / 36524 - dayOfEra / 146096) / 365

theorem yearOfEra_eq {dayOfEra : Nat} (inEra : dayOfEra < 146097) :
    yearOfEra dayOfEra = some (eraYear dayOfEra) := by
  rw [yearOfEra, checkedSub_eq (by omega)]
  show (checkedSub (dayOfEra - dayOfEra / 1460 + dayOfEra / 36524) (dayOfEra / 146096)).bind _ = _
  rw [checkedSub_eq (by omega)]
  rfl

theorem eraYear_mono {first second : Nat} (le : first ≤ second) : eraYear first ≤ eraYear second := by
  refine Nat.div_le_div_right ?_
  induction le with
  | refl => exact Nat.le_refl _
  | @step n _ ih =>
      -- one day more, and a correction of one at the end of four, a hundred or four hundred years
      have four : (n + 1) / 1460 ≤ n / 1460 + 1 := by omega
      have hundred : n / 36524 ≤ (n + 1) / 36524 ∧ (n + 1) / 36524 ≤ n / 36524 + 1 := by omega
      have centuries : ∀ m, m / 146096 = m / 36524 / 4 := fun m => by rw [Nat.div_div_eq_div_mul]
      have both : (n + 1) / 146096 + n / 36524 ≤ n / 146096 + (n + 1) / 36524 := by
        rw [centuries, centuries]
        omega
      have fewer : n / 1460 ≤ n ∧ n / 146096 ≤ n / 36524 := by
        rw [centuries]
        omega
      generalize (n + 1) / 1460 = a, n / 1460 = b, (n + 1) / 146096 = c, n / 146096 = d,
        (n + 1) / 36524 = e, n / 36524 = f at *
      omega

theorem eraYear_marchStart : ∀ year < 400,
    eraYear (marchStart year) = year ∧ eraYear (marchStart (year + 1) - 1) = year := by
  decide +kernel

theorem exists_between {s : Nat → Nat} (zero : s 0 = 0) {n last : Nat} (below : n < s last) :
    ∃ year < last, s year ≤ n ∧ n < s (year + 1) := by
  induction last with
  | zero =>
      rw [zero] at below
      cases below
  | succ last ih =>
      rcases Nat.lt_or_ge n (s last) with earlier | later
      · obtain ⟨year, less, between⟩ := ih earlier
        exact ⟨year, Nat.lt_succ_of_lt less, between⟩
      · exact ⟨last, Nat.lt_succ_self _, later, below⟩

theorem eraYear_spec {dayOfEra : Nat} (inEra : dayOfEra < 146097) :
    eraYear dayOfEra < 400 ∧ marchStart (eraYear dayOfEra) ≤ dayOfEra ∧
      dayOfEra < marchStart (eraYear dayOfEra + 1) := by
  obtain ⟨year, less, start, next⟩ := exists_between (show marchStart 0 = 0 from rfl)
    (show dayOfEra < marchStart 400 from inEra)
  obtain ⟨first, last⟩ := eraYear_marchStart year less
  have same : eraYear dayOfEra = year := by
    have low := eraYear_mono start
    have high := eraYear_mono (Nat.le_sub_one_of_lt next)
    omega
  rw [same]
  exact ⟨less, start, next⟩

/-! ## Dates -/

/-- No subtraction underflows, and the date is the one with the number of the day. -/
theorem dateOfDays_spec (days : Nat) :
    ∃ d : Date, dateOfDays days = some d ∧ d.Valid ∧ d.dayNumber = days + 60 := by
  obtain ⟨less, start, next⟩ := eraYear_spec (Nat.mod_lt days (show 0 < 146097 by decide))
  generalize year_eq : eraYear (days % 146097) = year at less start next
  have whole := Nat.div_add_mod days 146097
  have start_eq : marchStart year = 365 * year + year / 4 - year / 100 := by
    rw [marchStart, Nat.div_eq_of_lt less, Nat.add_zero]
  obtain ⟨dayOfYear, day_eq⟩ := Nat.exists_eq_add_of_le start
  -- the same year, counted over all eras
  have era := marchStart_era year (days / 146097)
  have nextEra := marchStart_era (year + 1) (days / 146097)
  rw [Nat.add_right_comm] at nextEra
  generalize march : year + days / 146097 * 400 = marchYear at era nextEra
  have length := marchStart_succ marchYear
  have leap := leapDay_le (marchYear + 1)
  have short : dayOfYear < 365 + leapDay (marchYear + 1) := by omega
  obtain ⟨month_le, month_start, month_next⟩ := monthStart_between dayOfYear (by omega)
  have yearFound : yearOfEra (days % 146097) = some year := by
    rw [yearOfEra_eq (Nat.mod_lt days (by decide)), year_eq]
  have before : checkedSub (365 * year + year / 4) (year / 100) = some (marchStart year) := by
    rw [checkedSub_eq (by omega), start_eq]
  have dayFound : checkedSub (days % 146097) (marchStart year) = some dayOfYear := by
    rw [checkedSub_eq start, day_eq, Nat.add_sub_cancel_left]
  generalize mp_eq : (5 * dayOfYear + 2) / 153 = mp at month_le month_start month_next
  have inMonth : checkedSub dayOfYear ((153 * mp + 2) / 5) = some (dayOfYear - monthStart mp) :=
    checkedSub_eq month_start
  have found : dateOfDays days = (if mp < 10 then some (mp + 3) else checkedSub mp 9).map
      fun month => ⟨if month ≤ 2 then marchYear + 1 else marchYear, month,
        dayOfYear - monthStart mp + 1⟩ := by
    simp only [dateOfDays, yearFound, before, dayFound, mp_eq, inMonth, march, Option.bind_eq_bind,
      Option.bind_some, Option.pure_def]
    by_cases sameYear : mp < 10
    · rw [if_pos sameYear, if_pos sameYear]
      rfl
    · rw [if_neg sameYear, if_neg sameYear]
      cases checkedSub mp 9 <;> rfl
  have here := daysBeforeYear_march marchYear
  have after := daysBeforeYear_succ_march marchYear
  rcases Nat.lt_or_ge mp 10 with sameYear | nextYear
  · -- March to December
    have past : ¬ mp + 3 ≤ 2 := by omega
    rw [if_pos sameYear, Option.map_some, if_neg past] at found
    have months := daysBeforeMonth_march sameYear marchYear
    have monthLength_eq := monthLength_march sameYear marchYear
    refine ⟨_, found, ⟨by simp, by simp; omega, by simp, ?_⟩, ?_⟩
    · show dayOfYear - monthStart mp + 1 ≤ monthLength marchYear (mp + 3)
      omega
    · show daysBeforeYear marchYear + daysBeforeMonth marchYear (mp + 3) +
        (dayOfYear - monthStart mp + 1 - 1) = days + 60
      omega
  · rw [if_neg (Nat.not_lt.mpr nextYear), checkedSub_eq (Nat.le_trans (by decide) nextYear)] at found
    obtain rfl | rfl : mp = 10 ∨ mp = 11 := by omega
    · -- January
      have found : dateOfDays days = some ⟨marchYear + 1, 1, dayOfYear - monthStart 10 + 1⟩ := found
      have start306 : monthStart 10 = 306 := rfl
      have start337 : monthStart (10 + 1) = 337 := rfl
      refine ⟨_, found, ⟨Nat.le_refl 1, show 1 ≤ 12 by decide, Nat.le_add_left 1 _, ?_⟩, ?_⟩
      · show dayOfYear - monthStart 10 + 1 ≤ 31
        omega
      · show daysBeforeYear (marchYear + 1) + 0 + (dayOfYear - monthStart 10 + 1 - 1) = days + 60
        omega
    · -- February
      have found : dateOfDays days = some ⟨marchYear + 1, 2, dayOfYear - monthStart 11 + 1⟩ := found
      have start337 : monthStart 11 = 337 := rfl
      refine ⟨_, found, ⟨show 1 ≤ 2 by decide, show 2 ≤ 12 by decide, Nat.le_add_left 1 _, ?_⟩, ?_⟩
      · show dayOfYear - monthStart 11 + 1 ≤ if IsLeap (marchYear + 1) then 29 else 28
        rw [leapDay] at short
        by_cases leap : IsLeap (marchYear + 1)
        · rw [if_pos leap] at short ⊢
          omega
        · rw [if_neg leap] at short ⊢
          omega
      · show daysBeforeYear (marchYear + 1) + (0 + 31) + (dayOfYear - monthStart 11 + 1 - 1) =
          days + 60
        omega

/-! ## Texts -/

theorem monthLength_le (year month : Nat) : monthLength year month ≤ 31 := by
  unfold monthLength
  split
  · split <;> decide
  all_goals decide

namespace CivilTime

/-- The fields of a clock. -/
structure OnClock (t : CivilTime) : Prop where
  hour : t.hour < 24
  minute : t.minute < 60
  second : t.second < 60

variable {t u : CivilTime}

theorem field_lt_iff {width m n : Nat} (positive : 0 < width) (fits : m < 10 ^ width)
    (fits' : n < 10 ^ width) (c : Char) (back back' : List Char) :
    padded width m ++ c :: back < padded width n ++ c :: back' ↔
      m < n ∨ (m = n ∧ back < back') := by
  have lengths : (padded width m).length = (padded width n).length := by
    rw [length_padded positive fits, length_padded positive fits']
  have same : padded width m = padded width n ↔ m = n :=
    ⟨padded_inj positive fits fits', fun same => by rw [same]⟩
  have cons : c :: back < c :: back' ↔ back < back' := by
    rw [List.cons_lt_cons_iff]
    simp
  rw [append_lt_append_iff lengths, padded_lt_iff positive fits fits', same, cons]

/-- The texts sort by year, month, day, hour, minute and second. -/
theorem text_lt_iff (validT : t.toDate.Valid) (validU : u.toDate.Valid) (clockT : t.OnClock)
    (clockU : u.OnClock) (yearT : t.year < 10000) (yearU : u.year < 10000) :
    t.text < u.text ↔
      t.toDate.Before u.toDate ∨ (t.toDate = u.toDate ∧
        (t.hour < u.hour ∨ (t.hour = u.hour ∧ (t.minute < u.minute ∨
          (t.minute = u.minute ∧ t.second < u.second))))) := by
  have day31 : ∀ d : Date, d.Valid → d.day < 10 ^ 2 := by
    intro d valid
    have le := valid.day_le
    have length := monthLength_le d.year d.month
    omega
  have monthT := validT.month_le
  have monthU := validU.month_le
  have dayT := day31 _ validT
  have dayU := day31 _ validU
  have last : ∀ m n : Nat, m < 60 → n < 60 → (padded 2 m ++ ['Z'] < padded 2 n ++ ['Z'] ↔ m < n) := by
    intro m n lessM lessN
    rw [field_lt_iff (by decide) (by omega) (by omega)]
    simp
  have ⟨hourT, minuteT, secondT⟩ := clockT
  have ⟨hourU, minuteU, secondU⟩ := clockU
  rw [text, text, field_lt_iff (by decide) (by omega) (by omega),
    field_lt_iff (by decide) (by omega) (by omega), field_lt_iff (by decide) (by omega) (by omega),
    field_lt_iff (by decide) (by omega) (by omega), field_lt_iff (by decide) (by omega) (by omega),
    last _ _ secondT secondU]
  rcases t with ⟨⟨year, month, day⟩, hour, minute, second⟩
  rcases u with ⟨⟨year', month', day'⟩, hour', minute', second'⟩
  simp only [Date.Before, Date.mk.injEq, and_or_left, or_assoc, and_assoc]

end CivilTime

/-! ## Timestamps -/

/-- The first of January 1970. -/
def epoch : Date := ⟨1970, 1, 1⟩

/-- The year of the moment can be written with four digits. -/
def FourDigitYear (secs : Nat) : Prop :=
  epoch.dayNumber + secs / 86400 < Date.dayNumber ⟨10000, 1, 1⟩

/-- The date and time of a moment: the day with its number, and the time within the day. -/
structure CivilTime.IsAt (t : CivilTime) (secs : Nat) : Prop where
  valid : t.toDate.Valid
  clock : t.OnClock
  day : t.toDate.dayNumber = epoch.dayNumber + secs / 86400
  time : t.hour * 3600 + t.minute * 60 + t.second = secs % 86400

theorem CivilTime.IsAt.unique {t u : CivilTime} {secs : Nat} (atT : t.IsAt secs)
    (atU : u.IsAt secs) : t = u := by
  have date := Date.dayNumber_injective atT.valid atU.valid (atT.day.trans atU.day.symm)
  have time := atT.time.trans atU.time.symm
  obtain ⟨hourT, minuteT, secondT⟩ := atT.clock
  obtain ⟨hourU, minuteU, secondU⟩ := atU.clock
  rcases t with ⟨dateT, hour, minute, second⟩
  rcases u with ⟨dateU, hour', minute', second'⟩
  have hours : hour = hour' := by
    simp only at time hourT minuteT secondT hourU minuteU secondU
    omega
  have minutes : minute = minute' := by
    simp only at time hourT minuteT secondT hourU minuteU secondU
    omega
  have seconds : second = second' := by
    simp only at time hourT minuteT secondT hourU minuteU secondU
    omega
  have dates : dateT = dateU := date
  rw [hours, minutes, seconds, dates]

theorem CivilTime.IsAt.year_lt {t : CivilTime} {secs : Nat} (atT : t.IsAt secs)
    (four : FourDigitYear secs) : t.year < 10000 := by
  rw [FourDigitYear, ← atT.day] at four
  have millennium : Date.Valid ⟨10000, 1, 1⟩ := ⟨by decide, by decide, by decide, by decide⟩
  have before := (Date.dayNumber_lt_iff atT.valid millennium).mp four
  have month := atT.valid.month_pos
  have day := atT.valid.day_pos
  simp only [Date.Before] at before
  omega

theorem formatTimestamp_isAt (secs : Nat) :
    ∃ t : CivilTime, formatTimestamp secs = some t.text ∧ t.IsAt secs := by
  obtain ⟨d, found, valid, number⟩ := dateOfDays_spec (secs / 86400 + 719468)
  refine ⟨⟨d, secs % 86400 / 3600, secs % 86400 % 3600 / 60, secs % 86400 % 60⟩, ?_, valid,
    ⟨?_, ?_, ?_⟩, ?_, ?_⟩
  · rw [formatTimestamp, found]
    rfl
  · show secs % 86400 / 3600 < 24
    omega
  · show secs % 86400 % 3600 / 60 < 60
    omega
  · show secs % 86400 % 60 < 60
    omega
  · have start : epoch.dayNumber = 719528 := by decide +kernel
    show d.dayNumber = epoch.dayNumber + secs / 86400
    omega
  · show secs % 86400 / 3600 * 3600 + secs % 86400 % 3600 / 60 * 60 + secs % 86400 % 60 = _
    omega

/-- No clock makes a subtraction underflow. -/
theorem formatTimestamp_isSome (secs : Nat) : (formatTimestamp secs).isSome := by
  obtain ⟨t, found, -⟩ := formatTimestamp_isAt secs
  rw [found]
  rfl

theorem CivilTime.IsAt.text_lt {t u : CivilTime} {first second : Nat} (atT : t.IsAt first)
    (atU : u.IsAt second) (four : FourDigitYear second) (less : first < second) : t.text < u.text := by
  have days : first / 86400 ≤ second / 86400 := Nat.div_le_div_right (Nat.le_of_lt less)
  have fourT : FourDigitYear first := Nat.lt_of_le_of_lt (Nat.add_le_add_left days _) four
  rw [CivilTime.text_lt_iff atT.valid atU.valid atT.clock atU.clock (atT.year_lt fourT)
    (atU.year_lt four)]
  rcases Nat.lt_or_ge (first / 86400) (second / 86400) with earlier | sameDay
  · left
    rw [← Date.dayNumber_lt_iff atT.valid atU.valid, atT.day, atU.day]
    omega
  · right
    have same : first / 86400 = second / 86400 := Nat.le_antisymm days sameDay
    refine ⟨Date.dayNumber_injective atT.valid atU.valid ?_, ?_⟩
    · rw [atT.day, atU.day, same]
    · have timeT := atT.time
      have timeU := atU.time
      obtain ⟨hourT, minuteT, secondT⟩ := atT.clock
      obtain ⟨hourU, minuteU, secondU⟩ := atU.clock
      have rest : first % 86400 < second % 86400 := by omega
      omega

/-- **A timestamp is the date and time of its moment, and timestamps sort as their moments.** -/
theorem formatTimestamp_civil :
    (∀ secs, FourDigitYear secs →
      ∃ t : CivilTime, formatTimestamp secs = some t.text ∧ t.IsAt secs ∧ t.year < 10000 ∧
        ∀ u : CivilTime, u.IsAt secs → u = t) ∧
    ∀ first second, first < second → FourDigitYear second →
      ∃ a b, formatTimestamp first = some a ∧ formatTimestamp second = some b ∧ a < b := by
  constructor
  · intro secs four
    obtain ⟨t, found, at_⟩ := formatTimestamp_isAt secs
    exact ⟨t, found, at_, at_.year_lt four, fun u other => other.unique at_⟩
  · intro first second less four
    obtain ⟨t, found, atT⟩ := formatTimestamp_isAt first
    obtain ⟨u, found', atU⟩ := formatTimestamp_isAt second
    exact ⟨t.text, u.text, found, found', atT.text_lt atU four less⟩

/-- New Year's Day of 2025, and the second before it. -/
theorem formatTimestamp_newYear :
    (∃ t : CivilTime, formatTimestamp 1735689600 = some t.text ∧ t.IsAt 1735689600 ∧ t.year < 10000 ∧
      ∀ u : CivilTime, u.IsAt 1735689600 → u = t) ∧
    formatTimestamp 1735689600 = some "2025-01-01T00:00:00Z".toList ∧
    ∃ a b, formatTimestamp 1735689599 = some a ∧ formatTimestamp 1735689600 = some b ∧ a < b := by
  have four : FourDigitYear 1735689600 := by
    rw [FourDigitYear]
    decide +kernel
  exact ⟨formatTimestamp_civil.1 _ four, by decide,
    formatTimestamp_civil.2 1735689599 1735689600 (by decide) four⟩

end Ministr.Mcp.Timestamp
