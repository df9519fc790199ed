import Mathlib.Data.Nat.Find
import Mathlib.Data.Int.Basic
import Mathlib.Tactic.IntervalCases

/-!
# The Gregorian calendar

Days are numbered from 1 January of the year 1, in both directions. A date of the
calendar is found for each number by guessing the year from its mean length, which is at
most one year too early, and by looking for the month from its end.

Months are counted from 0, as C does, and so are the days of the week, from Sunday.

## Main results

* `dayNumber_dateOf` - the date that is found has the number
* `sameDay_iff` - when a weekday, a day, a month and two digits of the year come again
-/

namespace Lmbench.Lib

def IsLeap (year : ℤ) : Prop := year % 4 = 0 ∧ (year % 100 ≠ 0 ∨ year % 400 = 0)

instance : DecidablePred IsLeap := fun _ => inferInstanceAs (Decidable (_ ∧ _))

def yearLength (year : ℤ) : ℕ := if IsLeap year then 366 else 365

def monthLength (year : ℤ) : ℕ → ℕ
  | 1 => if IsLeap year then 29 else 28
  | 3 | 5 | 8 | 10 => 30
  | _ => 31

/-- Days of the year before a month. -/
def daysBeforeMonth (year : ℤ) : ℕ → ℕ
  | 0 => 0
  | month + 1 => daysBeforeMonth year month + monthLength year month

/-- The number of 1 January. -/
def daysBeforeYear (year : ℤ) : ℤ :=
  365 * (year - 1) + (year - 1) / 4 - (year - 1) / 100 + (year - 1) / 400

/-- A day of the calendar. -/
structure Date where
  year : ℤ
  month : ℕ
  day : ℕ
  month_lt : month < 12
  day_pos : 0 < day
  day_le : day ≤ monthLength year month

def Date.dayNumber (d : Date) : ℤ :=
  daysBeforeYear d.year + daysBeforeMonth d.year d.month + (d.day - 1)

def weekday (n : ℤ) : ℕ := ((n + 1) % 7).toNat

theorem daysBeforeYear_succ (year : ℤ) :
    daysBeforeYear (year + 1) = daysBeforeYear year + yearLength year := by
  unfold daysBeforeYear yearLength
  by_cases leap : IsLeap year
  · rw [if_pos leap]
    unfold IsLeap at leap
    omega
  · rw [if_neg leap]
    unfold IsLeap at leap
    omega

theorem daysBeforeMonth_twelve (year : ℤ) : daysBeforeMonth year 12 = yearLength year := by
  unfold yearLength
  by_cases leap : IsLeap year <;> simp [daysBeforeMonth, monthLength, leap]

/-- A leap day counts from March on. -/
theorem daysBeforeMonth_eq (year : ℤ) {month : ℕ} (below : month < 12) :
    daysBeforeMonth year month =
      daysBeforeMonth 1 month + if 2 ≤ month ∧ IsLeap year then 1 else 0 := by
  have common : ¬ IsLeap 1 := by decide
  by_cases leap : IsLeap year <;> interval_cases month <;>
    simp [daysBeforeMonth, monthLength, leap, common]

/-! ### From a number to its date -/

/-- The year of a day: the mean year has 146097 days in 400. -/
def yearOf (n : ℤ) : ℤ :=
  let guess := 400 * n / 146097 + 1
  if n < daysBeforeYear (guess + 1) then guess else guess + 1

theorem yearOf_spec (n : ℤ) :
    daysBeforeYear (yearOf n) ≤ n ∧ n < daysBeforeYear (yearOf n + 1) := by
  rw [yearOf]
  by_cases early : n < daysBeforeYear (400 * n / 146097 + 1 + 1)
  · rw [if_pos early]
    refine ⟨?_, early⟩
    unfold daysBeforeYear
    omega
  · rw [if_neg early]
    refine ⟨Int.not_lt.mp early, ?_⟩
    unfold daysBeforeYear
    omega

/-- The day of the year, from 0. -/
def dayOfYear (n : ℤ) : ℕ := (n - daysBeforeYear (yearOf n)).toNat

/-- The month of a day of the year. -/
def monthOf (year : ℤ) (dayOfYear : ℕ) : ℕ :=
  Nat.findGreatest (fun month => daysBeforeMonth year month ≤ dayOfYear) 11

theorem daysBeforeYear_mono {year later : ℤ} (le : year ≤ later) :
    daysBeforeYear year ≤ daysBeforeYear later := by
  unfold daysBeforeYear
  omega

/-- A day is in no other year. -/
theorem yearOf_unique {n year : ℤ} (begun : daysBeforeYear year ≤ n)
    (still : n < daysBeforeYear (year + 1)) : yearOf n = year := by
  obtain ⟨lower, upper⟩ := yearOf_spec n
  rcases lt_trichotomy (yearOf n) year with before | same | after
  · have := daysBeforeYear_mono before
    omega
  · exact same
  · have := daysBeforeYear_mono after
    omega

theorem dayOfYear_lt (n : ℤ) : dayOfYear n < yearLength (yearOf n) := by
  obtain ⟨lower, upper⟩ := yearOf_spec n
  rw [daysBeforeYear_succ] at upper
  unfold dayOfYear
  omega

theorem daysBeforeYear_yearOf_add (n : ℤ) :
    daysBeforeYear (yearOf n) + dayOfYear n = n := by
  have lower := (yearOf_spec n).1
  unfold dayOfYear
  omega

theorem monthOf_lt (year : ℤ) (doy : ℕ) : monthOf year doy < 12 :=
  Nat.lt_succ_of_le (Nat.findGreatest_le 11)

theorem daysBeforeMonth_monthOf_le (year : ℤ) (doy : ℕ) :
    daysBeforeMonth year (monthOf year doy) ≤ doy :=
  Nat.findGreatest_spec (P := fun month => daysBeforeMonth year month ≤ doy) (Nat.zero_le 11)
    (Nat.zero_le doy)

/-- The month is not over. -/
theorem lt_daysBeforeMonth_monthOf_succ {year : ℤ} {doy : ℕ} (inside : doy < yearLength year) :
    doy < daysBeforeMonth year (monthOf year doy + 1) := by
  rcases Nat.lt_or_eq_of_le (Nat.lt_succ_iff.mp (monthOf_lt year doy)) with before | december
  · have notYet : ¬ daysBeforeMonth year (monthOf year doy + 1) ≤ doy :=
      Nat.findGreatest_is_greatest (P := fun month => daysBeforeMonth year month ≤ doy)
        (Nat.lt_succ_self _) before
    exact Nat.lt_of_not_le notYet
  · rwa [december, daysBeforeMonth_twelve]

/-- The date of a day. -/
def dateOf (n : ℤ) : Date where
  year := yearOf n
  month := monthOf (yearOf n) (dayOfYear n)
  day := dayOfYear n - daysBeforeMonth (yearOf n) (monthOf (yearOf n) (dayOfYear n)) + 1
  month_lt := monthOf_lt _ _
  day_pos := Nat.succ_pos _
  day_le := by
    have begun := daysBeforeMonth_monthOf_le (yearOf n) (dayOfYear n)
    have inside := lt_daysBeforeMonth_monthOf_succ (dayOfYear_lt n)
    simp only [daysBeforeMonth] at inside
    omega

/-- **The date is right.** -/
theorem dayNumber_dateOf (n : ℤ) : (dateOf n).dayNumber = n := by
  have whole := daysBeforeYear_yearOf_add n
  have month := daysBeforeMonth_monthOf_le (yearOf n) (dayOfYear n)
  simp only [Date.dayNumber, dateOf]
  omega

/-! ### When the calendar repeats itself -/

theorem isLeap_add (year k : ℤ) : IsLeap (year + 400 * k) ↔ IsLeap year := by
  unfold IsLeap
  omega

theorem daysBeforeYear_add (year k : ℤ) :
    daysBeforeYear (year + 400 * k) = daysBeforeYear year + 146097 * k := by
  unfold daysBeforeYear
  omega

theorem yearOf_add (n k : ℤ) : yearOf (n + 146097 * k) = yearOf n + 400 * k := by
  obtain ⟨lower, upper⟩ := yearOf_spec n
  refine yearOf_unique ?_ ?_
  · rw [daysBeforeYear_add]
    omega
  · rw [add_right_comm, daysBeforeYear_add]
    omega

theorem daysBeforeMonth_add (year k : ℤ) :
    daysBeforeMonth (year + 400 * k) = daysBeforeMonth year := by
  have same : ∀ month, monthLength (year + 400 * k) month = monthLength year month := by
    intro month
    unfold monthLength
    simp only [isLeap_add]
  funext month
  induction month with
  | zero => rfl
  | succ month ih => rw [daysBeforeMonth, daysBeforeMonth, ih, same]

theorem dayOfYear_add (n k : ℤ) : dayOfYear (n + 146097 * k) = dayOfYear n := by
  rw [dayOfYear, dayOfYear, yearOf_add, daysBeforeYear_add, add_sub_add_right_eq_sub]

/-- The number of the first day of a month. -/
def monthStart (year : ℤ) (month : ℕ) : ℤ := daysBeforeYear year + daysBeforeMonth year month

theorem monthStart_add (year k : ℤ) (month : ℕ) :
    monthStart (year + 400 * k) month = monthStart year month + 146097 * k := by
  rw [monthStart, monthStart, daysBeforeYear_add, daysBeforeMonth_add, add_right_comm]

/-- Centuries have 36524 days, but one in four has a day more. -/
theorem monthStart_century (year : ℤ) {b : ℤ} (positive : 0 < b) (few : b < 4) {month : ℕ}
    (below : month < 12) :
    ∃ extra, 0 ≤ extra ∧ extra ≤ 1 ∧
      monthStart (year + 100 * b) month = monthStart year month + 36524 * b + extra := by
  refine ⟨_, ?_, ?_, (add_sub_cancel _ _).symm⟩ <;>
  · unfold monthStart daysBeforeYear
    rw [daysBeforeMonth_eq year below, daysBeforeMonth_eq (year + 100 * b) below]
    unfold IsLeap
    split_ifs <;> omega

/-- What a date with two digits of its year and its weekday says. -/
def SameDay (n m : ℤ) : Prop :=
  weekday n = weekday m ∧ (dateOf n).day = (dateOf m).day ∧ (dateOf n).month = (dateOf m).month ∧
    (dateOf n).year % 100 = (dateOf m).year % 100

/-- **The repetition.** A hundred, two hundred or three hundred years shift the weekday. -/
theorem sameDay_iff (n m : ℤ) : SameDay n m ↔ 146097 ∣ m - n := by
  constructor
  · rintro ⟨weekdays, days, months, years⟩
    have number : monthStart _ _ + ((dateOf n).day - 1) = n := dayNumber_dateOf n
    have number' : monthStart _ _ + ((dateOf m).day - 1) = m := dayNumber_dateOf m
    obtain ⟨a, b, few, later⟩ : ∃ a b : ℤ, (0 ≤ b ∧ b < 4) ∧
        (dateOf m).year = (dateOf n).year + 100 * b + 400 * a :=
      ⟨((dateOf m).year - (dateOf n).year) / 100 / 4,
        ((dateOf m).year - (dateOf n).year) / 100 % 4, by omega, by omega⟩
    rw [later, monthStart_add, ← months, ← days] at number'
    -- `b` centuries beyond whole periods are no whole number of weeks, unless there are none
    rcases few.1.lt_or_eq with positive | rfl
    · obtain ⟨extra, nonneg, le_one, century⟩ :=
        monthStart_century (dateOf n).year positive few.2 (dateOf n).month_lt
      have shift : m - n = 7 * (20871 * a) + 36524 * b + extra := by omega
      have weeks : 7 ∣ m - n := by
        unfold weekday at weekdays
        omega
      exfalso
      obtain rfl | rfl | rfl : b = 1 ∨ b = 2 ∨ b = 3 := by omega
      all_goals omega
    · rw [mul_zero, add_zero] at number'
      exact ⟨a, by omega⟩
  · rintro ⟨k, difference⟩
    obtain rfl : m = n + 146097 * k := by omega
    refine ⟨?_, ?_, ?_, ?_⟩
    · unfold weekday
      congr 1
      omega
    · simp only [dateOf, yearOf_add, dayOfYear_add, monthOf, daysBeforeMonth_add]
    · simp only [dateOf, yearOf_add, dayOfYear_add, monthOf, daysBeforeMonth_add]
    · simp only [dateOf, yearOf_add]
      omega

end Lmbench.Lib
