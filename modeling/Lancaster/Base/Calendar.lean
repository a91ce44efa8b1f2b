import Mathlib.Data.Int.Basic

/-!
# The calendar

Dates of the Gregorian calendar, continued before its beginning, and their numbers from the first
day of the year 1 on.
-/

namespace Calendar

def leap (year : Int) : Bool := year % 4 == 0 && (year % 100 != 0 || year % 400 == 0)

def yearDays (leap : Bool) : Int := if leap then 366 else 365

/-- The days of a common year before a month, and before the next year. -/
def daysBefore : Nat → Int
  | 1 => 0
  | 2 => 31
  | 3 => 59
  | 4 => 90
  | 5 => 120
  | 6 => 151
  | 7 => 181
  | 8 => 212
  | 9 => 243
  | 10 => 273
  | 11 => 304
  | 12 => 334
  | 13 => 365
  | _ => 0

def daysBeforeMonth (leap : Bool) (month : Nat) : Int :=
  daysBefore month + if leap && 2 < month then 1 else 0

def daysBeforeYear (year : Int) : Int :=
  365 * (year - 1) + (year - 1) / 4 - (year - 1) / 100 + (year - 1) / 400

structure Date where
  year : Int
  month : Nat
  day : Int
  deriving DecidableEq

/-- A day that its month has. -/
def Date.Valid (d : Date) : Prop :=
  1 ≤ d.month ∧ d.month ≤ 12 ∧ 1 ≤ d.day ∧
    daysBeforeMonth (leap d.year) d.month + d.day ≤ daysBeforeMonth (leap d.year) (d.month + 1)

instance (d : Date) : Decidable d.Valid := inferInstanceAs (Decidable (_ ∧ _))

def Date.number (d : Date) : Int := daysBeforeYear d.year + daysBeforeMonth (leap d.year) d.month + d.day - 1

/-! ## The date of a day -/

/-- The last month up to a given one that begins by a day of the year, counted from zero. -/
def monthOf (leap : Bool) (day : Int) : Nat → Nat
  | 0 => 0
  | month + 1 => if daysBeforeMonth leap (month + 1) ≤ day then month + 1 else monthOf leap day month

/-- The year of a day, and its day of the year from zero: by periods of 400, 100, 4 and one year. -/
def yearOf (n : Int) : Int × Int :=
  let cycle := n / 146097
  let century := min 3 (n % 146097 / 36524)
  let inCentury := n % 146097 - 36524 * century
  let four := inCentury / 1461
  let one := min 3 (inCentury % 1461 / 365)
  (400 * cycle + 100 * century + 4 * four + one + 1, inCentury % 1461 - 365 * one)

def dateOf (n : Int) : Date :=
  let (year, day) := yearOf n
  let month := monthOf (leap year) day 12
  ⟨year, month, day - daysBeforeMonth (leap year) month + 1⟩

/-- The days before a year, by its periods. -/
theorem daysBeforeYear_periods {cycle century four one : Int} (hundreds : 0 ≤ century ∧ century ≤ 3)
    (fours : 0 ≤ four ∧ four ≤ 24) (ones : 0 ≤ one ∧ one ≤ 3) :
    daysBeforeYear (400 * cycle + 100 * century + 4 * four + one + 1) =
      146097 * cycle + 36524 * century + 1461 * four + 365 * one := by
  unfold daysBeforeYear
  omega

/-- The last year of a period of four is a leap year, unless it is the last of a century that is
not the last of its cycle. -/
theorem leap_last {cycle century four : Int} (fours : 0 ≤ four ∧ four ≤ 24)
    (last : four = 24 → century = 3) : leap (400 * cycle + 100 * century + 4 * four + 3 + 1) = true := by
  unfold leap
  simp only [Bool.and_eq_true, Bool.or_eq_true, beq_iff_eq, bne_iff_ne]
  omega

theorem year_day (cycle : Int) {inCycle century inCentury four inFour one inYear : Int}
    (low : 0 ≤ inCycle) (high : inCycle < 146097) (hcentury : century = min 3 (inCycle / 36524))
    (hinCentury : inCentury = inCycle - 36524 * century) (hfour : four = inCentury / 1461)
    (hinFour : inFour = inCentury % 1461) (hone : one = min 3 (inFour / 365))
    (hinYear : inYear = inFour - 365 * one) :
    daysBeforeYear (400 * cycle + 100 * century + 4 * four + one + 1) + inYear =
      146097 * cycle + inCycle ∧
      0 ≤ inYear ∧ inYear < yearDays (leap (400 * cycle + 100 * century + 4 * four + one + 1)) := by
  have hundreds : 0 ≤ century ∧ century ≤ 3 ∧ 0 ≤ inCentury ∧ inCentury ≤ 36524 ∧
      (inCentury = 36524 → century = 3) := by
    omega
  have fours : 0 ≤ four ∧ four ≤ 24 ∧ 0 ≤ inFour ∧ inFour ≤ 1460 ∧
    inCentury = 1461 * four + inFour := by
    omega
  have ones : 0 ≤ one ∧ one ≤ 3 ∧ 0 ≤ inYear ∧ inYear ≤ 365 ∧ (inYear = 365 → one = 3) := by
    omega
  clear hcentury hfour hinFour hone
  refine ⟨?_, ones.2.2.1, ?_⟩
  · rw [daysBeforeYear_periods ⟨hundreds.1, hundreds.2.1⟩ ⟨fours.1, fours.2.1⟩ ⟨ones.1, ones.2.1⟩]
    omega
  · unfold yearDays
    by_cases last : inYear = 365
    · have three := ones.2.2.2.2 last
      subst three
      have full : four = 24 → century = 3 := by omega
      rw [if_pos (leap_last ⟨fours.1, fours.2.1⟩ full)]
      omega
    · split <;> omega

/-- A day is in its year. -/
theorem yearOf_spec (n : Int) :
    daysBeforeYear (yearOf n).1 + (yearOf n).2 = n ∧ 0 ≤ (yearOf n).2 ∧
      (yearOf n).2 < yearDays (leap (yearOf n).1) := by
  have spec := year_day (n / 146097) (Int.emod_nonneg n (by decide)) (Int.emod_lt_of_pos n (by decide))
    rfl rfl rfl rfl rfl rfl
  rw [Int.mul_ediv_add_emod] at spec
  exact spec

theorem monthOf_spec {isLeap : Bool} {day : Int} (low : 0 ≤ day) {last : Nat}
    (high : day < daysBeforeMonth isLeap (last + 1)) :
    1 ≤ monthOf isLeap day last ∧ monthOf isLeap day last ≤ last ∧
      daysBeforeMonth isLeap (monthOf isLeap day last) ≤ day ∧
      day < daysBeforeMonth isLeap (monthOf isLeap day last + 1) := by
  induction last with
  | zero =>
    have nil : daysBeforeMonth isLeap 1 = 0 := by cases isLeap <;> rfl
    rw [Nat.zero_add, nil] at high
    omega
  | succ last ih =>
    rw [monthOf]
    split
    · rename_i begun
      exact ⟨Nat.succ_pos last, Nat.le_refl _, begun, high⟩
    · rename_i later
      obtain ⟨first, most, start, stop⟩ := ih (by omega)
      exact ⟨first, by omega, start, stop⟩

/-- The date of a day is in the calendar, and its number is that of the day. -/
theorem dateOf_spec (n : Int) : (dateOf n).Valid ∧ (dateOf n).number = n := by
  obtain ⟨whole, low, high⟩ := yearOf_spec n
  have year : yearDays (leap (yearOf n).1) = daysBeforeMonth (leap (yearOf n).1) 13 := by
    cases leap (yearOf n).1 <;> rfl
  rw [year] at high
  obtain ⟨first, last, start, stop⟩ := monthOf_spec low high
  unfold dateOf
  refine ⟨⟨first, last, ?_, ?_⟩, ?_⟩
  · dsimp only
    omega
  · dsimp only
    omega
  · unfold Date.number
    dsimp only
    omega

/-- No month has more than 31 days. -/
theorem month_days (isLeap : Bool) (month : Nat) (most : month ≤ 12) :
    daysBeforeMonth isLeap (month + 1) ≤ daysBeforeMonth isLeap month + 31 := by
  have all : ∀ isLeap, ∀ month ≤ 12, daysBeforeMonth isLeap (month + 1) ≤
    daysBeforeMonth isLeap month + 31 := by
    decide
  exact all isLeap month most

theorem Date.Valid.day_le {d : Date} (h : d.Valid) : d.day ≤ 31 := by
  obtain ⟨_, last, _, stop⟩ := h
  have := month_days (leap d.year) d.month last
  omega

/-- A day after the first 1000 years is in a year of at least four digits. -/
theorem dateOf_year {n : Int} (late : 366000 ≤ n) : 1000 ≤ (dateOf n).year := by
  obtain ⟨whole, _, high⟩ := yearOf_spec n
  have most : yearDays (leap (yearOf n).1) ≤ 366 := by
    unfold yearDays
    split <;> decide
  have year : (dateOf n).year = (yearOf n).1 := rfl
  rw [year]
  unfold daysBeforeYear at whole
  omega

end Calendar
