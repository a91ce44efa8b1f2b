import Mathlib.Algebra.Order.Field.Basic
import Mathlib.Algebra.Order.Field.Rat
import Mathlib.Tactic.FieldSimp
import Mathlib.Tactic.Linarith
import Lancaster.Base.Calendar
import Lancaster.Base.Decimal
import Lancaster.StorageCreate

/-!
# Timestamps

`clock_get_text` prints the whole seconds of a time as a date in the local zone, the rest of it as a
fraction that is rounded for itself and loses its leading digit, and the hours of the offset that
the zone has at that time. The text is read back as a date and time of ISO 8601.
-/

namespace Lancaster

open Text Calendar Decimal

/-- A local zone: the offset that holds at each time, both in seconds, of at most 24 hours, 59
minutes and 59 seconds. -/
structure Zone where
  gmtoff : Int → Int
  gmtoff_low : ∀ t, -90000 < gmtoff t
  gmtoff_high : ∀ t, gmtoff t < 90000

structure Tm where
  date : Date
  hour : Nat
  min : Nat
  sec : Nat
  gmtoff : Int

def epochDay : Int := 719162

def localtime (zone : Zone) (t : Int) : Tm where
  date := dateOf ((t + zone.gmtoff t) / 86400 + epochDay)
  hour := ((t + zone.gmtoff t) % 86400 / 3600).toNat
  min := ((t + zone.gmtoff t) % 3600 / 60).toNat
  sec := ((t + zone.gmtoff t) % 60).toNat
  gmtoff := zone.gmtoff t

/-- `%Y-%m-%dT%H:%M:%S`. -/
def strftime (tm : Tm) : List UInt8 :=
  decimal tm.date.year.toNat ++ 45 :: (padded 2 tm.date.month ++ 45 :: (padded 2 tm.date.day.toNat ++
    84 :: (padded 2 tm.hour ++ 58 :: (padded 2 tm.min ++ 58 :: padded 2 tm.sec))))

/-- `%+03ld:00`. -/
def zoneText (hours : Int) : List UInt8 :=
    (if hours < 0 then 45 else 43) :: (padded 2 hours.natAbs ++ [58, 48, 48])

/-- The digits of `%.*f` for a fraction of a second, without the point. -/
def rounded (precision usec : Nat) : Nat := roundEven (usec % 1000000 * 10 ^ precision) 1000000

/-- `%.*f%+03ld:00`. -/
def fractText (tm : Tm) (usec precision : Nat) : List UInt8 :=
  decimal (rounded precision usec / 10 ^ precision) ++
    ((if precision = 0 then [] else 46 :: padded precision (rounded precision usec)) ++
      zoneText (tm.gmtoff.tdiv 3600))

/-- What a call comes to: a text, a failing status, or writing past the end of a buffer. -/
inductive ClockText where
  | text (bs : List UInt8)
  | failed (st : Int)
  | overrun

def clockGetText (zone : Zone) (usec precision textSz : Nat) : ClockText :=
  if textSz = 0 then .failed Status.invalidArg
  else
    let tm := localtime zone (usec / 1000000 : Nat)
    let date := strftime tm
    let fract := fractText tm usec precision
    -- in a shorter buffer the limit wraps around, and is none
    if precision + 7 ≤ textSz ∧ textSz - precision - 7 ≤
      date.length then .failed Status.bufferTooSmall
    else if 32 ≤ fract.length ∨ textSz ≤ (date ++ fract.drop 1).length then .overrun
    else .text (date ++ fract.drop 1)

/-! ## Reading a date and time -/

structure Stamp where
  date : Date
  hour : Nat
  min : Nat
  sec : Nat
  digits : List UInt8
  zoneNeg : Bool
  zoneHour : Nat
  zoneMin : Nat

/-- The time since the beginning of 1970, in seconds. -/
def Stamp.instant (s : Stamp) : ℚ :=
  let zone : Int := 3600 * s.zoneHour + 60 * s.zoneMin
  let whole : Int := 86400 * (s.date.number - epochDay) + 3600 * s.hour + 60 * s.min + s.sec -
    if s.zoneNeg then -zone else zone
  whole + valueOf s.digits / 10 ^ s.digits.length

def expect (b : UInt8) : List UInt8 → Option (List UInt8)
  | [] => none
  | b' :: s => if b' = b then some s else none

def readTwo : List UInt8 → Option (Nat × List UInt8)
  | a :: b :: s => if isDigit a && isDigit b then some (valueOf [a, b], s) else none
  | _ => none

def readFraction : List UInt8 → Option (List UInt8 × List UInt8)
  | 46 :: s => if s.takeWhile isDigit = [] then none else some (s.takeWhile isDigit, s.dropWhile isDigit)
  | s => some ([], s)

def readSign : List UInt8 → Option (Bool × List UInt8)
  | [] => none
  | b :: s => if b = 43 then some (false, s) else if b = 45 then some (true, s) else none

/-- A date with at least four digits of the year. -/
def readDate (s : List UInt8) : Option (Date × List UInt8) := do
  let year := s.takeWhile isDigit
  let s ← expect 45 (s.dropWhile isDigit)
  let (month, s) ← readTwo s
  let s ← expect 45 s
  let (day, s) ← readTwo s
  let date : Date := ⟨valueOf year, month, day⟩
  if 4 ≤ year.length ∧ date.Valid then some (date, s) else none

def readTime (s : List UInt8) : Option ((Nat × Nat × Nat) × List UInt8) := do
  let (hour, s) ← readTwo s
  let s ← expect 58 s
  let (min, s) ← readTwo s
  let s ← expect 58 s
  let (sec, s) ← readTwo s
  if hour < 24 ∧ min < 60 ∧ sec < 60 then some ((hour, min, sec), s) else none

/-- The zone, at the end of the text. -/
def readZone (s : List UInt8) : Option (Bool × Nat × Nat) := do
  let (neg, s) ← readSign s
  let (hour, s) ← readTwo s
  let s ← expect 58 s
  let (min, s) ← readTwo s
  if min < 60 ∧ s = [] then some (neg, hour, min) else none

def readStamp (s : List UInt8) : Option Stamp := do
  let (date, s) ← readDate s
  let s ← expect 84 s
  let ((hour, min, sec), s) ← readTime s
  let (digits, s) ← readFraction s
  let (zoneNeg, zoneHour, zoneMin) ← readZone s
  some ⟨date, hour, min, sec, digits, zoneNeg, zoneHour, zoneMin⟩

/-! ## The text is read back -/

theorem expect_cons (b : UInt8) (s : List UInt8) : expect b (b :: s) = some s := by
  rw [expect, if_pos rfl]

theorem readTwo_padded {n : Nat} (small : n < 100) (s : List UInt8) :
    readTwo (padded 2 n ++ s) = some (n, s) := by
  have value := valueOf_padded 2 n
  rw [Nat.mod_eq_of_lt (show n < 10 ^ 2 by omega)] at value
  have tens := isDigit_digit (n / 10)
  have ones := isDigit_digit n
  simp only [padded, List.nil_append, List.cons_append] at value ⊢
  rw [readTwo, tens, ones, value]
  rfl

def fractionText (digits : List UInt8) : List UInt8 := if digits = [] then [] else 46 :: digits

theorem readFraction_text {digits s : List UInt8} (all : ∀ b ∈ digits, isDigit b = true)
    (stop : ∀ b ∈ s.head?, isDigit b = false ∧ b ≠ 46) :
    readFraction (fractionText digits ++ s) = some (digits, s) := by
  have ended : ∀ b ∈ s.head?, isDigit b = false := fun b here => (stop b here).1
  unfold fractionText
  split
  · rename_i empty
    subst empty
    rw [List.nil_append, readFraction]
    rintro rest rfl
    exact (stop 46 rfl).2 rfl
  · rename_i nonempty
    rw [List.cons_append, readFraction, takeWhile_ended all ended, dropWhile_ended all ended,
      if_neg nonempty]

theorem readSign_sign (neg : Bool) (s : List UInt8) :
    readSign ((if neg then 45 else 43) :: s) = some (neg, s) := by
  cases neg <;> rfl

def dateText (date : Date) : List UInt8 :=
  decimal date.year.toNat ++ 45 :: (padded 2 date.month ++ 45 :: padded 2 date.day.toNat)

theorem readDate_text {date : Date} (valid : date.Valid) (year : 1000 ≤ date.year)
    (s : List UInt8) :
    readDate (dateText date ++ s) = some (date, s) := by
  obtain ⟨first, last, pos, _⟩ := id valid
  have most := valid.day_le
  have dash : ∀ s : List UInt8, ∀ b ∈ (45 :: s).head?, isDigit b = false := by
    rintro s b ⟨⟩
    rfl
  have long : 4 ≤ (decimal date.year.toNat).length := by
    by_contra short
    have := (length_decimal_le (n := date.year.toNat) (show 0 < 3 by decide)).mp (by omega)
    omega
  have same : (⟨valueOf (decimal date.year.toNat), date.month, date.day.toNat⟩ : Date) = date := by
    rw [valueOf_decimal, Int.toNat_of_nonneg (by omega), Int.toNat_of_nonneg (by omega)]
  unfold readDate dateText
  simp only [List.append_assoc, List.cons_append, takeWhile_ended (decimal_digits _) (dash _),
    dropWhile_ended (decimal_digits _) (dash _), expect_cons, Option.bind_eq_bind, Option.bind_some,
    readTwo_padded (show date.month < 100 by omega),
    readTwo_padded (show date.day.toNat < 100 by omega), same]
  rw [if_pos ⟨long, valid⟩]

theorem readTime_text {hour min sec : Nat} (hour_lt : hour < 24) (min_lt : min < 60)
    (sec_lt : sec < 60) (s : List UInt8) :
    readTime (padded 2 hour ++ 58 :: (padded 2 min ++ 58 :: (padded 2 sec ++ s))) =
      some ((hour, min, sec), s) := by
  unfold readTime
  simp only [expect_cons, Option.bind_eq_bind, Option.bind_some,
    readTwo_padded (show hour < 100 by omega),
    readTwo_padded (show min < 100 by omega), readTwo_padded (show sec < 100 by omega)]
  rw [if_pos ⟨hour_lt, min_lt, sec_lt⟩]

theorem readZone_text {hours : Int} (small : hours.natAbs < 100) :
    readZone (zoneText hours) = some (decide (hours < 0), hours.natAbs, 0) := by
  have sign := readSign_sign (decide (hours < 0)) (padded 2 hours.natAbs ++ [58, 48, 48])
  simp only [decide_eq_true_eq] at sign
  unfold readZone zoneText
  simp only [sign, Option.bind_eq_bind, Option.bind_some, readTwo_padded small, expect_cons]
  rfl

/-- What was printed is read as it was. -/
theorem readStamp_text {date : Date} {hour min sec : Nat} {digits : List UInt8} {hours : Int}
    (valid : date.Valid) (year : 1000 ≤ date.year) (hour_lt : hour < 24) (min_lt : min < 60)
    (sec_lt : sec < 60) (all : ∀ b ∈ digits, isDigit b = true) (small : hours.natAbs < 100) :
    readStamp (dateText date ++ 84 :: (padded 2 hour ++ 58 :: (padded 2 min ++ 58 :: (padded 2 sec ++
      (fractionText digits ++ zoneText hours))))) =
      some ⟨date, hour, min, sec, digits, decide (hours < 0), hours.natAbs, 0⟩ := by
  have stop : ∀ b ∈ (zoneText hours).head?, isDigit b = false ∧ b ≠ 46 := by
    rintro b ⟨⟩
    split <;> decide
  unfold readStamp
  simp only [readDate_text valid year, expect_cons, Option.bind_eq_bind, Option.bind_some,
    readTime_text hour_lt min_lt sec_lt, readFraction_text all stop, readZone_text small]

/-! ## The instant of the text -/

section Instant

variable (zone : Zone) (usec precision : Nat)

theorem rounded_le : rounded precision usec ≤ 10 ^ precision := by
  apply roundEven_le (by decide)
  rw [Nat.mul_comm]
  exact Nat.mul_le_mul_left _ (by omega)

/-- The text of the fraction and the zone, without the leading digit. -/
theorem drop_fractText (tm : Tm) :
    (fractText tm usec precision).drop 1 =
      fractionText (padded precision (rounded precision usec)) ++ zoneText (tm.gmtoff.tdiv 3600) := by
  have one : (decimal (rounded precision usec / 10 ^ precision)).length = 1 := by
    have most : rounded precision usec / 10 ^ precision ≤ 1 :=
      Nat.div_le_of_le_mul (by rw [Nat.mul_one]; exact rounded_le usec precision)
    have short := (length_decimal_le (n := rounded precision usec / 10 ^ precision) Nat.one_pos).mpr
      (by omega)
    have nonempty := List.length_pos_iff.mpr (decimal_ne_nil (rounded precision usec / 10 ^ precision))
    omega
  have fraction : fractionText (padded precision (rounded precision usec)) =
      if precision = 0 then [] else 46 :: padded precision (rounded precision usec) := by
    unfold fractionText
    cases precision with
    | zero => rfl
    | succ p =>
      rw [if_neg (padded_succ_ne_nil p _), if_neg (Nat.succ_ne_zero p)]
  unfold fractText
  rw [List.drop_append, one, List.drop_of_length_le (by omega), fraction]
  rfl

/-- The seconds by which the offset at a time differs from the hours that are printed. -/
def Zone.rest (t : Int) : Int := zone.gmtoff t - 3600 * (zone.gmtoff t).tdiv 3600

/-- The days, hours, minutes and seconds of a time. -/
theorem seconds_of_clock (x : Int) :
    86400 * (x / 86400) + 3600 * ((x % 86400 / 3600).toNat : Int) + 60 * ((x % 3600 / 60).toNat : Int) +
      ((x % 60).toNat : Int) = x := by
  rw [Int.toNat_of_nonneg (by omega), Int.toNat_of_nonneg (by omega), Int.toNat_of_nonneg (by omega)]
  omega

/-- A sign and an absolute value. -/
theorem signed_seconds (hours : Int) :
    (if hours < 0 then -(3600 * (hours.natAbs : Int) + 60 * ((0 : Nat) : Int))
      else 3600 * (hours.natAbs : Int) + 60 * ((0 : Nat) : Int)) = 3600 * hours := by
  split <;> omega

/-- The text of a whole second with any fraction, read as a date and time: the seconds of the zone
are added that are not printed. -/
theorem readStamp_local {t : Int} (nonneg : 0 ≤ t) {digits : List UInt8}
    (all : ∀ b ∈ digits, isDigit b = true) :
    ∃ stamp, readStamp (strftime (localtime zone t) ++ (fractionText digits ++
        zoneText ((localtime zone t).gmtoff.tdiv 3600))) = some stamp ∧
      stamp.instant = ((t + zone.rest t : Int) : ℚ) + (valueOf digits : ℚ) / 10 ^ digits.length := by
  have low := zone.gmtoff_low t
  have high := zone.gmtoff_high t
  obtain ⟨valid, number⟩ := dateOf_spec ((t + zone.gmtoff t) / 86400 + epochDay)
  have year : 1000 ≤ (dateOf ((t + zone.gmtoff t) / 86400 + epochDay)).year := by
    apply dateOf_year
    unfold epochDay
    omega
  have hours : ((localtime zone t).gmtoff.tdiv 3600).natAbs < 100 := by
    have abs : ((zone.gmtoff t).tdiv 3600).natAbs = (zone.gmtoff t).natAbs / 3600 :=
      Int.natAbs_tdiv ..
    rw [show (localtime zone t).gmtoff = zone.gmtoff t from rfl]
    omega
  have text : strftime (localtime zone t) ++ (fractionText digits ++
        zoneText ((localtime zone t).gmtoff.tdiv 3600)) =
      dateText (localtime zone t).date ++ 84 :: (padded 2 (localtime zone t).hour ++
        58 :: (padded 2 (localtime zone t).min ++ 58 :: (padded 2 (localtime zone t).sec ++
          (fractionText digits ++ zoneText ((localtime zone t).gmtoff.tdiv 3600))))) := by
    simp only [strftime, dateText, List.append_assoc, List.cons_append]
  have hour : (localtime zone t).hour < 24 := by
    unfold localtime
    dsimp only
    omega
  have min : (localtime zone t).min < 60 := by
    unfold localtime
    dsimp only
    omega
  have sec : (localtime zone t).sec < 60 := by
    unfold localtime
    dsimp only
    omega
  rw [text]
  refine ⟨_, readStamp_text valid year hour min sec all hours, ?_⟩
  unfold Stamp.instant
  dsimp only
  congr 2
  -- the whole seconds of the local time, less the hours that are printed
  rw [show (localtime zone t).date.number = (t + zone.gmtoff t) / 86400 + epochDay from number]
  unfold localtime Zone.rest
  dsimp only
  simp only [decide_eq_true_eq]
  rw [signed_seconds, Int.add_sub_cancel, seconds_of_clock]
  omega

/-- The instant in units of the last digit. -/
def denoted : Int :=
  ((usec / 1000000 : Nat) + zone.rest (usec / 1000000 : Nat)) * 10 ^ precision +
    (rounded precision usec % 10 ^ precision : Nat)

/-- The text, read as a date and time: the fraction has lost its carry. -/
theorem readStamp_clock :
    ∃ stamp, readStamp (strftime (localtime zone (usec / 1000000 : Nat)) ++
        (fractText (localtime zone (usec / 1000000 : Nat)) usec precision).drop 1) =
        some stamp ∧ stamp.instant = (denoted zone usec precision : ℚ) / 10 ^ precision := by
  rw [drop_fractText]
  obtain ⟨stamp, read, instant⟩ := readStamp_local zone (Int.natCast_nonneg (usec / 1000000))
    (digits_padded precision (rounded precision usec))
  refine ⟨stamp, read, ?_⟩
  have pos : (10 : ℚ) ^ precision ≠ 0 := by positivity
  rw [instant, valueOf_padded, length_padded, denoted]
  generalize rounded precision usec % 10 ^ precision = fraction
  generalize usec / 1000000 = t
  push_cast
  field_simp

def RoundsUp : Prop := rounded precision usec = 10 ^ precision

instance : Decidable (RoundsUp usec precision) := inferInstanceAs (Decidable (_ = _))

/-- The printed hours and the dropped digit leave the instant where it was. Whole seconds may be off
by one: as far as the zone is one second off its hours. -/
def Faithful : Prop :=
  let rest := zone.rest (usec / 1000000 : Nat)
  if precision = 0 then rest = 0 ∨ rest = 1 ∨ (rest = -1 ∧ usec % 1000000 = 0)
  else rest = if RoundsUp usec precision then 1 else 0

/-- With at least one digit, a rounded fraction is near the instant exactly if the seconds that are
left out are those of the carry. -/
theorem near_iff {scale r u : Nat} {t z : Int} (big : 10 ≤ scale) (most : r ≤ scale)
    (up : 2 * (u * scale) ≤ 2 * (r * 1000000) + 1000000)
    (down : 2 * (r * 1000000) ≤ 2 * (u * scale) + 1000000) :
    |((t + z) * scale + (r % scale : Nat)) * 1000000 - (1000000 * t + u) * scale| ≤ 1000000 ↔
      z = if r = scale then 1 else 0 := by
  -- the fraction with its carry put back
  have carried : ((r % scale : Nat) : Int) + (if r = scale then 1 else 0) * scale = r := by
    split
    · rename_i full
      rw [full, Nat.mod_self]
      omega
    · rw [Nat.mod_eq_of_lt (by omega)]
      omega
  generalize (if r = scale then 1 else 0 : Int) = carry at *
  have apart : ((t + z) * scale + (r % scale : Nat)) * 1000000 - (1000000 * t + u) * scale =
      (z - carry) * scale * 1000000 + (r * 1000000 - u * scale) := by
    rw [← carried]
    ring
  have product : ((u * scale : Nat) : Int) = u * scale := Int.natCast_mul u scale
  rw [apart, abs_le]
  by_cases same : z = carry
  · refine iff_of_true ?_ same
    rw [same, Int.sub_self, Int.zero_mul, Int.zero_mul]
    omega
  · refine iff_of_false ?_ same
    rcases Int.lt_or_gt_of_ne same with below | above
    · have : (z - carry) * scale ≤ -1 * scale :=
        Int.mul_le_mul_of_nonneg_right (by omega) (by omega)
      omega
    · have : 1 * (scale : Int) ≤ (z - carry) * scale :=
        Int.mul_le_mul_of_nonneg_right (by omega) (by omega)
      omega

theorem faithful_iff :
    |denoted zone usec precision * 1000000 - (usec : Int) * 10 ^ precision| ≤ 1000000 ↔
      Faithful zone usec precision := by
  have whole : (usec : Int) = 1000000 * (usec / 1000000 : Nat) + (usec % 1000000 : Nat) := by omega
  have scale : ((10 ^ precision : Nat) : Int) = 10 ^ precision := Nat.cast_pow 10 precision
  unfold Faithful denoted RoundsUp
  split
  · rename_i zero
    subst zero
    rw [Nat.pow_zero, Nat.mod_one, abs_le]
    omega
  · rename_i positive
    have big : 10 ^ 1 ≤ 10 ^ precision :=
      Nat.pow_le_pow_right (by decide) (Nat.pos_of_ne_zero positive)
    obtain ⟨up, down⟩ := roundEven_error (usec % 1000000 * 10 ^ precision) (show 0 < 1000000 by decide)
    have near := near_iff (t := (usec / 1000000 : Nat)) (z := zone.rest (usec / 1000000 : Nat)) big
      (rounded_le usec precision) up down
    rw [← whole, scale] at near
    exact near

end Instant

/-! ## What a call comes to -/

/-- The text denotes an instant that is no further from the time than one unit of the last digit. -/
def Accurate (usec precision : Nat) (bs : List UInt8) : Prop :=
  ∃ stamp, readStamp bs = some stamp ∧ |stamp.instant - (usec : ℚ) / 1000000| ≤ 1 / 10 ^ precision

/-- If there is a text it is accurate, and nothing is overrun. -/
def ClockRight (zone : Zone) (usec precision textSz : Nat) : Prop :=
  match clockGetText zone usec precision textSz with
  | .text bs => Accurate usec precision bs
  | .failed _ => True
  | .overrun => False

def ClockOrdered (zone : Zone) (usec usec' precision textSz : Nat) : Prop :=
  ∀ bs bs', clockGetText zone usec precision textSz = .text bs →
    clockGetText zone usec' precision textSz = .text bs' →
    ∃ stamp stamp', readStamp bs = some stamp ∧ readStamp bs' = some stamp' ∧
      stamp.instant ≤ stamp'.instant

/-- The date, with the final zero, fits before the fraction and the zone. -/
def DateFits (zone : Zone) (usec precision textSz : Nat) : Prop :=
  precision + 7 + (strftime (localtime zone (usec / 1000000 : Nat))).length < textSz

instance (zone : Zone) (usec precision textSz : Nat) :
    Decidable (DateFits zone usec precision textSz) :=
  inferInstanceAs (Decidable (_ < _))

section Call

variable {zone : Zone} {usec precision textSz : Nat}

theorem near_rat {d u : Int} {scale : ℚ} (pos : 0 < scale) :
    |(d : ℚ) / scale - (u : ℚ) / 1000000| ≤ 1 / scale ↔ |(d : ℚ) * 1000000 - u * scale| ≤ 1000000 := by
  have apart : (d : ℚ) / scale - (u : ℚ) / 1000000 =
    (d * 1000000 - u * scale) / (scale * 1000000) := by
    field_simp
  rw [apart, abs_div, abs_of_pos (show (0 : ℚ) < scale * 1000000 by positivity),
    div_le_div_iff₀ (by positivity) pos,
    one_mul, mul_comm scale, mul_le_mul_iff_left₀ pos]

theorem accurate_iff :
    Accurate usec precision (strftime (localtime zone (usec / 1000000 : Nat)) ++
      (fractText (localtime zone (usec / 1000000 : Nat)) usec precision).drop 1) ↔
      Faithful zone usec precision := by
  obtain ⟨stamp, read, instant⟩ := readStamp_clock zone usec precision
  have near := near_rat (d := denoted zone usec precision) (u := usec)
    (show (0 : ℚ) < 10 ^ precision by positivity)
  have cast : |(denoted zone usec precision : ℚ) * 1000000 - (usec : Int) * 10 ^ precision| ≤ 1000000 ↔
      |denoted zone usec precision * 1000000 - (usec : Int) * 10 ^ precision| ≤ 1000000 := by
    norm_cast
  rw [cast, faithful_iff, Int.cast_natCast, ← instant] at near
  rw [Accurate, read, ← near]
  constructor
  · rintro ⟨_, ⟨⟩, close⟩
    exact close
  · exact fun close => ⟨stamp, rfl, close⟩

theorem length_fractText (tm : Tm) (usec precision : Nat) :
    ((fractText tm usec precision).drop 1).length = if precision = 0 then 6 else precision + 7 := by
  rw [drop_fractText]
  unfold fractionText zoneText
  rw [List.length_append]
  simp only [List.length_cons, List.length_append, length_padded, List.length_nil]
  cases precision with
  | zero => rfl
  | succ p =>
    rw [if_neg (padded_succ_ne_nil p _), if_neg (Nat.succ_ne_zero p), List.length_cons,
      length_padded]

/-- The cases of a call: no buffer, a buffer that is shorter than the fraction and the zone, one in
which the date does not fit, and one in which all does if the fraction fits its own buffer. -/
theorem clockGetText_eq :
    clockGetText zone usec precision textSz =
      if textSz = 0 then .failed Status.invalidArg
      else if textSz < precision + 7 then .overrun
      else if ¬ DateFits zone usec precision textSz then .failed Status.bufferTooSmall
      else if 24 ≤ precision then .overrun
      else .text (strftime (localtime zone (usec / 1000000 : Nat)) ++
        (fractText (localtime zone (usec / 1000000 : Nat)) usec precision).drop 1) := by
  have length := length_fractText (localtime zone (usec / 1000000 : Nat)) usec precision
  have fract : (fractText (localtime zone (usec / 1000000 : Nat)) usec precision).length =
    if precision = 0 then 7 else precision + 8 := by
    rw [List.length_drop] at length
    by_cases zero : precision = 0
    · rw [if_pos zero] at length ⊢
      omega
    · rw [if_neg zero] at length ⊢
      omega
  have date : 0 < (strftime (localtime zone (usec / 1000000 : Nat))).length := by
    rw [strftime, List.length_append, List.length_cons]
    omega
  unfold clockGetText DateFits
  dsimp only
  rw [List.length_append, length, fract]
  by_cases zero : textSz = 0
  · rw [if_pos zero, if_pos zero]
  rw [if_neg zero, if_neg zero]
  by_cases short : textSz < precision + 7
  · rw [if_pos short, if_neg (by omega), if_pos (by split <;> omega)]
  rw [if_neg short]
  by_cases fits : precision + 7 + (strftime (localtime zone (usec / 1000000 : Nat))).length < textSz
  · rw [if_neg (by omega), if_neg (not_not.mpr fits)]
    by_cases wide : 24 ≤ precision
    · rw [if_pos wide, if_pos (by split <;> omega)]
    · rw [if_neg wide, if_neg (by split <;> omega)]
  · rw [if_pos (by omega), if_pos fits]

theorem clockRight_iff :
    ClockRight zone usec precision textSz ↔ textSz = 0 ∨ (precision + 7 ≤ textSz ∧
      (DateFits zone usec precision textSz → precision < 24 ∧ Faithful zone usec precision)) := by
  unfold ClockRight
  rw [clockGetText_eq]
  by_cases zero : textSz = 0
  · rw [if_pos zero]
    exact iff_of_true trivial (Or.inl zero)
  rw [if_neg zero, or_iff_right zero]
  by_cases short : textSz < precision + 7
  · rw [if_pos short]
    exact iff_of_false id fun h => by omega
  rw [if_neg short]
  by_cases fits : DateFits zone usec precision textSz
  · rw [if_neg (not_not.mpr fits)]
    by_cases wide : 24 ≤ precision
    · rw [if_pos wide]
      refine iff_of_false id ?_
      rintro ⟨_, all⟩
      have := (all fits).1
      omega
    · rw [if_neg wide]
      refine accurate_iff.trans ⟨?_, ?_⟩
      · exact fun faithful => ⟨by omega, fun _ => ⟨by omega, faithful⟩⟩
      · exact fun all => (all.2 fits).2
  · rw [if_pos fits]
    exact iff_of_true trivial ⟨by omega, fun h => absurd h fits⟩

/-- A text that there is. -/
theorem clockGetText_text {bs : List UInt8}
    (text : clockGetText zone usec precision textSz = .text bs) :
    bs = strftime (localtime zone (usec / 1000000 : Nat)) ++
      (fractText (localtime zone (usec / 1000000 : Nat)) usec precision).drop 1 := by
  rw [clockGetText_eq] at text
  split at text
  · cases text
  · split at text
    · cases text
    · split at text
      · cases text
      · split at text
        · cases text
        · cases text
          rfl

/-! ## Two times -/

/-- The fraction of a second that is left when the leading digit is dropped. -/
def printedFraction (precision usec : Nat) : Nat := rounded precision usec % 10 ^ precision

/-- The earlier time is printed as the later one. In one second the second time is rounded up to the
next one, and the first is not, nor is its fraction zero. Of two seconds, the second has lost, of
the part of its offset that is not printed, more than the seconds between them; or as many, and
prints a smaller fraction. -/
def Overtaken (zone : Zone) (usec usec' precision : Nat) : Prop :=
  let second : Int := (usec / 1000000 : Nat)
  let second' : Int := (usec' / 1000000 : Nat)
  let lost := zone.rest second - zone.rest second'
  if second = second' then RoundsUp usec' precision ∧ ¬ RoundsUp usec precision ∧
    rounded precision usec ≠ 0
  else second' - second < lost ∨
    (second' - second = lost ∧ printedFraction precision usec' < printedFraction precision usec)

theorem rounded_mono {usec usec' : Nat} (le : usec ≤ usec')
    (same : usec / 1000000 = usec' / 1000000) :
    rounded precision usec ≤ rounded precision usec' := by
  apply roundEven_mono
  apply Nat.mul_le_mul_right
  omega

/-- Seconds with a fraction are in order unless the seconds, or the fractions of one second, are
not. -/
theorem scaled_le_iff {a b : Int} {f g scale : Nat} (f_lt : f < scale) (g_lt : g < scale) :
    a * scale + f ≤ b * scale + g ↔ ¬ (b < a ∨ (b = a ∧ g < f)) := by
  rcases Int.lt_trichotomy a b with less | rfl | more
  · have : (a + 1) * (scale : Int) ≤ b * scale := Int.mul_le_mul_of_nonneg_right less (by omega)
    rw [Int.add_mul, Int.one_mul] at this
    exact iff_of_true (by omega) (by omega)
  · omega
  · have : (b + 1) * (scale : Int) ≤ a * scale := Int.mul_le_mul_of_nonneg_right more (by omega)
    rw [Int.add_mul, Int.one_mul] at this
    exact iff_of_false (by omega) (by omega)

/-- Two fractions of one second keep their order unless the second has lost its carry. -/
theorem printedFraction_le_iff {usec' : Nat} (le : usec ≤ usec')
    (same : usec / 1000000 = usec' / 1000000) :
    printedFraction precision usec ≤ printedFraction precision usec' ↔
      ¬ (RoundsUp usec' precision ∧ ¬ RoundsUp usec precision ∧ rounded precision usec ≠ 0) := by
  have most := rounded_le usec precision
  have most' := rounded_le usec' precision
  have order : rounded precision usec ≤ rounded precision usec' := rounded_mono le same
  unfold printedFraction RoundsUp
  by_cases carry' : rounded precision usec' = 10 ^ precision
  · rw [carry', Nat.mod_self, Nat.le_zero]
    by_cases carry : rounded precision usec = 10 ^ precision
    · rw [carry, Nat.mod_self]
      exact iff_of_true rfl fun h => h.2.1 rfl
    · rw [Nat.mod_eq_of_lt (by omega)]
      constructor
      · exact fun zero h => h.2.2 zero
      · intro h
        by_contra positive
        exact h ⟨rfl, carry, positive⟩
  · rw [Nat.mod_eq_of_lt (show rounded precision usec < 10 ^ precision by omega),
      Nat.mod_eq_of_lt (show rounded precision usec' < 10 ^ precision by omega)]
    exact iff_of_true order fun h => carry' h.1

theorem denoted_le_iff {usec' : Nat} (le : usec ≤ usec') :
    denoted zone usec precision ≤ denoted zone usec' precision ↔
      ¬ Overtaken zone usec usec' precision := by
  have scale : ((10 ^ precision : Nat) : Int) = 10 ^ precision := Nat.cast_pow 10 precision
  have pos : 0 < 10 ^ precision := Nat.pow_pos (by decide)
  have less : printedFraction precision usec < 10 ^ precision := Nat.mod_lt _ pos
  have less' : printedFraction precision usec' < 10 ^ precision := Nat.mod_lt _ pos
  unfold denoted Overtaken
  dsimp only
  rw [← scale]
  refine (scaled_le_iff less less').trans ?_
  split
  · rename_i same
    rw [← printedFraction_le_iff le (Int.ofNat_inj.mp same), same]
    omega
  · rename_i apart
    omega

def Printed (zone : Zone) (usec precision textSz : Nat) : Prop :=
  ∃ bs, clockGetText zone usec precision textSz = .text bs

theorem clockOrdered_iff {usec' : Nat} (le : usec ≤ usec') :
    ClockOrdered zone usec usec' precision textSz ↔
      (Printed zone usec precision textSz → Printed zone usec' precision textSz →
        ¬ Overtaken zone usec usec' precision) := by
  obtain ⟨stamp, read, instant⟩ := readStamp_clock zone usec precision
  obtain ⟨stamp', read', instant'⟩ := readStamp_clock zone usec' precision
  have order : stamp.instant ≤ stamp'.instant ↔ ¬ Overtaken zone usec usec' precision := by
    rw [instant, instant', div_le_div_iff_of_pos_right (by positivity), Int.cast_le]
    exact denoted_le_iff le
  constructor
  · rintro ordered ⟨bs, text⟩ ⟨bs', text'⟩
    obtain ⟨first, second, here, here', before⟩ := ordered bs bs' text text'
    rw [clockGetText_text text, read] at here
    rw [clockGetText_text text', read'] at here'
    cases here
    cases here'
    exact order.mp before
  · intro apart bs bs' text text'
    refine ⟨stamp, stamp', ?_, ?_, order.mpr (apart ⟨bs, text⟩ ⟨bs', text'⟩)⟩
    · rw [clockGetText_text text, read]
    · rw [clockGetText_text text', read']

theorem length_strftime (tm : Tm) : (strftime tm).length = (decimal tm.date.year.toNat).length + 15 := by
  simp only [strftime, List.length_append, List.length_cons, length_padded]

/-- In a year of four digits the date takes 19 bytes. -/
theorem dateFits_of_year (year : (localtime zone (usec / 1000000 : Nat)).date.year < 10000)
    (room : precision + 26 < textSz) : DateFits zone usec precision textSz := by
  have short := (length_decimal_le (n := (localtime zone (usec / 1000000 : Nat)).date.year.toNat)
    (show 0 < 4 by decide)).mpr (by omega)
  unfold DateFits
  rw [length_strftime]
  omega

theorem printed_of_fits (fits : DateFits zone usec precision textSz) (narrow : precision < 24) :
    Printed zone usec precision textSz := by
  have room := fits
  unfold DateFits at room
  have text := @clockGetText_eq zone usec precision textSz
  rw [if_neg (by omega), if_neg (by omega), if_neg (not_not.mpr fits), if_neg (by omega)] at text
  exact ⟨_, text⟩

end Call

/-- In every zone, whatever offset it has at each time, and for every precision and buffer: a text
denotes its time up to one unit of the last digit, if and only if the fraction fits its buffer of 32
bytes and the offset and the carry leave the instant where it was; and two texts denote instants in
order, if and only if none is overtaken, by a carry or by a change of the offset. -/
theorem clock_text_instants (zone : Zone) (precision textSz : Nat) :
    (∀ usec, ClockRight zone usec precision textSz ↔ textSz = 0 ∨ (precision + 7 ≤ textSz ∧
      (DateFits zone usec precision textSz → precision < 24 ∧ Faithful zone usec precision))) ∧
    ∀ usec usec', usec ≤ usec' → (ClockOrdered zone usec usec' precision textSz ↔
      (Printed zone usec precision textSz → Printed zone usec' precision textSz →
        ¬ Overtaken zone usec usec' precision)) :=
  ⟨fun _ => clockRight_iff, fun _ _ le => clockOrdered_iff le⟩

def Zone.fixed (gmtoff : Int) (low : -90000 < gmtoff) (high : gmtoff < 90000) : Zone :=
  ⟨fun _ => gmtoff, fun _ => low, fun _ => high⟩

def Zone.changing (change before after : Int) (low : -90000 < min before after)
    (high : max before after < 90000) :
    Zone where
  gmtoff t := if t < change then before else after
  gmtoff_low t := by
    split <;> omega
  gmtoff_high t := by
    split <;> omega

/-- In New York with three digits: a text, and two in order across the end of summer time. -/
theorem clock_text_instants_west :
    let zone := Zone.changing 1699164000 (-14400) (-18000) (by decide) (by decide)
    ClockRight zone 1700000000123456 3 64 ∧
      ClockOrdered zone 1699163999123456 1699164000000400 3 64 := by
  intro zone
  obtain ⟨right, ordered⟩ := clock_text_instants zone 3 64
  constructor
  · apply (right _).mpr
    refine Or.inr ⟨by decide, fun _ => ⟨by decide, ?_⟩⟩
    unfold Faithful
    decide
  · apply (ordered _ _ (by decide)).mpr
    rintro _ _ overtaken
    unfold Overtaken at overtaken
    revert overtaken
    decide

/-- A fraction that rounds up to a whole second loses it; half an hour of a zone is not printed; and
the later of two times is printed as the earlier, of two in one second, and of two at which the zone
goes from half an hour to a whole one. -/
theorem carry_and_half_hour :
    let utc := Zone.fixed 0 (by decide) (by decide)
    let india := Zone.fixed 19800 (by decide) (by decide)
    let lordHowe := Zone.changing 1696087800 37800 39600 (by decide) (by decide)
    ¬ ClockRight utc 999600 3 64 ∧ ¬ ClockRight india 0 3 64 ∧
      ¬ ClockOrdered utc 999000 999600 3 64 ∧
      ¬ ClockOrdered lordHowe 1696087799000000 1696087800000000 3 64 := by
  intro utc india lordHowe
  have late : DateFits utc 999600 3 64 := dateFits_of_year (by decide) (by decide)
  have early : DateFits utc 999000 3 64 := dateFits_of_year (by decide) (by decide)
  have half : DateFits india 0 3 64 := dateFits_of_year (by decide) (by decide)
  have before : DateFits lordHowe 1696087799000000 3 64 := dateFits_of_year (by decide) (by decide)
  have after : DateFits lordHowe 1696087800000000 3 64 := dateFits_of_year (by decide) (by decide)
  refine ⟨?_, ?_, ?_, ?_⟩
  · intro right
    rcases clockRight_iff.mp right with zero | ⟨_, all⟩
    · cases zero
    · have faithful := (all late).2
      unfold Faithful at faithful
      revert faithful
      decide
  · intro right
    rcases clockRight_iff.mp right with zero | ⟨_, all⟩
    · cases zero
    · have faithful := (all half).2
      unfold Faithful at faithful
      revert faithful
      decide
  · intro ordered
    apply (clockOrdered_iff (by decide)).mp ordered (printed_of_fits early (by decide))
      (printed_of_fits late (by decide))
    unfold Overtaken
    decide
  · intro ordered
    apply (clockOrdered_iff (by decide)).mp ordered (printed_of_fits before (by decide))
      (printed_of_fits after (by decide))
    unfold Overtaken
    decide

end Lancaster
