import Mathlib
import Lancaster.Base.Decimal

/-!
# Whole numbers in a binary floating-point format

A format of `p` digits holds a whole number exactly, or the nearest multiple of a power of two, to
the even one of two. The exponent is taken to be large enough.
-/

namespace Floating

open Decimal

/-- The distance of the numbers of `p` digits around `n`. -/
def grain (p n : Nat) : Nat := 2 ^ (n.log2 + 1 - p)

def nearest (p n : Nat) : Nat := roundEven n (grain p n) * grain p n

variable {p n m : Nat}

theorem grain_pos (p n : Nat) : 0 < grain p n := Nat.two_pow_pos _

/-- A multiple of the distance is one of the numbers. -/
theorem nearest_of_dvd (h : grain p n ∣ n) : nearest p n = n := by
  have even : n % grain p n = 0 := Nat.mod_eq_zero_of_dvd h
  have pos := grain_pos p n
  rw [nearest, roundEven, even, if_neg (by omega)]
  exact Nat.div_mul_cancel h

theorem lt_digits (p n : Nat) : n < 2 ^ p * grain p n := by
  have less : n < 2 ^ (n.log2 + 1) := Nat.lt_log2_self
  rw [grain, ← Nat.pow_add]
  exact Nat.lt_of_lt_of_le less (Nat.pow_le_pow_right (by decide) (by omega))

/-- A number of `p` digits, shifted by any number of places, is exact. -/
theorem nearest_shifted {k : Nat} (e : Nat) (digit : 0 < p) (few : k ≤ 2 ^ p) :
    nearest p (k * 2 ^ e) = k * 2 ^ e := by
  apply nearest_of_dvd
  by_cases zero : k = 0
  · rw [zero, Nat.zero_mul]
    exact Nat.dvd_zero _
  have pos : 0 < k * 2 ^ e := Nat.mul_pos (Nat.pos_of_ne_zero zero) (Nat.two_pow_pos e)
  have low : 2 ^ (k * 2 ^ e).log2 ≤ k * 2 ^ e := Nat.log2_self_le (Nat.ne_of_gt pos)
  have high : k * 2 ^ e ≤ 2 ^ (p + e) := by
    rw [Nat.pow_add]
    exact Nat.mul_le_mul_right _ few
  have digits : (k * 2 ^ e).log2 ≤ p + e :=
    (Nat.pow_le_pow_iff_right (by decide)).mp (Nat.le_trans low high)
  rcases Nat.lt_or_eq_of_le digits with less | full
  · exact Nat.dvd_trans (Nat.pow_dvd_pow 2 (by omega)) (Nat.dvd_mul_left _ _)
  · -- the next power of two
    have power : k * 2 ^ e = 2 ^ (k * 2 ^ e).log2 := by
      rw [full] at low ⊢
      exact Nat.le_antisymm high low
    have divides : 2 ^ ((k * 2 ^ e).log2 + 1 - p) ∣ 2 ^ (k * 2 ^ e).log2 :=
      Nat.pow_dvd_pow 2 (by omega)
    rw [grain]
    rwa [← power] at divides

theorem nearest_of_le (digit : 0 < p) (few : n ≤ 2 ^ p) : nearest p n = n := by
  have whole := nearest_shifted 0 digit few
  rwa [Nat.pow_zero, Nat.mul_one] at whole

/-- What is held is held exactly. -/
theorem nearest_nearest (n : Nat) (digit : 0 < p) : nearest p (nearest p n) = nearest p n :=
  nearest_shifted _ digit (roundEven_le (grain_pos p n) (Nat.le_of_lt (lt_digits p n)))

theorem nearest_mono (digit : 0 < p) (le : n ≤ m) : nearest p n ≤ nearest p m := by
  by_cases same : m.log2 + 1 - p = n.log2 + 1 - p
  · rw [nearest, nearest, grain, grain, same]
    exact Nat.mul_le_mul_right _ (roundEven_mono le)
  have pos : m ≠ 0 := by
    rintro rfl
    rw [Nat.le_zero.mp le] at same
    exact same rfl
  have logs : n.log2 ≤ m.log2 := by
    by_cases zero : n = 0
    · rw [zero]
      exact Nat.zero_le _
    · exact (Nat.le_log2 pos).mpr (Nat.le_trans (Nat.log2_self_le zero) le)
  -- between the two is the power of two below `m`
  calc nearest p n ≤ 2 ^ p * grain p n :=
        Nat.mul_le_mul_right _ (roundEven_le (grain_pos p n) (Nat.le_of_lt (lt_digits p n)))
    _ ≤ 2 ^ m.log2 := by
        rw [grain, ← Nat.pow_add]
        exact Nat.pow_le_pow_right (by decide) (by omega)
    _ = 2 ^ (p - 1) * grain p m := by
        rw [grain, ← Nat.pow_add]
        congr 1
        omega
    _ ≤ nearest p m := by
        apply Nat.mul_le_mul_right
        refine Nat.le_trans ?_ (div_le_roundEven m _)
        rw [Nat.le_div_iff_mul_le (grain_pos p m), grain, ← Nat.pow_add]
        refine Nat.le_trans ?_ (Nat.log2_self_le pos)
        exact Nat.pow_le_pow_right (by decide) (by omega)

/-! ## With a sign -/

def nearestInt (p : Nat) (x : Int) : Int :=
  if x < 0 then -(nearest p x.natAbs) else nearest p x.natAbs

variable {x y : Int}

theorem nearestInt_nonneg (h : 0 ≤ x) : nearestInt p x = nearest p x.natAbs := if_neg (by omega)

theorem nearestInt_neg (x : Int) : nearestInt p (-x) = -nearestInt p x := by
  have zero : nearest p 0 = 0 := nearest_of_dvd (Nat.dvd_zero _)
  unfold nearestInt
  rw [Int.natAbs_neg]
  rcases Int.lt_trichotomy x 0 with less | rfl | more
  · rw [if_neg (by omega), if_pos less, Int.neg_neg]
  · simp [zero]
  · rw [if_pos (by omega), if_neg (by omega)]

theorem nearestInt_of_le (digit : 0 < p) (few : x.natAbs ≤ 2 ^ p) : nearestInt p x = x := by
  unfold nearestInt
  rw [nearest_of_le digit few]
  split <;> omega

theorem nearestInt_nearestInt (x : Int) (digit : 0 < p) :
    nearestInt p (nearestInt p x) = nearestInt p x := by
  have natural (n : Nat) : nearestInt p (nearest p n) = nearest p n := by
    rw [nearestInt_nonneg (Int.natCast_nonneg _), Int.natAbs_natCast, nearest_nearest n digit]
  have signed : nearestInt p x = nearest p x.natAbs ∨ nearestInt p x = -nearest p x.natAbs := by
    unfold nearestInt
    split
    · exact Or.inr rfl
    · exact Or.inl rfl
  rcases signed with eq | eq
  · rw [eq, natural]
  · rw [eq, nearestInt_neg, natural]

theorem nearestInt_mono (digit : 0 < p) : Monotone (nearestInt p) := by
  have natural {x y : Int} (low : 0 ≤ x) (le : x ≤ y) : nearestInt p x ≤ nearestInt p y := by
    rw [nearestInt_nonneg low, nearestInt_nonneg (Int.le_trans low le)]
    exact Int.ofNat_le.mpr (nearest_mono digit (by omega))
  have zero : nearestInt p 0 = 0 := nearestInt_of_le digit (Nat.zero_le _)
  intro x y le
  by_cases low : 0 ≤ x
  · exact natural low le
  by_cases high : 0 ≤ y
  · have above := natural (Int.le_refl 0) high
    have below := natural (Int.le_refl 0) (show 0 ≤ -x by omega)
    rw [nearestInt_neg] at below
    omega
  · have turned := natural (show 0 ≤ -y by omega) (show -y ≤ -x by omega)
    rw [nearestInt_neg, nearestInt_neg] at turned
    omega

/-- Only zero becomes zero. -/
theorem nearestInt_pos (digit : 0 < p) (pos : 0 < x) : 0 < nearestInt p x := by
  have one : nearestInt p 1 = 1 := nearestInt_of_le digit (Nat.one_le_two_pow)
  have le := nearestInt_mono digit (show 1 ≤ x by omega)
  omega

end Floating
