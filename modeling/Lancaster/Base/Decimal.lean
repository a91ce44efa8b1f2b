import Lancaster.Base.Text

/-!
# Decimal numbers of a given width

Numerals with leading zeros, and quotients rounded to the nearest whole number, to the even one of
two.
-/

namespace Decimal

open Text

/-- The last digits of a number, with leading zeros. -/
def padded : Nat → Nat → List UInt8
  | 0, _ => []
  | w + 1, n => padded w (n / 10) ++ [UInt8.ofNat (48 + n % 10)]

theorem length_padded (w n : Nat) : (padded w n).length = w := by
  induction w generalizing n with
  | zero => rfl
  | succ w ih => rw [padded, List.length_append, ih, List.length_singleton]

theorem padded_succ_ne_nil (w n : Nat) : padded (w + 1) n ≠ [] := by
  rw [← List.length_pos_iff, length_padded]
  exact Nat.succ_pos w

theorem digit_toNat (n : Nat) : (UInt8.ofNat (48 + n % 10)).toNat = 48 + n % 10 := by
  rw [UInt8.toNat_ofNat']
  omega

theorem isDigit_digit (n : Nat) : isDigit (UInt8.ofNat (48 + n % 10)) = true := by
  unfold isDigit
  rw [Bool.and_eq_true, decide_eq_true_iff, decide_eq_true_iff, UInt8.le_iff_toNat_le,
    UInt8.le_iff_toNat_le, digit_toNat]
  have low : (48 : UInt8).toNat = 48 := rfl
  have high : (57 : UInt8).toNat = 57 := rfl
  omega

theorem digits_padded (w n : Nat) : ∀ b ∈ padded w n, isDigit b = true := by
  induction w generalizing n with
  | zero => exact fun b here => absurd here List.not_mem_nil
  | succ w ih =>
    intro b here
    rcases List.mem_append.mp here with here | here
    · exact ih (n / 10) b here
    · rw [List.mem_singleton.mp here]
      exact isDigit_digit n

theorem valueOf_snoc (s : List UInt8) (b : UInt8) :
    valueOf (s ++ [b]) = 10 * valueOf s + (b.toNat - 48) := by
  rw [valueOf, List.foldl_append]
  rfl

theorem valueOf_padded (w n : Nat) : valueOf (padded w n) = n % 10 ^ w := by
  induction w generalizing n with
  | zero => rw [Nat.pow_zero, Nat.mod_one]; rfl
  | succ w ih =>
    rw [padded, valueOf_snoc, ih, digit_toNat, Nat.pow_succ', Nat.mod_mul]
    omega

/-! ## Rounding -/

def roundEven (n d : Nat) : Nat :=
  if d < 2 * (n % d) ∨ (2 * (n % d) = d ∧ n / d % 2 = 1) then n / d + 1 else n / d

theorem roundEven_error (n : Nat) {d : Nat} (pos : 0 < d) :
    2 * n ≤ 2 * (roundEven n d * d) + d ∧ 2 * (roundEven n d * d) ≤ 2 * n + d := by
  have whole : n / d * d + n % d = n := by
    rw [Nat.mul_comm]
    exact Nat.div_add_mod n d
  have less := Nat.mod_lt n pos
  unfold roundEven
  split
  · rw [Nat.add_mul, Nat.one_mul]
    omega
  · omega

theorem roundEven_mono {n m d : Nat} (le : n ≤ m) : roundEven n d ≤ roundEven m d := by
  have near (k : Nat) : k / d ≤ roundEven k d ∧ roundEven k d ≤ k / d + 1 := by
    unfold roundEven
    split <;> omega
  rcases Nat.lt_or_eq_of_le (Nat.div_le_div_right le : n / d ≤ m / d) with less | same
  · have := near n
    have := near m
    omega
  · have rest : n % d ≤ m % d := by
      have := Nat.div_add_mod n d
      have := Nat.div_add_mod m d
      rw [same] at *
      omega
    unfold roundEven
    rw [same]
    split
    · rename_i up
      rw [if_pos (by omega)]
    · split <;> omega

theorem div_le_roundEven (n d : Nat) : n / d ≤ roundEven n d := by
  unfold roundEven
  split <;> omega

theorem roundEven_le {n k d : Nat} (pos : 0 < d) (le : n ≤ k * d) : roundEven n d ≤ k := by
  have unrounded : roundEven (k * d) d = k := by
    unfold roundEven
    rw [Nat.mul_mod_left, Nat.mul_div_cancel k pos, if_neg (by omega)]
  rw [← unrounded]
  exact roundEven_mono le

end Decimal
