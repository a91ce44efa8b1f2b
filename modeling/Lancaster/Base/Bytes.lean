import Mathlib.Data.Int.Basic
import Mathlib.Tactic.Ring
import Mathlib.Tactic.NormNum

/-!
# Byte buffers holding 64-bit longs

A buffer is a list of bytes written at an offset. A long is stored in the host's
little-endian two's complement form, and `bswap64` reverses its eight bytes, so
that a swapped long lies in memory most significant byte first.
-/

namespace Bytes

/-- The `k` least significant base-256 digits of `n`, least significant first. -/
def digits : Nat → Nat → List UInt8
  | 0, _ => []
  | k + 1, n => UInt8.ofNat n :: digits k (n / 256)

/-- The number denoted by a list of base-256 digits, least significant first. -/
def value : List UInt8 → Nat
  | [] => 0
  | b :: bs => b.toNat + 256 * value bs

@[simp] theorem length_digits (k n : Nat) : (digits k n).length = k := by
  induction k generalizing n with
  | zero => rfl
  | succ k ih => simp [digits, ih]

theorem value_lt (bs : List UInt8) : value bs < 256 ^ bs.length := by
  induction bs with
  | nil => simp [value]
  | cons b bs ih =>
    have hb : b.toNat < 256 := b.toNat_lt
    simp only [value, List.length_cons, Nat.pow_succ]
    omega

theorem value_digits (k n : Nat) : value (digits k n) = n % 256 ^ k := by
  induction k generalizing n with
  | zero => simp [digits, value, Nat.mod_one]
  | succ k ih =>
    have hb : (UInt8.ofNat n).toNat = n % 256 := UInt8.toNat_ofNat'
    rw [digits, value, ih, hb, Nat.pow_succ', Nat.mod_mul]

theorem digits_value (bs : List UInt8) : digits bs.length (value bs) = bs := by
  induction bs with
  | nil => rfl
  | cons b bs ih =>
    have hb : b.toNat < 256 := b.toNat_lt
    have low : UInt8.ofNat (b.toNat + 256 * value bs) = b := by
      apply UInt8.toNat_inj.mp
      simp only [UInt8.toNat_ofNat']
      omega
    have high : (b.toNat + 256 * value bs) / 256 = value bs := by omega
    simp only [List.length_cons, value, digits, low, high, ih]

def IsLong (x : Int) : Prop := -9223372036854775808 ≤ x ∧ x < 9223372036854775808

instance (x : Int) : Decidable (IsLong x) := inferInstanceAs (Decidable (_ ∧ _))

/-- The eight bytes of a long in host order. -/
def ofLong (x : Int) : List UInt8 := digits 8 (x % 18446744073709551616).toNat

/-- The long held by eight bytes in host order. -/
def toLong (bs : List UInt8) : Int :=
  if value bs % 18446744073709551616 < 9223372036854775808 then
    (value bs % 18446744073709551616 : Nat)
  else (value bs % 18446744073709551616 : Nat) - 18446744073709551616

@[simp] theorem length_ofLong (x : Int) : (ofLong x).length = 8 := by simp [ofLong]

theorem toLong_isLong (bs : List UInt8) : IsLong (toLong bs) := by
  unfold IsLong toLong
  split <;> omega

theorem toLong_ofLong {x : Int} (hx : IsLong x) : toLong (ofLong x) = x := by
  obtain ⟨low, high⟩ := hx
  have hv : value (ofLong x) = (x % 18446744073709551616).toNat := by
    rw [ofLong, value_digits]
    exact Nat.mod_eq_of_lt (by omega)
  unfold toLong
  rw [hv]
  split <;> omega

theorem ofLong_toLong {bs : List UInt8} (len : bs.length = 8) : ofLong (toLong bs) = bs := by
  have hlt := value_lt bs
  have hd := digits_value bs
  rw [len] at hlt hd
  have hv : (toLong bs % 18446744073709551616).toNat = value bs := by
    unfold toLong
    split <;> omega
  rw [ofLong, hv, hd]

def bswap64 (x : Int) : Int := toLong (ofLong x).reverse

theorem bswap64_isLong (x : Int) : IsLong (bswap64 x) := toLong_isLong _

theorem ofLong_bswap64 (x : Int) : ofLong (bswap64 x) = (ofLong x).reverse :=
  ofLong_toLong (by simp)

@[simp] theorem bswap64_bswap64 {x : Int} (hx : IsLong x) : bswap64 (bswap64 x) = x := by
  rw [bswap64, ofLong_bswap64, List.reverse_reverse, toLong_ofLong hx]

/-- Overwrite the bytes of `buf` from offset `off` on. -/
def poke (buf : List UInt8) (off : Nat) (bs : List UInt8) : List UInt8 :=
  buf.take off ++ bs ++ buf.drop (off + bs.length)

/-- Read `n` bytes of `buf` from offset `off` on. -/
def peek (buf : List UInt8) (off n : Nat) : List UInt8 := (buf.drop off).take n

def stLong (buf : List UInt8) (off : Nat) (x : Int) : List UInt8 := poke buf off (ofLong x)

def ldLong (buf : List UInt8) (off : Nat) : Int := toLong (peek buf off 8)

theorem length_poke {buf bs : List UInt8} {off : Nat} (fits : off + bs.length ≤ buf.length) :
    (poke buf off bs).length = buf.length := by
  simp only [poke, List.length_append, List.length_take, List.length_drop]
  omega

/-- Writing never makes a buffer shorter. -/
theorem le_length_poke (buf : List UInt8) (off : Nat) (bs : List UInt8) :
    buf.length ≤ (poke buf off bs).length := by
  simp only [poke, List.length_append, List.length_take, List.length_drop]
  omega

theorem length_stLong {buf : List UInt8} {off : Nat} {x : Int} (fits : off + 8 ≤ buf.length) :
    (stLong buf off x).length = buf.length := length_poke (by simpa using fits)

/-- A write at the cursor appends to what lies before the cursor. -/
theorem take_poke_append {buf bs : List UInt8} {off : Nat} (fits : off ≤ buf.length) :
    (poke buf off bs).take (off + bs.length) = buf.take off ++ bs := by
  have hlen : (buf.take off ++ bs).length = off + bs.length := by
    simp only [List.length_append, List.length_take]
    omega
  rw [poke, ← hlen, List.take_left]

/-- A write leaves everything before its offset alone. -/
theorem take_poke_before {buf bs : List UInt8} {off n : Nat} (before : n ≤ off)
    (fits : off ≤ buf.length) : (poke buf off bs).take n = buf.take n := by
  have hlen : n ≤ (buf.take off).length := by
    simp only [List.length_take]
    omega
  rw [poke, List.append_assoc, List.take_append_of_le_length hlen, List.take_take,
    Nat.min_eq_left before]

/-- A write inside a longer prefix replaces just its own bytes. -/
theorem take_poke_inside {buf bs : List UInt8} {off n : Nat} (inside : off + bs.length ≤ n)
    (fits : n ≤ buf.length) :
    (poke buf off bs).take n = poke (buf.take n) off bs := by
  have hfirst : (buf.take off ++ bs).length = off + bs.length := by
    simp only [List.length_append, List.length_take]
    omega
  rw [poke, poke, List.take_append, List.take_of_length_le (by omega), hfirst, List.take_take,
    Nat.min_eq_left (by omega), List.drop_take]

theorem peek_poke {buf bs : List UInt8} {off : Nat} (fits : off ≤ buf.length) :
    peek (poke buf off bs) off bs.length = bs := by
  have hlen : (buf.take off).length = off := by
    simp only [List.length_take]
    omega
  rw [peek, poke, List.append_assoc, List.drop_append_of_le_length (by omega),
    List.drop_of_length_le (by omega), List.nil_append, List.take_left]

theorem ldLong_stLong {buf : List UInt8} {off : Nat} {x : Int} (hx : IsLong x)
    (fits : off ≤ buf.length) : ldLong (stLong buf off x) off = x := by
  have h : peek (poke buf off (ofLong x)) off (ofLong x).length = ofLong x := peek_poke fits
  rw [length_ofLong] at h
  rw [ldLong, stLong, h, toLong_ofLong hx]

/-- Loads look only at the prefix that holds the loaded bytes. -/
theorem peek_take {buf : List UInt8} {off n m : Nat} (inside : off + n ≤ m) :
    peek (buf.take m) off n = peek buf off n := by
  simp only [peek, List.drop_take, List.take_take]
  rw [Nat.min_eq_left (by omega)]

theorem ldLong_take {buf : List UInt8} {off m : Nat} (inside : off + 8 ≤ m) :
    ldLong (buf.take m) off = ldLong buf off := by
  rw [ldLong, ldLong, peek_take inside]

theorem peek_drop (buf : List UInt8) (n off k : Nat) :
    peek (buf.drop n) off k = peek buf (n + off) k := by
  rw [peek, peek, List.drop_drop]

theorem length_peek {x : List UInt8} {off n : Nat} (inside : off + n ≤ x.length) :
    (peek x off n).length = n := by
  rw [peek, List.length_take, List.length_drop]
  omega

/-- Where two buffers agree, their parts agree. -/
theorem peek_part {x y : List UInt8} {off off' n : Nat}
    (same : peek x off n = peek y off' n) {i m : Nat}
    (inside : i + m ≤ n) : peek x (off + i) m = peek y (off' + i) m := by
  have part : ∀ (z : List UInt8) (o : Nat), peek z (o + i) m = peek (peek z o n) i m := by
    intro z o
    unfold peek
    rw [List.drop_take, List.take_take, List.drop_drop, Nat.min_eq_left (by omega)]
  rw [part x, part y, same]

theorem peek_split {x : List UInt8} (off : Nat) {m n : Nat} (less : m ≤ n) :
    peek x off n = peek x off m ++ peek x (off + m) (n - m) := by
  unfold peek
  rw [← List.drop_drop, ← List.take_add]
  congr 1
  omega

/-- Loads do not see what is appended behind them. -/
theorem peek_append_left {buf more : List UInt8} {off n : Nat} (inside : off + n ≤ buf.length) :
    peek (buf ++ more) off n = peek buf off n := by
  rw [peek, List.drop_append_of_le_length (by omega), List.take_append_of_le_length, peek]
  simp only [List.length_drop]
  omega

theorem peek_append (pre bs post : List UInt8) :
    peek (pre ++ (bs ++ post)) pre.length bs.length = bs := by
  rw [peek, List.drop_left, List.take_left]

theorem ldLong_append {x : Int} (hx : IsLong x) (pre post : List UInt8) :
    ldLong (pre ++ (ofLong x ++ post)) pre.length = x := by
  have h := peek_append pre (ofLong x) post
  rw [length_ofLong] at h
  rw [ldLong, h, toLong_ofLong hx]

/-- A write inside the middle part of a buffer. -/
theorem poke_append {pre mid post bs : List UInt8} (same : bs.length = mid.length) :
    poke (pre ++ (mid ++ post)) pre.length bs = pre ++ (bs ++ post) := by
  rw [poke, List.take_left, ← List.drop_drop, List.drop_left, same, List.drop_left,
    List.append_assoc]

end Bytes
