import Mathlib.Data.Nat.Basic

/-!
# Recurrences with a lag, in a circular buffer

A word of the stream depends on the word a whole buffer before it, on the one after that, and
on the one a lag after that. A buffer of that size holds a window of the stream, each word at
its place modulo the size. Replacing the oldest word by the next one moves the window on by
one, whoever does it and in whatever portions.
-/

namespace Lagged

/-- The size of the buffer, and the lag. -/
structure Shape where
  size : Nat
  lag : Nat
  lag_pos : 0 < lag
  lag_lt : lag < size

variable {α : Type} (shape : Shape) (next : α → α → α → α)

def stream (first : Vector α shape.size) (k : Nat) : α :=
  if h : k < shape.size then first[k]
  else next (stream first (k - shape.size)) (stream first (k - shape.size + 1))
    (stream first (k - shape.size + shape.lag))
termination_by k
decreasing_by
  all_goals
    have := shape.lag_pos
    have := shape.lag_lt
    omega

variable {shape} {next} {first buffer : Vector α shape.size} {n : Nat}

theorem stream_first {k : Nat} (h : k < shape.size) : stream shape next first k = first[k] := by
  rw [stream, dif_pos h]

theorem stream_next (k : Nat) :
    stream shape next first (k + shape.size) =
      next (stream shape next first k) (stream shape next first (k + 1))
        (stream shape next first (k + shape.lag)) := by
  rw [stream, dif_neg (by omega), Nat.add_sub_cancel]

variable (next) in
def Window (first : Vector α shape.size) (n : Nat) (buffer : Vector α shape.size) : Prop :=
  ∀ m k (h : k < shape.size), n ≤ m → m < n + shape.size → m % shape.size = k →
    buffer[k] = stream shape next first m

theorem window_first : Window next first 0 first := by
  intro m k h _ less place
  rw [Nat.zero_add] at less
  rw [Nat.mod_eq_of_lt less] at place
  subst place
  exact (stream_first h).symm

variable {i i2 j : Nat}

/-- The words at the three places give the next word of the stream. -/
theorem Window.next_eq (h : Window next first n buffer) (less : i < shape.size)
    (less2 : i2 < shape.size)
    (lessj : j < shape.size) (index : n % shape.size = i) (at2 : (n + 1) % shape.size = i2)
    (atj : (n + shape.lag) % shape.size = j) :
    next buffer[i] buffer[i2] buffer[j] = stream shape next first (n + shape.size) := by
  have := shape.lag_pos
  have := shape.lag_lt
  rw [stream_next, h n i less (Nat.le_refl n) (by omega) index,
    h (n + 1) i2 less2 (by omega) (by omega) at2, h (n + shape.lag) j lessj (by omega) (by omega) atj]

/-- The next word in the place of the oldest moves the window on. -/
theorem Window.advance (h : Window next first n buffer) (less : i < shape.size)
    (index : n % shape.size = i)
    {word : α} (word_eq : word = stream shape next first (n + shape.size)) :
    Window next first (n + 1) (buffer.set i word) := by
  intro m k hk low high place
  by_cases last : m = n + shape.size
  · subst last
    rw [Nat.add_mod_right, index] at place
    subst place
    rw [Vector.getElem_set_self, word_eq]
  · have other : i ≠ k := by
      rintro rfl
      -- two numbers less than a buffer apart have different places
      rw [← index] at place
      have apart : (m - n) % shape.size = 0 := Nat.sub_mod_eq_zero_of_mod_eq place
      rw [Nat.mod_eq_of_lt (by omega)] at apart
      omega
    rw [Vector.getElem_set_ne less hk other]
    exact h m k hk (by omega) (by omega) place

end Lagged
