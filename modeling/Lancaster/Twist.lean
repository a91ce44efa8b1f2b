import Lancaster.Base.Lagged

/-!
# The Mersenne Twister

`twist_rand` makes one new word at each call, in the place of the oldest one. The reference
algorithm makes all 624 words of a block before the first of them is used. Both are windows on
one stream of words.
-/

namespace Lancaster

structure Twist where
  index : Nat
  buffer : Vector UInt32 624
  index_lt : index < 624

namespace Twist

def seedNext (word : UInt32) (i : Nat) : UInt32 :=
  (1812433253 : UInt32) * (word ^^^ (word >>> 30)) + UInt32.ofNat i

def twistSeed (twist : Twist) (seed : UInt32) : Twist where
  index := 0
  buffer := Nat.fold 623 (fun i _ buffer => buffer.set (i + 1) (seedNext buffer[i] (i + 1)))
    (twist.buffer.set 0 seed)
  index_lt := by decide

/-- The new word, of the word at the index, the one after it and the one at the lag. -/
def twisted (first second lagged : UInt32) : UInt32 :=
  let s := (first &&& 0x80000000) ||| (second &&& 0x7FFFFFFF)
  lagged ^^^ (s >>> 1) ^^^ ((s &&& 1) * 0x9908B0DF)

def temper (r : UInt32) : UInt32 :=
  let r := r ^^^ (r >>> 11)
  let r := r ^^^ ((r <<< 7) &&& 0x9D2C5680)
  let r := r ^^^ ((r <<< 15) &&& 0xEFC60000)
  r ^^^ (r >>> 18)

def twistRand (twist : Twist) : UInt32 × Twist :=
  let i := twist.index
  let i2 := if i + 1 ≥ 624 then 0 else i + 1
  let j := if i + 397 ≥ 624 then i + 397 - 624 else i + 397
  have less : i < 624 := twist.index_lt
  have less2 : i2 < 624 := by dsimp only [i2]; split <;> omega
  have lessj : j < 624 := by dsimp only [j]; split <;> omega
  let r := twisted twist.buffer[i] twist.buffer[i2] twist.buffer[j]
  (temper r, { index := i2, buffer := twist.buffer.set i r, index_lt := less2 })

def after (twist : Twist) : Nat → Twist
  | 0 => twist
  | n + 1 => (twist.after n).twistRand.2

def value (twist : Twist) (n : Nat) : UInt32 := (twist.after n).twistRand.1

end Twist

/-! ## The reference -/

structure Mt19937 where
  mt : Vector UInt32 624
  mti : Nat

namespace Mt19937

/-- The seed recurrence, on whole numbers and reduced to 32 bits. -/
def seedWord (seed : UInt32) : Nat → UInt32
  | 0 => seed
  | i + 1 =>
    let x := (seedWord seed i).toNat
    UInt32.ofNat (1812433253 * (x ^^^ (x >>> 30)) + (i + 1))

def initGenrand (seed : UInt32) : Mt19937 where
  mt := Vector.ofFn fun i => seedWord seed i
  mti := 624

def mag01 (y : UInt32) : UInt32 := if y &&& 1 = 0 then 0 else 0x9908B0DF

def word (first second lagged : UInt32) : UInt32 :=
  let y := (first &&& 0x80000000) ||| (second &&& 0x7FFFFFFF)
  lagged ^^^ (y >>> 1) ^^^ mag01 y

/-- All words of the next block: up to the last whose lag is in the block, up to the last but
one, and the last. -/
def generate (mt : Vector UInt32 624) : Vector UInt32 624 :=
  let mt := Nat.fold 227 (fun kk _ mt => mt.set kk (word mt[kk] mt[kk + 1] mt[kk + 397])) mt
  let mt := Nat.fold 396 (fun k _ mt =>
    mt.set (k + 227) (word mt[k + 227] mt[k + 227 + 1] mt[k])) mt
  mt.set 623 (word mt[623] mt[0] mt[396])

/-- The tempering `(u, s, t, l) = (11, 7, 15, 18)` with its two masks. -/
def tempering (x : UInt32) : UInt32 :=
  let y := x ^^^ (x >>> 11)
  let y := y ^^^ ((y <<< 7) &&& 2636928640)
  let y := y ^^^ ((y <<< 15) &&& 4022730752)
  y ^^^ (y >>> 18)

def genrandInt32 (state : Mt19937) : UInt32 × Mt19937 :=
  if h : state.mti < 624 then (tempering state.mt[state.mti], { state with mti := state.mti + 1 })
  else
    let mt := generate state.mt
    (tempering mt[0], ⟨mt, 1⟩)

def after (state : Mt19937) : Nat → Mt19937
  | 0 => state
  | n + 1 => (state.after n).genrandInt32.2

def value (state : Mt19937) (n : Nat) : UInt32 := (state.after n).genrandInt32.1

/-! ## One stream of words -/

def shape : Lagged.Shape := ⟨624, 397, by decide, by decide⟩

def words (seed : UInt32) (k : Nat) : UInt32 := Lagged.stream shape word (initGenrand seed).mt k

def Holds (seed : UInt32) (n : Nat) (buffer : Vector UInt32 624) : Prop :=
  @Lagged.Window UInt32 shape word (initGenrand seed).mt n buffer

theorem mag01_eq (y : UInt32) : mag01 y = (y &&& 1) * 0x9908B0DF := by
  have bit : y &&& 1 = 0 ∨ y &&& 1 = 1 := by
    rw [← UInt32.toNat_inj, ← UInt32.toNat_inj, UInt32.toNat_and]
    have : y.toNat &&& 1 = y.toNat % 2 := Nat.and_one_is_mod _
    simp only [UInt32.reduceToNat]
    omega
  unfold mag01
  rcases bit with bit | bit <;> rw [bit] <;> decide

theorem word_eq_twisted : word = Twist.twisted := by
  funext first second lagged
  unfold word Twist.twisted
  dsimp only
  rw [mag01_eq]

theorem tempering_eq_temper : tempering = Twist.temper := rfl

/-- The arithmetic of `twist_seed` is that of the recurrence. -/
theorem seedWord_succ (seed : UInt32) (i : Nat) :
    seedWord seed (i + 1) = Twist.seedNext (seedWord seed i) (i + 1) := by
  rw [← UInt32.toNat_inj]
  simp only [seedWord, Twist.seedNext, UInt32.toNat_ofNat', UInt32.toNat_add, UInt32.toNat_mul,
    UInt32.toNat_xor, UInt32.toNat_shiftRight, Nat.shiftRight_eq_div_pow]
  simp

/-- After `n` rounds of the loop of `twist_seed` the first words are those of the seed. -/
theorem seeded (seed : UInt32) (n : Nat) (most : n ≤ 623) (buffer : Vector UInt32 624)
    (k : Nat) (h : k ≤ n) :
    (Nat.fold n (fun i _ buffer => buffer.set (i + 1) (Twist.seedNext buffer[i] (i + 1)))
      (buffer.set 0 seed))[k] = seedWord seed k := by
  induction n generalizing k with
  | zero =>
    obtain rfl : k = 0 := Nat.le_zero.mp h
    rw [Nat.fold_zero, Vector.getElem_set_self]
    rfl
  | succ n ih =>
    rw [Nat.fold_succ]
    by_cases last : k = n + 1
    · subst last
      rw [Vector.getElem_set_self, ih (by omega) n (Nat.le_refl n), seedWord_succ]
    · rw [Vector.getElem_set_ne _ _ (by omega)]
      exact ih (by omega) k (by omega)

/-- The words of the seed are those that `twist_seed` writes, whatever was there. -/
theorem twistSeed_buffer (twist : Twist) (seed : UInt32) :
    (twist.twistSeed seed).buffer = (initGenrand seed).mt := by
  apply Vector.ext
  intro k less
  refine (seeded seed 623 (Nat.le_refl _) twist.buffer k (by omega)).trans ?_
  unfold initGenrand
  rw [Vector.getElem_ofFn]

/-! ## One word at a time -/

theorem holds_next {seed : UInt32} {n : Nat} {buffer : Vector UInt32 624} (h : Holds seed n buffer)
    {i i2 j : Nat} (less : i < 624) (less2 : i2 < 624) (lessj : j < 624) (index : n % 624 = i)
    (at2 : (n + 1) % 624 = i2) (atj : (n + 397) % 624 = j) :
    word buffer[i] buffer[i2] buffer[j] = words seed (n + 624) := by
  have window : @Lagged.Window UInt32 shape word (initGenrand seed).mt n buffer := h
  exact window.next_eq less less2 lessj index at2 atj

/-- One word in its place moves the window on. -/
theorem holds_set {seed : UInt32} {n : Nat} {buffer : Vector UInt32 624} (h : Holds seed n buffer)
    {i i2 j : Nat} (less : i < 624) (less2 : i2 < 624) (lessj : j < 624) (index : n % 624 = i)
    (at2 : (n + 1) % 624 = i2) (atj : (n + 397) % 624 = j) :
    Holds seed (n + 1) (buffer.set i (word buffer[i] buffer[i2] buffer[j])) := by
  have window : @Lagged.Window UInt32 shape word (initGenrand seed).mt n buffer := h
  exact window.advance less index (holds_next h less less2 lessj index at2 atj)

theorem twistRand_step {seed : UInt32} {n : Nat} {twist : Twist} (h : Holds seed n twist.buffer)
    (index : n % 624 = twist.index) :
    twist.twistRand.1 = Twist.temper (words seed (n + 624)) ∧
      Holds seed (n + 1) twist.twistRand.2.buffer ∧ (n + 1) % 624 = twist.twistRand.2.index := by
  have at2 : (n + 1) % 624 = if twist.index + 1 ≥ 624 then 0 else twist.index + 1 := by
    split <;> omega
  have atj : (n + 397) % 624 =
      if twist.index + 397 ≥ 624 then twist.index + 397 - 624 else twist.index + 397 := by
    split <;> omega
  have less2 : (if twist.index + 1 ≥ 624 then 0 else twist.index + 1) < 624 := by
    split <;> omega
  have lessj : (if twist.index + 397 ≥ 624 then twist.index + 397 - 624 else twist.index + 397) < 624 := by
    split <;> omega
  have next := holds_next h twist.index_lt less2 lessj index at2 atj
  have moved := holds_set h twist.index_lt less2 lessj index at2 atj
  rw [word_eq_twisted] at next moved
  exact ⟨congrArg Twist.temper next, moved, at2⟩

/-- After `n` calls the buffer holds the words from the `n`-th on. -/
theorem twist_after (twist : Twist) (seed : UInt32) (n : Nat) :
    Holds seed n ((twist.twistSeed seed).after n).buffer ∧
      n % 624 = ((twist.twistSeed seed).after n).index := by
  induction n with
  | zero =>
    refine ⟨?_, rfl⟩
    rw [Twist.after, twistSeed_buffer]
    exact Lagged.window_first
  | succ n ih => exact (twistRand_step ih.1 ih.2).2

theorem twist_value (twist : Twist) (seed : UInt32) (n : Nat) :
    (twist.twistSeed seed).value n = Twist.temper (words seed (n + 624)) :=
  (twistRand_step (twist_after twist seed n).1 (twist_after twist seed n).2).1

/-! ## A block at a time -/

/-- The first loop, up to any of its rounds. -/
theorem first_loop {seed : UInt32} {q : Nat} {mt : Vector UInt32 624} (h : Holds seed (624 * q) mt)
    (n : Nat) (most : n ≤ 227) :
    Holds seed (624 * q + n)
      (Nat.fold n (fun kk _ mt => mt.set kk (word mt[kk] mt[kk + 1] mt[kk + 397])) mt) := by
  induction n with
  | zero => exact h
  | succ n ih =>
    rw [Nat.fold_succ]
    exact holds_set (ih (by omega)) _ _ _ (by omega) (by omega) (by omega)

/-- The second loop, where the lag is in the words that are already new. -/
theorem second_loop {seed : UInt32} {q : Nat} {mt : Vector UInt32 624}
    (h : Holds seed (624 * q + 227) mt) (n : Nat) (most : n ≤ 396) :
    Holds seed (624 * q + 227 + n)
      (Nat.fold n (fun k _ mt => mt.set (k + 227) (word mt[k + 227] mt[k + 227 + 1] mt[k])) mt) := by
  induction n with
  | zero => exact h
  | succ n ih =>
    rw [Nat.fold_succ]
    exact holds_set (ih (by omega)) _ _ _ (by omega) (by omega) (by omega)

theorem generate_holds {seed : UInt32} {q : Nat} {mt : Vector UInt32 624}
    (h : Holds seed (624 * q) mt) :
    Holds seed (624 * (q + 1)) (generate mt) := by
  have first := first_loop h 227 (Nat.le_refl _)
  have second := second_loop first 396 (Nat.le_refl _)
  exact holds_set second (by decide) (by decide) (by decide) (by omega) (by omega) (by omega)

/-- Before the `n`-th call there is a block, and its words up to `mti` have been used. -/
structure Block (seed : UInt32) (n : Nat) (state : Mt19937) : Prop where
  holds : ∃ q, Holds seed (624 * q) state.mt ∧ n + 624 = 624 * q + state.mti
  most : state.mti ≤ 624

theorem genrandInt32_step {seed : UInt32} {n : Nat} {state : Mt19937} (h : Block seed n state) :
    state.genrandInt32.1 = tempering (words seed (n + 624)) ∧
      Block seed (n + 1) state.genrandInt32.2 := by
  obtain ⟨⟨q, holds, place⟩, most⟩ := h
  unfold genrandInt32
  split
  · rename_i less
    refine ⟨?_, ⟨q, holds, by dsimp only; omega⟩, less⟩
    apply congrArg tempering
    exact holds (n + 624) state.mti less
      (by omega) (by dsimp only [shape]; omega) (by dsimp only [shape]; omega)
  · have full : state.mti = 624 := by omega
    have next := generate_holds holds
    refine ⟨?_, ⟨q + 1, next, by dsimp only; omega⟩, by dsimp only; omega⟩
    apply congrArg tempering
    exact next (n + 624) 0 (by decide) (by omega) (by dsimp only [shape]; omega)
      (by dsimp only [shape]; omega)

theorem block_after (seed : UInt32) (n : Nat) : Block seed n ((initGenrand seed).after n) := by
  induction n with
  | zero => exact ⟨⟨0, Lagged.window_first, rfl⟩, Nat.le_refl _⟩
  | succ n ih => exact (genrandInt32_step ih).2

theorem reference_value (seed : UInt32) (n : Nat) :
    (initGenrand seed).value n = tempering (words seed (n + 624)) :=
  (genrandInt32_step (block_after seed n)).1

/-- For every seed, and whatever the buffer held before, the values of `twist_rand` are those
of the reference. -/
theorem twist_rand_reference (twist : Twist) (seed : UInt32) (n : Nat) :
    (twist.twistSeed seed).value n = (initGenrand seed).value n := by
  rw [twist_value, reference_value, tempering_eq_temper]

/-- The first value, of the words of the seed. -/
theorem first_value (seed : UInt32) : (initGenrand seed).value 0 =
    tempering (word (seedWord seed 0) (seedWord seed 1) (seedWord seed 397)) := by
  have next : words seed (0 + 624) = word (words seed 0) (words seed 1) (words seed 397) :=
    Lagged.stream_next 0
  have first (k : Nat) (less : k < 624) : words seed k = seedWord seed k := by
    refine (Lagged.stream_first less).trans ?_
    unfold initGenrand
    exact Vector.getElem_ofFn _
  rw [reference_value, next, first 0 (by decide), first 1 (by decide), first 397 (by decide)]

example : tempering (word (seedWord 5489 0) (seedWord 5489 1) (seedWord 5489 397)) = 3499211612 := by
  decide +kernel

end Mt19937

end Lancaster
