import Lancaster.Base.Bytes

/-!
# Writes into a buffer

A list of patches is written into a buffer one after the other. Where they touch no byte
twice, each of them is found in the result, everything else is as before, and the buffer
is unchanged exactly if it held all of them already.
-/

namespace Bytes

/-- Bytes that are written from an offset on. -/
structure Patch where
  off : Nat
  data : List UInt8

namespace Patch

/-- Whether the range of `n` bytes from `off` on has no byte in common with the patch. -/
def Avoids (p : Patch) (off n : Nat) : Prop := p.off + p.data.length ≤ off ∨ off + n ≤ p.off

def Apart (p q : Patch) : Prop := p.Avoids q.off q.data.length

def Within (p : Patch) (size : Nat) : Prop := p.off + p.data.length ≤ size

def Found (p : Patch) (buf : List UInt8) : Prop := peek buf p.off p.data.length = p.data

end Patch

/-! ## Fixed places -/

/-- The patch starts where the place does, and does not go beyond it. A place is an offset and a
size. -/
def Patch.Fills (p : Patch) (place : Nat × Nat) : Prop := p.off = place.1 ∧ p.data.length ≤ place.2

section Places

variable {ps : List Patch} {places : List (Nat × Nat)} (fills : List.Forall₂ Patch.Fills ps places)
include fills

theorem place_of_mem {p : Patch} (here : p ∈ ps) : ∃ place ∈ places, p.Fills place := by
  induction fills with
  | nil => exact absurd here List.not_mem_nil
  | @cons q place ps places first _ ih =>
    rcases List.mem_cons.mp here with rfl | here
    · exact ⟨place, List.mem_cons_self .., first⟩
    · obtain ⟨other, there, filled⟩ := ih here
      exact ⟨other, List.mem_cons_of_mem _ there, filled⟩

theorem within_of_places {size : Nat} (inside : ∀ place ∈ places, place.1 + place.2 ≤ size) :
    ∀ p ∈ ps, p.Within size := by
  intro p here
  obtain ⟨place, there, off, len⟩ := place_of_mem fills here
  have := inside place there
  unfold Patch.Within
  omega

theorem apart_of_places
    (apart : places.Pairwise fun s t => s.1 + s.2 ≤ t.1 ∨
    t.1 + t.2 ≤ s.1) : ps.Pairwise Patch.Apart := by
  induction fills with
  | nil => exact .nil
  | @cons p place ps places first others ih =>
    obtain ⟨here, rest⟩ := List.pairwise_cons.mp apart
    refine List.pairwise_cons.mpr ⟨?_, ih rest⟩
    intro q listed
    obtain ⟨place', there, off', len'⟩ := place_of_mem others listed
    obtain ⟨off, len⟩ := first
    unfold Patch.Apart Patch.Avoids
    rcases here place' there with before | behind
    · left
      omega
    · right
      omega

end Places

def patch (buf : List UInt8) : List Patch → List UInt8
  | [] => buf
  | p :: rest => patch (poke buf p.off p.data) rest

variable {buf : List UInt8} {p : Patch} {ps : List Patch} {off n : Nat}

theorem patch_append (ps qs : List Patch) : patch buf (ps ++ qs) = patch (patch buf ps) qs := by
  induction ps generalizing buf with
  | nil => rfl
  | cons p rest ih => exact ih

theorem length_patch (within : ∀ p ∈ ps, p.Within buf.length) :
    (patch buf ps).length = buf.length := by
  induction ps generalizing buf with
  | nil => rfl
  | cons p rest ih =>
    have same := length_poke (within p (List.mem_cons_self ..))
    rw [patch, ih, same]
    intro q here
    rw [same]
    exact within q (List.mem_cons_of_mem _ here)

/-- A write leaves the bytes outside its range alone. -/
theorem peek_poke_apart (within : p.Within buf.length) (apart : p.Avoids off n) :
    peek (poke buf p.off p.data) off n = peek buf off n := by
  have len : (buf.take p.off ++ p.data).length = p.off + p.data.length := by
    simp only [List.length_append, List.length_take]
    have : p.off + p.data.length ≤ buf.length := within
    omega
  rcases apart with behind | before
  · unfold peek poke
    rw [List.drop_append, len, List.drop_of_length_le (by omega), List.nil_append, List.drop_drop]
    congr 2
    omega
  · have fits : p.off ≤ buf.length := by
      have : p.off + p.data.length ≤ buf.length := within
      omega
    rw [← peek_take (le_refl (off + n)), take_poke_before before fits, peek_take (le_refl _)]

theorem peek_patch_apart (within : ∀ p ∈ ps, p.Within buf.length)
    (apart : ∀ p ∈ ps, p.Avoids off n) :
    peek (patch buf ps) off n = peek buf off n := by
  induction ps generalizing buf with
  | nil => rfl
  | cons p rest ih =>
    have first := within p (List.mem_cons_self ..)
    rw [patch, ih, peek_poke_apart first (apart p (List.mem_cons_self ..))]
    · intro q here
      rw [length_poke first]
      exact within q (List.mem_cons_of_mem _ here)
    · exact fun q here => apart q (List.mem_cons_of_mem _ here)

/-- Writing what is there changes nothing. -/
theorem poke_found (found : p.Found buf) : poke buf p.off p.data = buf := by
  have rest : p.data ++ buf.drop (p.off + p.data.length) = buf.drop p.off := by
    nth_rewrite 1 [← found]
    unfold peek
    rw [← List.drop_drop, List.take_append_drop]
  rw [poke, List.append_assoc, rest, List.take_append_drop]

/-- Each patch is found in the result. -/
theorem found_patch (within : ∀ p ∈ ps, p.Within buf.length) (apart : ps.Pairwise Patch.Apart) :
    ∀ p ∈ ps, p.Found (patch buf ps) := by
  induction ps generalizing buf with
  | nil => exact nofun
  | cons q rest ih =>
    have first := within q (List.mem_cons_self ..)
    have size := length_poke first
    have later : ∀ p ∈ rest, p.Within (poke buf q.off q.data).length := by
      intro p here
      rw [size]
      exact within p (List.mem_cons_of_mem _ here)
    obtain ⟨others, apart⟩ := List.pairwise_cons.mp apart
    intro p here
    rcases List.mem_cons.mp here with rfl | here
    · show peek (patch (poke buf p.off p.data) rest) p.off p.data.length = p.data
      rw [peek_patch_apart later]
      · apply peek_poke
        have : p.off + p.data.length ≤ buf.length := first
        omega
      · intro r there
        rcases others r there with behind | before
        · exact Or.inr behind
        · exact Or.inl before
    · exact ih later apart p here

/-- The buffer stays as it is exactly if it held every patch. -/
theorem patch_eq_self_iff (within : ∀ p ∈ ps, p.Within buf.length)
    (apart : ps.Pairwise Patch.Apart) :
    patch buf ps = buf ↔ ∀ p ∈ ps, p.Found buf := by
  constructor
  · intro same p here
    have := found_patch within apart p here
    rw [same] at this
    exact this
  · intro found
    clear within apart
    induction ps with
    | nil => rfl
    | cons q rest ih =>
      rw [patch, poke_found (found q (List.mem_cons_self ..))]
      exact ih fun p here => found p (List.mem_cons_of_mem _ here)

/-! ## Words -/

theorem poke_poke {bs cs : List UInt8} (same : bs.length = cs.length) (fits : off ≤ buf.length) :
    poke (poke buf off bs) off cs = poke buf off cs := by
  have len : (buf.take off).length = off := by
    rw [List.length_take]
    omega
  have front : (poke buf off bs).take off = buf.take off := take_poke_before (le_refl off) fits
  have back : (poke buf off bs).drop (off + cs.length) = buf.drop (off + cs.length) := by
    rw [poke, ← same, List.drop_append_of_le_length, List.drop_of_length_le, List.nil_append]
    · rw [List.length_append, len]
    · rw [List.length_append, len]
  rw [poke, front, back]
  rfl

/-- The word that is there. -/
theorem stLong_ldLong (fits : off + 8 ≤ buf.length) : stLong buf off (ldLong buf off) = buf := by
  have same : ofLong (ldLong buf off) = peek buf off 8 := ofLong_toLong (length_peek fits)
  have found : Patch.Found ⟨off, ofLong (ldLong buf off)⟩ buf := by
    rw [Patch.Found, length_ofLong]
    exact same.symm
  exact poke_found found

/-- A word that is written back leaves no trace of another that was there meanwhile. -/
theorem stLong_restores (x : Int) (fits : off + 8 ≤ buf.length) :
    stLong (stLong buf off x) off (ldLong buf off) = buf := by
  have twice : stLong (stLong buf off x) off (ldLong buf off) = stLong buf off (ldLong buf off) :=
    poke_poke (by rw [length_ofLong, length_ofLong]) (by omega)
  rw [twice, stLong_ldLong fits]

theorem ldLong_stLong_apart {off' : Nat} (x : Int) (fits : off + 8 ≤ buf.length)
    (apart : off + 8 ≤ off' ∨ off' + 8 ≤ off) :
    ldLong (stLong buf off x) off' = ldLong buf off' := by
  have within : Patch.Within ⟨off, ofLong x⟩ buf.length := by
    rw [Patch.Within, length_ofLong]
    exact fits
  have avoids : Patch.Avoids ⟨off, ofLong x⟩ off' 8 := by
    rw [Patch.Avoids, length_ofLong]
    exact apart
  rw [ldLong, ldLong, stLong]
  exact congrArg toLong (peek_poke_apart within avoids)

end Bytes
