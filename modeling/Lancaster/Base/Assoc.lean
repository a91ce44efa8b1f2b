import Mathlib.Data.List.Pairwise
import Mathlib.Tactic.Common

/-!
# Association lists under a given equality

Keys are compared by a test that the list does not choose: two keys may be equal without being the
same. The first entry under an equal key is the one that counts; in a list whose keys are pairwise
different there is at most one such entry, and the list stands for a finite map on the classes of
keys.
-/

namespace Assoc

variable {K V : Type} {eq : K → K → Bool}

/-- The value of the first entry under an equal key. -/
def find (eq : K → K → Bool) (key : K) : List (K × V) → Option V
  | [] => none
  | e :: rest => if eq e.1 key then some e.2 else find eq key rest

/-- A new value for the first entry under an equal key, which keeps its own key. -/
def replace (eq : K → K → Bool) (key : K) (val : V) : List (K × V) → Option (List (K × V))
  | [] => none
  | e :: rest =>
    if eq e.1 key then some ((e.1, val) :: rest) else (replace eq key val rest).map (e :: ·)

/-- The first entry under an equal key, and the list without it. -/
def unlink (eq : K → K → Bool) (key : K) : List (K × V) → Option ((K × V) × List (K × V))
  | [] => none
  | e :: rest =>
    if eq e.1 key then some (e, rest) else (unlink eq key rest).map fun r => (r.1, e :: r.2)

def Distinct (eq : K → K → Bool) (l : List (K × V)) : Prop :=
  l.Pairwise fun a b => eq a.1 b.1 = false

abbrev IsEquiv (eq : K → K → Bool) : Prop := Equivalence fun a b => eq a b = true

namespace IsEquiv

variable (equiv : IsEquiv eq)
include equiv

theorem comm (a b : K) : eq a b = eq b a := by
  apply Bool.eq_iff_iff.mpr
  constructor
  · exact equiv.symm
  · exact equiv.symm

/-- Equal keys are told from a third in the same way. -/
theorem congr {a b : K} (c : K) (same : eq a b = true) : eq a c = eq b c := by
  apply Bool.eq_iff_iff.mpr
  constructor
  · exact equiv.trans (equiv.symm same)
  · exact equiv.trans same

end IsEquiv

theorem find_eq_none {key : K} {l : List (K × V)} :
    find eq key l = none ↔ ∀ e ∈ l, eq e.1 key = false := by
  induction l with
  | nil => simp [find]
  | cons e rest ih =>
    by_cases here : eq e.1 key = true
    · simp [find, here]
    · simp [find, here, ih]

/-! ## A value that is replaced -/

theorem replace_eq_none {key : K} {val : V} {l : List (K × V)} :
    replace eq key val l = none ↔ find eq key l = none := by
  induction l with
  | nil => simp [replace, find]
  | cons e rest ih =>
    by_cases here : eq e.1 key = true
    · simp [replace, find, here]
    · simpa [replace, find, here] using ih

theorem find_replace (equiv : IsEquiv eq) {key : K} {val : V} {l l' : List (K × V)}
    (h : replace eq key val l = some l') (other : K) :
    find eq other l' = if eq key other then some val else find eq other l := by
  induction l generalizing l' with
  | nil => simp [replace] at h
  | cons e rest ih =>
    by_cases here : eq e.1 key = true
    · rw [replace, if_pos here, Option.some.injEq] at h
      subst h
      by_cases same : eq key other = true
      · simp [find, equiv.congr other here, same]
      · simp [find, equiv.congr other here, same]
    · rw [replace, if_neg here, Option.map_eq_some_iff] at h
      obtain ⟨tail, found, rfl⟩ := h
      by_cases first : eq e.1 other = true
      · -- the key that is replaced cannot be equal to this one
        have apart : ¬ eq key other = true := fun same =>
          here (equiv.trans first (equiv.symm same))
        simp [find, first, apart]
      · simp [find, first, ih found]

theorem keys_replace {key : K} {val : V} {l l' : List (K × V)}
    (h : replace eq key val l = some l') : l'.map Prod.fst = l.map Prod.fst := by
  induction l generalizing l' with
  | nil => simp [replace] at h
  | cons e rest ih =>
    by_cases here : eq e.1 key = true
    · rw [replace, if_pos here, Option.some.injEq] at h
      subst h
      rfl
    · rw [replace, if_neg here, Option.map_eq_some_iff] at h
      obtain ⟨tail, found, rfl⟩ := h
      simp [ih found]

/-! ## An entry that is taken out -/

theorem unlink_eq_none {key : K} {l : List (K × V)} :
    unlink eq key l = none ↔ find eq key l = none := by
  induction l with
  | nil => simp [unlink, find]
  | cons e rest ih =>
    by_cases here : eq e.1 key = true
    · simp [unlink, find, here]
    · simpa [unlink, find, here] using ih

theorem sublist_unlink {key : K} {l l' : List (K × V)} {e : K × V}
    (h : unlink eq key l = some (e, l')) : l'.Sublist l := by
  induction l generalizing l' with
  | nil => simp [unlink] at h
  | cons a rest ih =>
    by_cases here : eq a.1 key = true
    · rw [unlink, if_pos here, Option.some.injEq, Prod.mk.injEq] at h
      rw [← h.2]
      exact List.sublist_cons_self a rest
    · rw [unlink, if_neg here, Option.map_eq_some_iff] at h
      obtain ⟨⟨b, tail⟩, found, same⟩ := h
      obtain ⟨rfl, rfl⟩ := Prod.mk.inj same
      exact (ih found).cons_cons a

theorem find_none_of_distinct (equiv : IsEquiv eq) {key : K} {e : K × V} {rest : List (K × V)}
    (distinct : Distinct eq (e :: rest)) (here : eq e.1 key = true) :
    find eq key rest = none := by
  apply find_eq_none.mpr
  intro a among
  rw [equiv.comm, ← equiv.congr a.1 here]
  exact (List.pairwise_cons.mp distinct).1 a among

theorem find_unlink (equiv : IsEquiv eq) {key : K} {l l' : List (K × V)} {e : K × V}
    (distinct : Distinct eq l) (h : unlink eq key l = some (e, l')) (other : K) :
    find eq other l' = if eq key other then none else find eq other l := by
  induction l generalizing l' with
  | nil => simp [unlink] at h
  | cons a rest ih =>
    by_cases here : eq a.1 key = true
    · rw [unlink, if_pos here, Option.some.injEq, Prod.mk.injEq] at h
      rw [← h.2]
      by_cases same : eq key other = true
      · have there : eq a.1 other = true := equiv.trans here same
        simp [same, find_none_of_distinct equiv distinct there]
      · simp [find, equiv.congr other here, same]
    · rw [unlink, if_neg here, Option.map_eq_some_iff] at h
      obtain ⟨⟨b, tail⟩, found, same⟩ := h
      obtain ⟨rfl, rfl⟩ := Prod.mk.inj same
      by_cases first : eq a.1 other = true
      · have apart : ¬ eq key other = true := fun same =>
          here (equiv.trans first (equiv.symm same))
        simp [find, first, apart]
      · simp [find, first, ih (List.Pairwise.of_cons distinct) found]

/-! ## The list as a map -/

theorem distinct_replace {key : K} {val : V} {l l' : List (K × V)}
    (distinct : Distinct eq l) (h : replace eq key val l = some l') : Distinct eq l' := by
  have keys : (l'.map Prod.fst).Pairwise fun a b => eq a b = false := by
    rw [keys_replace h]
    exact List.pairwise_map.mpr distinct
  exact List.pairwise_map.mp keys

/-- A new key may stand at the head. -/
theorem distinct_cons (equiv : IsEquiv eq) {key : K} {val : V} {l : List (K × V)}
    (distinct : Distinct eq l) (absent : find eq key l = none) :
    Distinct eq ((key, val) :: l) := by
  refine List.pairwise_cons.mpr ⟨fun e he => ?_, distinct⟩
  rw [equiv.comm]
  exact find_eq_none.mp absent e he

theorem find_eq_some (equiv : IsEquiv eq) {key : K} {val : V} {l : List (K × V)}
    (distinct : Distinct eq l) :
    find eq key l = some val ↔ ∃ k, (k, val) ∈ l ∧ eq k key = true := by
  induction l with
  | nil => simp [find]
  | cons e rest ih =>
    by_cases here : eq e.1 key = true
    · have gone := find_eq_none.mp (find_none_of_distinct equiv distinct here)
      constructor
      · intro h
        simp only [find, here, if_true, Option.some.injEq] at h
        exact ⟨e.1, by simp [← h], here⟩
      · rintro ⟨k, among, same⟩
        rcases List.mem_cons.mp among with rfl | among
        · simp [find, here]
        · exact absurd same (by simp [gone _ among])
    · rw [find, if_neg here, ih (List.Pairwise.of_cons distinct)]
      constructor
      · rintro ⟨k, among, same⟩
        exact ⟨k, List.mem_cons_of_mem e among, same⟩
      · rintro ⟨k, among, same⟩
        rcases List.mem_cons.mp among with rfl | among
        · exact absurd same here
        · exact ⟨k, among, same⟩

end Assoc
