import Mathlib.Order.Lattice
import Mathlib.Order.Monotone.Basic
import Mathlib.Data.List.Induction

/-!
# The least element, with a marker for none yet

A running minimum that starts at a marker `z` takes the next element whenever it finds the
marker, as if there had been none before. It cannot tell an element `z` from the marker.
-/

namespace Extremes

variable {α : Type} [LinearOrder α]

/-- The next element is taken if there is none yet, or if it is less. -/
def take (z m v : α) : α := if m = z ∨ v < m then v else m

def running (z : α) (l : List α) : α := l.foldl (take z) z

def Least (m : α) (l : List α) : Prop := m ∈ l ∧ ∀ v ∈ l, m ≤ v

theorem running_append (z : α) (l : List α) (v : α) :
    running z (l ++ [v]) = take z (running z l) v := by
  rw [running, List.foldl_append]
  rfl

/-- What the running minimum is after a list: no element is less, if one is below the marker or
all are above it; the marker itself exactly if it came last, if none is below it. -/
structure Spec (z m : α) (l : List α) : Prop where
  mem : m ∈ l ∨ l = [] ∧ m = z
  below : (∃ v ∈ l, v < z) → ∀ v ∈ l, m ≤ v
  marker : (∀ v ∈ l, z ≤ v) → (m = z ↔ l = [] ∨ l.getLast? = some z)
  above : (∀ v ∈ l, z < v) → ∀ v ∈ l, m ≤ v

variable {z m v : α} {l : List α}

theorem Spec.ge (h : Spec z m l) (all : ∀ w ∈ l, z ≤ w) : z ≤ m := by
  rcases h.mem with here | ⟨_, nothing⟩
  · exact all m here
  · rw [nothing]

theorem take_of_lt (less : v < m) : take z m v = v := if_pos (Or.inr less)

/-- A minimum that is not the marker stays one. -/
theorem take_le (other : m ≠ z) (all : ∀ w ∈ l, m ≤ w) : ∀ w ∈ l ++ [v], take z m v ≤ w := by
  have le : take z m v ≤ m ∧ take z m v ≤ v := by
    unfold take
    split
    · rename_i less
      exact ⟨le_of_lt (less.resolve_left other), le_refl _⟩
    · rename_i more
      exact ⟨le_refl _, le_of_not_gt fun less => more (Or.inr less)⟩
  intro w here
  rcases List.mem_append.mp here with here | here
  · exact le_trans le.1 (all w here)
  · rw [List.mem_singleton.mp here]
    exact le.2

theorem Spec.append (h : Spec z m l) (v : α) : Spec z (take z m v) (l ++ [v]) := by
  constructor
  · left
    unfold take
    split
    · exact List.mem_append_right _ (List.mem_singleton_self _)
    · rename_i other
      rcases h.mem with here | ⟨_, nothing⟩
      · exact List.mem_append_left _ here
      · exact absurd (Or.inl nothing) other
  · rintro ⟨w, here, less⟩
    by_cases early : ∃ w ∈ l, w < z
    · have least := h.below early
      obtain ⟨w', here', less'⟩ := early
      exact take_le (ne_of_lt (lt_of_le_of_lt (least w' here') less')) least
    · -- the first element below the marker is less than all before it
      have first : v < z := by
        rcases List.mem_append.mp here with here | here
        · exact absurd ⟨w, here, less⟩ early
        · rw [← List.mem_singleton.mp here]
          exact less
      have before : ∀ w ∈ l, z ≤ w := fun w here => le_of_not_gt fun less => early ⟨w, here, less⟩
      rw [take_of_lt (lt_of_lt_of_le first (h.ge before))]
      intro w here
      rcases List.mem_append.mp here with here | here
      · exact le_trans (le_of_lt first) (before w here)
      · rw [List.mem_singleton.mp here]
  · intro all
    have before : ∀ w ∈ l, z ≤ w := fun w here => all w (List.mem_append_left _ here)
    have last : (l ++ [v]).getLast? = some v := List.getLast?_concat
    rw [last, Option.some.injEq]
    constructor
    · intro marker
      right
      unfold take at marker
      split at marker
      · exact marker
      · rename_i other
        exact absurd (Or.inl marker) other
    · rintro (empty | rfl)
      · simp at empty
      · unfold take
        split
        · rfl
        · rename_i other
          exact absurd (lt_of_le_of_ne (h.ge before) fun eq => other (Or.inl eq.symm)) fun less =>
            other (Or.inr less)
  · intro all
    have before : ∀ w ∈ l, z < w := fun w here => all w (List.mem_append_left _ here)
    rcases h.mem with here | ⟨rfl, nothing⟩
    · exact take_le (ne_of_gt (before m here)) (h.above before)
    · intro w here
      rw [List.nil_append, List.mem_singleton] at here
      rw [here, take, if_pos (Or.inl nothing)]

theorem running_spec (z : α) (l : List α) : Spec z (running z l) l := by
  induction l using List.reverseRecOn with
  | nil =>
    refine ⟨Or.inr ⟨rfl, rfl⟩, ?_, ?_, ?_⟩
    · rintro ⟨v, here, _⟩
      cases here
    · exact fun _ => iff_of_true rfl (Or.inl rfl)
    · exact fun _ v here => absurd here List.not_mem_nil
  | append_singleton l v ih =>
    rw [running_append]
    exact ih.append v

/-- The running minimum is the least element exactly if the marker, where it is the least,
comes last. -/
theorem running_least_iff (nonempty : l ≠ []) :
    Least (running z l) l ↔ (z ∈ l → (∀ v ∈ l, z ≤ v) → l.getLast? = some z) := by
  have spec := running_spec z l
  constructor
  · intro least here all
    have marker : running z l = z := le_antisymm (least.2 z here) (spec.ge all)
    exact ((spec.marker all).mp marker).resolve_left nonempty
  · intro last
    refine ⟨spec.mem.resolve_right fun empty => nonempty empty.1, ?_⟩
    by_cases early : ∃ v ∈ l, v < z
    · exact spec.below early
    · have all : ∀ v ∈ l, z ≤ v := fun v here => le_of_not_gt fun less => early ⟨v, here, less⟩
      by_cases here : z ∈ l
      · rw [(spec.marker all).mpr (Or.inr (last here all))]
        exact all
      · apply spec.above
        intro v there
        apply lt_of_le_of_ne (all v there)
        rintro rfl
        exact here there

theorem exists_least (nonempty : l ≠ []) : ∃ m, Least m l := by
  induction l with
  | nil => exact absurd rfl nonempty
  | cons v l ih =>
    by_cases last : l = []
    · subst last
      refine ⟨v, List.mem_cons_self, ?_⟩
      intro w here
      rw [List.mem_singleton.mp here]
    obtain ⟨m, here, least⟩ := ih last
    rcases le_total v m with le | le
    · refine ⟨v, List.mem_cons_self, ?_⟩
      intro w there
      rcases List.mem_cons.mp there with rfl | there
      · exact le_refl _
      · exact le_trans le (least w there)
    · refine ⟨m, List.mem_cons_of_mem _ here, ?_⟩
      intro w there
      rcases List.mem_cons.mp there with rfl | there
      · exact le
      · exact least w there

/-- The least of what elements are rounded to is their least element exactly if that is not changed
by the rounding. -/
theorem least_map_iff {f : α → α} (mono : Monotone f) (idem : ∀ v, f (f v) = f v)
    (nonempty : l ≠ []) (rounded : m ∈ l.map f) :
    Least m l ↔ Least m (l.map f) ∧ ∀ v, Least v l → f v = v := by
  obtain ⟨w, there, rfl⟩ := List.mem_map.mp rounded
  constructor
  · rintro ⟨here, least⟩
    refine ⟨⟨rounded, ?_⟩, ?_⟩
    · intro v mapped
      obtain ⟨u, among, rfl⟩ := List.mem_map.mp mapped
      rw [← idem w]
      exact mono (least u among)
    · rintro v ⟨among, all⟩
      rw [le_antisymm (all _ here) (least v among)]
      exact idem w
  · rintro ⟨⟨_, least⟩, selects⟩
    obtain ⟨v, among, all⟩ := exists_least nonempty
    have kept := selects v ⟨among, all⟩
    have same : f w = v := by
      apply le_antisymm
      · rw [← kept]
        exact least _ (List.mem_map_of_mem among)
      · rw [← kept]
        exact mono (all w there)
    rw [same]
    exact ⟨among, all⟩

def Greatest (m : α) (l : List α) : Prop := m ∈ l ∧ ∀ v ∈ l, v ≤ m

theorem greatest_map_iff {f : α → α} (mono : Monotone f) (idem : ∀ v, f (f v) = f v)
    (nonempty : l ≠ []) (rounded : m ∈ l.map f) :
    Greatest m l ↔ Greatest m (l.map f) ∧ ∀ v, Greatest v l → f v = v :=
  @least_map_iff αᵒᵈ _ m l f mono.dual idem nonempty rounded

end Extremes
