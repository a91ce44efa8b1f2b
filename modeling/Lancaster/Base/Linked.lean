import Mathlib.Data.List.Nodup
import Mathlib.Logic.Function.Basic

/-!
# Linked lists in memory

A list whose cells lie at addresses, each with a value and the address of the next. `Owns mem l
extra` says that `l` is what is found from the first cell on, address by address, and that these
cells and those in `extra` are all there are: nothing is freed that is still linked, and
nothing is lost.
-/

namespace Linked

structure Cell (α : Type) where
  val : α
  next : Option Nat
  deriving DecidableEq

structure Memory (α : Type) where
  first : Option Nat
  heap : Nat → Option (Cell α)

variable {α : Type}

def Memory.empty : Memory α := ⟨none, fun _ => none⟩

/-- The cell at an address is replaced, or freed. -/
def Memory.put (mem : Memory α) (a : Nat) (c : Option (Cell α)) : Memory α :=
  { mem with heap := Function.update mem.heap a c }

/-- A link is changed: the first one, or the one in a cell. -/
def Memory.relink (mem : Memory α) (next : Option Nat) : Option Nat → Option (Memory α)
  | none => some { mem with first := next }
  | some a => (mem.heap a).map fun c => mem.put a (some { c with next := next })

@[simp] theorem Memory.put_first (mem : Memory α) (a : Nat) (c : Option (Cell α)) :
    (mem.put a c).first = mem.first := rfl

@[simp] theorem Memory.put_same (mem : Memory α) (a : Nat) (c : Option (Cell α)) :
    (mem.put a c).heap a = c := by simp [Memory.put]

theorem Memory.put_other (mem : Memory α) {a b : Nat} (c : Option (Cell α)) (h : b ≠ a) :
    (mem.put a c).heap b = mem.heap b := by simp [Memory.put, h]

/-- The cells from the link `p` up to the link `q`. -/
def Seg (heap : Nat → Option (Cell α)) : Option Nat → List (Nat × α) → Option Nat → Prop
  | p, [], q => p = q
  | p, c :: rest, q => p = some c.1 ∧ ∃ next, heap c.1 = some ⟨c.2, next⟩ ∧ Seg heap next rest q

section Segments

variable {heap heap' : Nat → Option (Cell α)} {p q r : Option Nat} {l l' : List (Nat × α)}

theorem Seg.append (first : Seg heap p l q) (second : Seg heap q l' r) :
    Seg heap p (l ++ l') r := by
  induction l generalizing p with
  | nil =>
    obtain rfl := first
    exact second
  | cons c rest ih =>
    obtain ⟨here, next, cell, more⟩ := first
    exact ⟨here, next, cell, ih more⟩

theorem Seg.split (h : Seg heap p (l ++ l') r) : ∃ q, Seg heap p l q ∧ Seg heap q l' r := by
  induction l generalizing p with
  | nil => exact ⟨p, rfl, h⟩
  | cons c rest ih =>
    obtain ⟨here, next, cell, more⟩ := h
    obtain ⟨q, first, second⟩ := ih more
    exact ⟨q, ⟨here, next, cell, first⟩, second⟩

/-- Only the cells of a segment matter to it. -/
theorem Seg.frame (h : Seg heap p l q) (same : ∀ a ∈ l.map Prod.fst, heap' a = heap a) :
    Seg heap' p l q := by
  induction l generalizing p with
  | nil => exact h
  | cons c rest ih =>
    obtain ⟨here, next, cell, more⟩ := h
    refine ⟨here, next, ?_, ih more fun a listed => same a (List.mem_cons_of_mem _ listed)⟩
    rw [same c.1 (List.mem_cons_self ..)]
    exact cell

/-- From a link that leads nowhere there are no cells. -/
theorem Seg.nowhere (h : Seg heap none l q) : l = [] := by
  cases l with
  | nil => rfl
  | cons c rest => cases h.1

/-- The first cell of a segment that leads to the end of the list. -/
theorem Seg.first {a : Nat} (h : Seg heap (some a) l none) :
    ∃ v next rest, l = (a, v) :: rest ∧ heap a = some ⟨v, next⟩ ∧ Seg heap next rest none := by
  cases l with
  | nil => cases h
  | cons c rest =>
    obtain ⟨here, next, cell, more⟩ := h
    obtain ⟨⟩ := here
    exact ⟨c.2, next, rest, rfl, cell, more⟩

/-- The link that leads to the end of a segment: the first one, or that of its last cell. -/
def lastLink (l : List (Nat × α)) : Option Nat := l.getLast?.map Prod.fst

@[simp] theorem lastLink_nil : lastLink ([] : List (Nat × α)) = none := rfl

@[simp] theorem lastLink_snoc (l : List (Nat × α)) (c : Nat × α) :
    lastLink (l ++ [c]) = some c.1 := by simp [lastLink]

end Segments

structure Owns (mem : Memory α) (l : List (Nat × α)) (extra : List Nat) : Prop where
  seg : Seg mem.heap mem.first l none
  nodup : (extra ++ l.map Prod.fst).Nodup
  dom : ∀ a, (mem.heap a).isSome ↔ a ∈ extra ++ l.map Prod.fst

namespace Owns

variable {mem : Memory α} {l pre post : List (Nat × α)} {extra : List Nat} {a : Nat} {v : α}

theorem empty : Owns (Memory.empty : Memory α) [] [] :=
  ⟨rfl, List.nodup_nil, by simp [Memory.empty]⟩

/-- Without cells nothing is allocated. -/
theorem heap_nil (h : Owns mem [] []) (a : Nat) : mem.heap a = none := by
  have absent : ¬ (mem.heap a).isSome := by
    rw [h.dom a]
    simp
  simpa using absent

theorem alloc (h : Owns mem l []) (free : mem.heap a = none) (c : Cell α) :
    Owns (mem.put a (some c)) l [a] := by
  have fresh : a ∉ l.map Prod.fst := by
    intro listed
    have present := (h.dom a).mpr listed
    rw [free] at present
    cases present
  refine ⟨?_, List.nodup_cons.mpr ⟨fresh, h.nodup⟩, ?_⟩
  · refine h.seg.frame fun b listed => mem.put_other _ ?_
    rintro rfl
    exact fresh listed
  · intro b
    by_cases same : b = a
    · subst same
      simp
    · rw [mem.put_other _ same, h.dom b]
      simp [same]

/-- A cell that is not linked yet is filled in. -/
theorem fill (h : Owns mem l [a]) (c : Cell α) : Owns (mem.put a (some c)) l [a] := by
  obtain ⟨fresh, _⟩ := List.nodup_cons.mp h.nodup
  refine ⟨?_, h.nodup, ?_⟩
  · refine h.seg.frame fun b listed => mem.put_other _ ?_
    rintro rfl
    exact fresh listed
  · intro b
    by_cases same : b = a
    · subst same
      simp
    · rw [mem.put_other _ same, h.dom b]

/-- A cell that points at the first one becomes the first one. -/
theorem push (h : Owns mem l [a]) (cell : mem.heap a = some ⟨v, mem.first⟩) :
    Owns { mem with first := some a } ((a, v) :: l) [] :=
  ⟨⟨rfl, mem.first, cell, h.seg⟩, h.nodup, h.dom⟩

/-- A cell that is not linked any more is freed. -/
theorem free (h : Owns mem l [a]) : Owns (mem.put a none) l [] := by
  obtain ⟨gone, nodup⟩ := List.nodup_cons.mp h.nodup
  refine ⟨?_, nodup, ?_⟩
  · refine h.seg.frame fun b listed => mem.put_other _ ?_
    rintro rfl
    exact gone listed
  · intro b
    by_cases same : b = a
    · subst same
      simpa using gone
    · rw [mem.put_other _ same, h.dom b]
      simp [same]

/-- The cell after `pre`. -/
theorem cell (h : Owns mem (pre ++ (a, v) :: post) extra) :
    ∃ next, Seg mem.heap mem.first pre (some a) ∧
    mem.heap a = some ⟨v, next⟩ ∧ Seg mem.heap next post none := by
  obtain ⟨_, before, here, next, cell, after⟩ := h.seg.split
  obtain rfl := here
  exact ⟨next, before, cell, after⟩

/-- The link that leads to a cell is made to lead past it. -/
theorem unlink (h : Owns mem (pre ++ (a, v) :: post) []) {next : Option Nat}
    (here : mem.heap a = some ⟨v, next⟩) :
    ∃ mem', mem.relink next (lastLink pre) = some mem' ∧ Owns mem' (pre ++ post) [a] := by
  obtain ⟨next', before, cell, after⟩ := h.cell
  obtain rfl : next' = next := by
    rw [cell] at here
    injection here with here
    injection here
  have nodup : ([a] ++ (pre ++ post).map Prod.fst).Nodup := by
    refine List.Perm.nodup ?_ h.nodup
    simp
  have dom : ∀ b, (mem.heap b).isSome ↔ b ∈ [a] ++ (pre ++ post).map Prod.fst := by
    intro b
    rw [h.dom b]
    simp only [List.nil_append, List.map_append, List.map_cons, List.mem_append, List.mem_cons,
      List.not_mem_nil]
    tauto
  rcases List.eq_nil_or_concat pre with rfl | ⟨front, c, rfl⟩
  · exact ⟨_, rfl, after, nodup, dom⟩
  · rw [List.concat_eq_append] at before nodup dom ⊢
    obtain ⟨r, first, toLast, old, last, ends⟩ := before.split
    obtain rfl := toLast
    have apart : c.1 ∉ front.map Prod.fst ∧ c.1 ∉ post.map Prod.fst := by
      simp only [List.map_append, List.map_cons, List.singleton_append, List.nodup_cons,
        List.append_assoc] at nodup
      have middle := (List.nodup_middle.mp nodup.2)
      simpa using (List.nodup_cons.mp middle).1
    refine ⟨mem.put c.1 (some ⟨c.2, next'⟩), by simp [Memory.relink, last], ?_, nodup, ?_⟩
    · have segFront : Seg (mem.put c.1 (some ⟨c.2, next'⟩)).heap mem.first front (some c.1) := by
        refine first.frame fun b listed => mem.put_other _ ?_
        rintro rfl
        exact apart.1 listed
      have back : Seg (mem.put c.1 (some ⟨c.2, next'⟩)).heap next' post none := by
        refine after.frame fun b listed => mem.put_other _ ?_
        rintro rfl
        exact apart.2 listed
      have segLast : Seg (mem.put c.1 (some ⟨c.2, next'⟩)).heap (some c.1) [c] next' :=
        ⟨rfl, next', mem.put_same .., rfl⟩
      exact (segFront.append segLast).append back
    · intro b
      rw [← dom b]
      by_cases same : b = c.1
      · subst same
        simp [last]
      · rw [mem.put_other _ same]

/-- The first cell is freed, and the list goes on behind it. -/
theorem pop (h : Owns ⟨some a, mem.heap⟩ l []) : ∃ v next rest, l = (a, v) :: rest ∧
    mem.heap a = some ⟨v, next⟩ ∧ Owns ⟨next, (mem.put a none).heap⟩ rest [] := by
  obtain ⟨v, next, rest, rfl, cell, more⟩ := h.seg.first
  have loose : Owns ⟨next, mem.heap⟩ rest [a] := ⟨more, h.nodup, h.dom⟩
  exact ⟨v, next, rest, rfl, cell, loose.free⟩

end Owns

end Linked
