import Mathlib.Data.Finset.Card
import Mathlib.Data.Finset.Max
import Mathlib.Data.Finset.Sort
import Mathlib.Order.UpperLower.Basic

/-!
# Filling places from the top

A finite set of places that are taken, and a list of places to be filled. A cursor goes down over
the places that are taken, one step for each place of the list: what it finds is moved to the place
of the list if that is lower, and stays where it is otherwise. The cursor never goes back up, so
that what it has passed stays.
-/

namespace Compaction

variable {α : Type} [LinearOrder α]

/-- The highest place of `B` under the cursor. -/
structure IsTop (B : Finset α) (cursor : Option α) (c : α) : Prop where
  mem : c ∈ B
  under : ∀ b ∈ cursor, c < b
  highest : ∀ x ∈ B, (∀ b ∈ cursor, x < b) → x ≤ c

/-- What becomes of the places that are taken. -/
inductive Fill : Finset α → Option α → List α → Finset α → Prop
  | done {B : Finset α} {cursor : Option α} : Fill B cursor [] B
  | exhausted {B : Finset α} {cursor : Option α} {p : α} {ps : List α}
      (bare : ∀ c, ¬ IsTop B cursor c) : Fill B cursor (p :: ps) B
  | keep {B B' : Finset α} {cursor : Option α} {p c : α} {ps : List α} (top : IsTop B cursor c)
      (low : c ≤ p) (rest : Fill B (some c) ps B') : Fill B cursor (p :: ps) B'
  | move {B B' : Finset α} {cursor : Option α} {p c : α} {ps : List α} (top : IsTop B cursor c)
      (high : p < c) (rest : Fill (insert p (B.erase c)) (some c) ps B') :
      Fill B cursor (p :: ps) B'

/-- Where the cursor finds its next place once the list has been gone through: among the places of
`T` and those of the list, each time under the last one. -/
inductive Finds : Finset α → Option α → List α → α → Prop
  | now {T : Finset α} {cursor : Option α} {c : α} (top : IsTop T cursor c) : Finds T cursor [] c
  | later {T : Finset α} {cursor : Option α} {p c d : α} {ps : List α} (top : IsTop T cursor c)
      (rest : Finds (insert p T) (some c) ps d) : Finds T cursor (p :: ps) d

variable {B B' T : Finset α} {cursor : Option α} {p c d : α} {ps : List α}

namespace IsTop

theorem unique (h : IsTop B cursor c) (h' : IsTop B cursor d) : c = d :=
  le_antisymm (h'.highest c h.mem h.under) (h.highest d h'.mem h'.under)

theorem exists_of_mem {x : α} (here : x ∈ B) (under : ∀ b ∈ cursor, x < b) :
    ∃ c, IsTop B cursor c := by
  classical
  let S := B.filter fun y => ∀ b ∈ cursor, y < b
  have nonempty : S.Nonempty := ⟨x, Finset.mem_filter.mpr ⟨here, under⟩⟩
  obtain ⟨mem, below⟩ := Finset.mem_filter.mp (S.max'_mem nonempty)
  exact ⟨S.max' nonempty, mem, below, fun y hy hu => S.le_max' y (Finset.mem_filter.mpr ⟨hy, hu⟩)⟩

/-- Two sets that agree under the cursor have the same top. -/
theorem congr (same : ∀ x, (∀ b ∈ cursor, x < b) → (x ∈ B ↔ x ∈ T)) :
    IsTop B cursor c ↔ IsTop T cursor c := by
  constructor
  · intro h
    exact ⟨(same c h.under).mp h.mem, h.under,
      fun x hx under => h.highest x ((same x under).mpr hx) under⟩
  · intro h
    exact ⟨(same c h.under).mpr h.mem, h.under,
      fun x hx under => h.highest x ((same x under).mp hx) under⟩

end IsTop

/-! ## Places that are filled twice -/

/-- Some place of the list is filled although it was taken, at the start or by an earlier turn. -/
def Overwrites (T : Finset α) (cursor : Option α) (ps : List α) : Prop :=
  ∃ before p after c, ps = before ++ p :: after ∧ (p ∈ T ∨ p ∈ before) ∧
    Finds T cursor before c ∧ p < c

theorem not_overwrites_nil : ¬ Overwrites T cursor [] := by
  rintro ⟨before, p, after, c, split, -⟩
  exact absurd split (by simp)

theorem not_overwrites_exhausted (exhausted : ∀ c, ¬ IsTop T cursor c) :
    ¬ Overwrites T cursor ps := by
  rintro ⟨before, p, after, c, -, -, finds, -⟩
  cases finds with
  | now top => exact exhausted _ top
  | later top rest => exact exhausted _ top

theorem overwrites_cons (top : IsTop T cursor c) :
    Overwrites T cursor (p :: ps) ↔ (p ∈ T ∧ p < c) ∨ Overwrites (insert p T) (some c) ps := by
  constructor
  · rintro ⟨before, q, after, d, split, taken, finds, low⟩
    cases finds with
    | now top' =>
      obtain ⟨rfl, rfl⟩ := List.cons.inj split
      obtain rfl := top.unique top'
      exact Or.inl ⟨by simpa using taken, low⟩
    | later top' rest =>
      obtain ⟨rfl, rfl⟩ := List.cons.inj split
      obtain rfl := top.unique top'
      refine Or.inr ⟨_, q, after, d, rfl, ?_, rest, low⟩
      rcases taken with taken | taken
      · exact Or.inl (Finset.mem_insert_of_mem taken)
      · rcases List.mem_cons.mp taken with rfl | taken
        · exact Or.inl (Finset.mem_insert_self ..)
        · exact Or.inr taken
  · rintro (⟨taken, low⟩ | ⟨before, q, after, d, rfl, taken, finds, low⟩)
    · exact ⟨[], p, ps, c, rfl, Or.inl taken, .now top, low⟩
    · refine ⟨p :: before, q, after, d, rfl, ?_, .later top finds, low⟩
      rcases taken with taken | taken
      · rcases Finset.mem_insert.mp taken with rfl | taken
        · exact Or.inr List.mem_cons_self
        · exact Or.inl taken
      · exact Or.inr (List.mem_cons_of_mem p taken)

/-! ## Places that are taken in the end -/

namespace Fill

theorem card_le (h : Fill B cursor ps B') : B'.card ≤ B.card := by
  induction h with
  | done => exact le_refl _
  | exhausted bare => exact le_refl _
  | keep top low rest ih => exact ih
  | move top high rest ih =>
    refine le_trans ih (le_trans (Finset.card_insert_le ..) ?_)
    rw [Finset.card_erase_add_one top.mem]

/-- What is at the cursor or over it stays. -/
theorem passed (h : Fill B (some d) ps B') {x : α} (here : x ∈ B) (above : d ≤ x) : x ∈ B' := by
  generalize start : some d = cursor at h
  induction h generalizing d with
  | done => exact here
  | exhausted bare => exact here
  | keep top low rest ih =>
    subst start
    exact ih here (le_trans (le_of_lt (top.under d rfl)) above) rfl
  | move top high rest ih =>
    subst start
    have lower := lt_of_lt_of_le (top.under d rfl) above
    exact ih (Finset.mem_insert_of_mem (Finset.mem_erase.mpr ⟨ne_of_gt lower, here⟩))
      (le_of_lt lower) rfl

/-- Places that are all higher than what is taken are not filled. -/
theorem idle (h : Fill B cursor ps B') (high : ∀ p ∈ ps, ∀ x ∈ B, x ≤ p) : B' = B := by
  induction h with
  | done => rfl
  | exhausted bare => rfl
  | keep top low rest ih => exact ih fun q hq => high q (List.mem_cons_of_mem _ hq)
  | move top low rest ih =>
    exact absurd (high _ List.mem_cons_self _ top.mem) (not_le_of_gt low)

end Fill

/-! ## A lower set in the end -/

section

variable {L : Finset α} {k : Nat}

/-- After `k` turns in which something was moved, the places that are taken are the lowest of those
that were taken at first or have been filled. `L` has as many places. -/
structure Stage (L T B : Finset α) (k : Nat) : Prop where
  taken : B ⊆ T
  above : ∀ x ∈ T, x ∉ B → ∀ y ∈ B, y < x
  size : B.card = L.card
  total : T.card = L.card + k

namespace Stage

/-- The place that comes next is filled exactly if enough of the others are over it. -/
theorem moves_iff (h : Stage L T B k) (top : IsTop B cursor c)
    (under : ∀ x ∈ B, ∀ b ∈ cursor, x < b) : p < c ↔ k < (T.filter (p < ·)).card := by
  have rest : (T \ B).card = k := by
    rw [Finset.card_sdiff_of_subset h.taken, h.total, h.size]
    omega
  constructor
  · intro low
    have above : insert c (T \ B) ⊆ T.filter (p < ·) := by
      intro x hx
      rcases Finset.mem_insert.mp hx with rfl | hx
      · exact Finset.mem_filter.mpr ⟨h.taken top.mem, low⟩
      · obtain ⟨there, out⟩ := Finset.mem_sdiff.mp hx
        exact Finset.mem_filter.mpr ⟨there, lt_trans low (h.above x there out c top.mem)⟩
    have count := Finset.card_le_card above
    rw [Finset.card_insert_of_notMem (by simp [top.mem]), rest] at count
    omega
  · intro many
    by_contra high
    have above : T.filter (p < ·) ⊆ T \ B := by
      intro x hx
      obtain ⟨there, less⟩ := Finset.mem_filter.mp hx
      refine Finset.mem_sdiff.mpr ⟨there, fun here => high ?_⟩
      exact lt_of_lt_of_le less (top.highest x here (under x here))
    have count := Finset.card_le_card above
    omega

theorem move (h : Stage L T B k) (fresh : p ∉ T) (top : IsTop B cursor c)
    (under : ∀ x ∈ B, ∀ b ∈ cursor, x < b) (low : p < c) :
    Stage L (insert p T) (insert p (B.erase c)) (k + 1) := by
  have out : p ∉ B.erase c := fun here => fresh (h.taken (Finset.mem_of_mem_erase here))
  constructor
  · intro x hx
    rcases Finset.mem_insert.mp hx with rfl | hx
    · exact Finset.mem_insert_self ..
    · exact Finset.mem_insert_of_mem (h.taken (Finset.mem_of_mem_erase hx))
  · intro x hx gone y hy
    rw [Finset.mem_insert, not_or, Finset.mem_erase, not_and_or, not_not] at gone
    have there : x ∈ T := (Finset.mem_insert.mp hx).resolve_left gone.1
    -- whatever is out of the set now is the top or was out before
    have high : c ≤ x := by
      rcases gone.2 with same | out
      · exact le_of_eq same.symm
      · exact le_of_lt (h.above x there out c top.mem)
    rcases Finset.mem_insert.mp hy with rfl | hy
    · exact lt_of_lt_of_le low high
    · obtain ⟨other, here⟩ := Finset.mem_erase.mp hy
      exact lt_of_lt_of_le (lt_of_le_of_ne (top.highest y here (under y here)) other) high
  · rw [Finset.card_insert_of_notMem out, Finset.card_erase_add_one top.mem, h.size]
  · rw [Finset.card_insert_of_notMem fresh, h.total]
    omega

variable (lower : ∀ x ∈ L, ∀ y, y ≤ x → y ∈ L)
include lower

/-- Once all of `L` has been taken or filled, nothing else is left. -/
theorem eq_lower (h : Stage L T B k) (all : L ⊆ T) : B = L := by
  apply Finset.eq_of_subset_of_card_le
  · intro y hy
    by_contra out
    have more : ∃ x ∈ L, x ∉ B := by
      by_contra nothing
      have inside : L ⊆ B.erase y := fun x hx => Finset.mem_erase.mpr
        ⟨fun same => out (same ▸ hx), by_contra fun gone => nothing ⟨x, hx, gone⟩⟩
      have count := Finset.card_le_card inside
      rw [Finset.card_erase_of_mem hy, h.size] at count
      have := Finset.card_pos.mpr ⟨y, hy⟩
      have := h.size
      omega
    obtain ⟨x, hx, gone⟩ := more
    exact out (lower x hx y (le_of_lt (h.above x (all hx) gone y hy)))
  · rw [h.size]

/-- While a place of `L` is missing, the top is none of its places. -/
theorem top_notMem (h : Stage L T B k) (top : IsTop B cursor c)
    (under : ∀ x ∈ B, ∀ b ∈ cursor, x < b) {q : α} (low : q ∈ L) (gone : q ∉ B) : c ∉ L := by
  intro here
  have inside : B ⊆ L.erase q := by
    intro y hy
    refine Finset.mem_erase.mpr ⟨fun same => gone (same ▸ hy), ?_⟩
    exact lower c here y (top.highest y hy (under y hy))
  have count := Finset.card_le_card inside
  rw [Finset.card_erase_of_mem low, h.size] at count
  have := Finset.card_pos.mpr ⟨q, low⟩
  omega

end Stage

/-- A set with no more places than `L` that has one outside of `L` is not a lower set. -/
theorem not_lower (lower : ∀ x ∈ L, ∀ y, y ≤ x → y ∈ L) (few : B'.card ≤ L.card) (here : c ∈ B')
    (out : c ∉ L) : ¬ ∀ x ∈ B', ∀ y, y ≤ x → y ∈ B' := by
  intro closed
  have inside : insert c L ⊆ B' := by
    intro x hx
    rcases Finset.mem_insert.mp hx with rfl | hx
    · exact here
    · refine closed c here x ?_
      by_contra high
      exact out (lower x hx c (le_of_lt (not_le.mp high)))
  have count := Finset.card_le_card inside
  rw [Finset.card_insert_of_notMem out] at count
  omega

/-- No turn is wasted on a place outside of `L` while one of `L` is still to come. -/
def Unwasted (L T : Finset α) (k : Nat) (ps : List α) : Prop :=
  ∀ before p after, ps = before ++ p :: after → p ∉ L → (∃ q ∈ after, q ∈ L) →
    k + before.length < ((T ∪ before.toFinset).filter (p < ·)).card

theorem unwasted_nil : Unwasted L T k [] := by
  intro before p after split
  exact absurd split (by simp)

theorem unwasted_cons : Unwasted L T k (p :: ps) ↔
    (p ∉ L → (∃ q ∈ ps, q ∈ L) → k < (T.filter (p < ·)).card) ∧ Unwasted L (insert p T)
    (k + 1) ps := by
  have sets (before : List α) : insert p T ∪ before.toFinset = T ∪ (p :: before).toFinset := by
    rw [List.toFinset_cons, Finset.union_insert, Finset.insert_union]
  constructor
  · intro all
    refine ⟨fun out ahead => by simpa using all [] p ps rfl out ahead, ?_⟩
    rintro before q after rfl out ahead
    have count := all (p :: before) q after rfl out ahead
    rw [sets]
    rw [List.length_cons] at count
    omega
  · rintro ⟨first, rest⟩ before q after split out ahead
    cases before with
    | nil =>
      obtain ⟨rfl, rfl⟩ := List.cons.inj split
      simpa using first out ahead
    | cons b before =>
      obtain ⟨rfl, rfl⟩ := List.cons.inj split
      have count := rest before q after rfl out ahead
      rw [sets] at count
      rw [List.length_cons]
      omega

theorem unwasted_of_none (past : ¬ ∃ q ∈ ps, q ∈ L) : Unwasted L T k ps := by
  rintro before p after rfl - ⟨q, here, low⟩
  exact absurd ⟨q, List.mem_append_right _ (List.mem_cons_of_mem p here), low⟩ past

namespace Stage

variable (lower : ∀ x ∈ L, ∀ y, y ≤ x → y ∈ L)
include lower

/-- A turn is wasted on a place over the top while one of `L` is still to come: the top stays, and
is none of `L`. -/
theorem wasted (h : Stage L T B k) (top : IsTop B cursor c) (under : ∀ x ∈ B, ∀ b ∈ cursor, x < b)
    (high : c ≤ p) (rest : Fill B (some c) ps B') {q : α} (later : q ∈ ps) (low : q ∈ L)
    (fresh : q ∉ T) :
    (¬ ∀ x ∈ B', ∀ y, y ≤ x → y ∈ B') ∧ ¬ Unwasted L T k (p :: ps) := by
  have out : c ∉ L := h.top_notMem lower top under low fun here => fresh (h.taken here)
  constructor
  · exact not_lower lower (h.size ▸ rest.card_le) (rest.passed top.mem (le_refl c)) out
  · intro all
    have count := (unwasted_cons.mp all).1 (fun here => out (lower p here c high)) ⟨q, later, low⟩
    rw [← h.moves_iff top under] at count
    exact not_lt_of_ge high count

/-- Such a turn does no harm once none of `L` is to come. -/
theorem spared (h : Stage L T B k) (top : IsTop B cursor c) (under : ∀ x ∈ B, ∀ b ∈ cursor, x < b)
    (high : c ≤ p) (rest : Fill B (some c) ps B') (later : ¬ ∃ q ∈ ps, q ∈ L) (fresh : p ∉ T)
    (covered : ∀ x ∈ L, x ∈ T ∨ x ∈ p :: ps) : B' = L := by
  have out : p ∉ L := by
    intro here
    refine h.top_notMem lower top under here ?_ (lower p here c high)
    exact fun inB => fresh (h.taken inB)
  have same : B = L := by
    refine h.eq_lower lower fun x hx => ?_
    rcases covered x hx with there | there
    · exact there
    · rcases List.mem_cons.mp there with rfl | there
      · exact absurd hx out
      · exact absurd ⟨x, there, hx⟩ later
  refine (rest.idle fun q hq x hx => ?_).trans same
  by_contra below
  rw [same] at hx
  exact later ⟨q, hq, lower x hx q (le_of_lt (not_le.mp below))⟩

end Stage

/-- The places that are taken in the end are a lower set exactly if no turn is wasted on a place
outside of `L` while one of `L` is still to come. -/
theorem Fill.lower_iff (fill : Fill B cursor ps B') (stage : Stage L T B k)
    (under : ∀ x ∈ B, ∀ b ∈ cursor, x < b) (lower : ∀ x ∈ L, ∀ y, y ≤ x → y ∈ L)
    (distinct : ps.Nodup) (fresh : ∀ p ∈ ps, p ∉ T) (covered : ∀ x ∈ L, x ∈ T ∨ x ∈ ps) :
    (∀ x ∈ B', ∀ y, y ≤ x → y ∈ B') ↔ Unwasted L T k ps := by
  induction fill generalizing T k with
  | @done B cursor =>
    have same : B = L := stage.eq_lower lower fun x hx => by simpa using covered x hx
    rw [same]
    exact iff_of_true lower unwasted_nil
  | @exhausted B cursor p ps exhausted =>
    have empty : B = ∅ := by
      by_contra nonempty
      obtain ⟨x, hx⟩ := Finset.nonempty_iff_ne_empty.mpr nonempty
      obtain ⟨c, top⟩ := IsTop.exists_of_mem hx (under x hx)
      exact exhausted c top
    have nothing : L = ∅ := by
      have size := stage.size
      rw [empty, Finset.card_empty] at size
      exact Finset.card_eq_zero.mp size.symm
    subst empty nothing
    exact iff_of_true (fun x hx => absurd hx (by simp)) (unwasted_of_none (by simp))
  | @keep B B' cursor p c ps top high rest ih =>
    by_cases later : ∃ q ∈ ps, q ∈ L
    · obtain ⟨q, later, low⟩ := later
      obtain ⟨broken, wasted⟩ := stage.wasted lower top under high rest later low
        (fresh q (List.mem_cons_of_mem p later))
      exact iff_of_false broken wasted
    · rw [stage.spared lower top under high rest later (fresh p List.mem_cons_self) covered]
      exact iff_of_true lower
        (unwasted_cons.mpr ⟨fun _ more => absurd more later, unwasted_of_none later⟩)
  | @move B B' cursor p c ps top low rest ih =>
    obtain ⟨missing, distinct⟩ := List.nodup_cons.mp distinct
    have new := fresh p List.mem_cons_self
    have next := ih (stage.move new top under low)
      (by
        intro x hx b hb
        obtain rfl := Option.some.inj hb
        rcases Finset.mem_insert.mp hx with rfl | hx
        · exact low
        · obtain ⟨other, here⟩ := Finset.mem_erase.mp hx
          exact lt_of_le_of_ne (top.highest x here (under x here)) other)
      distinct
      (by
        intro q hq there
        rcases Finset.mem_insert.mp there with rfl | there
        · exact missing hq
        · exact fresh q (List.mem_cons_of_mem p hq) there)
      (by
        intro x hx
        rcases covered x hx with there | there
        · exact Or.inl (Finset.mem_insert_of_mem there)
        · rcases List.mem_cons.mp there with rfl | there
          · exact Or.inl (Finset.mem_insert_self ..)
          · exact Or.inr there)
    rw [next, unwasted_cons]
    exact (and_iff_right fun _ _ => (stage.moves_iff top under).mp low).symm

end

end Compaction
