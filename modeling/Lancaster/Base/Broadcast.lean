import Mathlib.Algebra.Order.Ring.Int
import Mathlib.Data.List.Basic

/-!
# Labelled broadcast with repair

A publisher keeps versioned items and puts them into numbered packets; an item carries
the number of the packet it was last put in as its label. Packets may be lost, repeated
and reordered on their way to a subscriber, which takes them in increasing order only.
What it has missed is sent again item by item, over a channel that keeps the order: such
a frame has the label of the item but its version at the time of the frame.

`Ordered` is why no item goes back to an older version at the subscriber. `Repaired` is
why none is forgotten: an item whose packet has been passed was received with its label,
or a frame of it is on its way, or it is still owed.
-/

namespace Broadcast

variable {ι : Type} [DecidableEq ι]

/-- An item as it is received: its label, its identifier and its version. -/
structure Update (ι : Type) where
  label : Int
  id : ι
  ver : Nat

/-- The publisher with `pkt` under the number `next`, the packets sent so far, one
subscriber, and the frames on their way to it. `base` is the version an item had when it
was last put into a packet. -/
structure State (ι : Type) where
  ver : ι → Nat
  base : ι → Nat
  label : ι → Int
  next : Int
  pkt : List (ι × Nat)
  sent : List (Int × List (ι × Nat))
  frames : List (Update ι)
  rnext : Int
  rlabel : ι → Int
  rver : ι → Nat
  hist : List (Update ι)

namespace State

/-- All packets, the one that is being filled included. -/
def grams (a : State ι) : List (Int × List (ι × Nat)) := (a.next, a.pkt) :: a.sent

def commit (a : State ι) (i : ι) : State ι :=
  { a with ver := Function.update a.ver i (a.ver i + 1) }

def stage (a : State ι) (i : ι) : State ι :=
  { a with
    label := Function.update a.label i a.next
    base := Function.update a.base i (a.ver i)
    pkt := a.pkt ++ [(i, a.ver i)] }

def send (a : State ι) : State ι :=
  { a with next := a.next + 1, pkt := [], sent := (a.next, a.pkt) :: a.sent }

/-- Every item counts as put into a packet as it is. -/
def rebase (a : State ι) : State ι := { a with base := a.ver }

def frame (a : State ι) (i : ι) : State ι :=
  { a with frames := a.frames ++ [⟨a.label i, i, a.ver i⟩] }

/-- The subscriber passes over the packets before number `n`. -/
def skipTo (a : State ι) (n : Int) : State ι := { a with rnext := n }

def update (a : State ι) (e : Update ι) : State ι :=
  { a with
    rlabel := Function.update a.rlabel e.id e.label
    rver := Function.update a.rver e.id e.ver
    hist := a.hist ++ [e] }

/-- The subscriber takes the items of packet `n`, one after the other. -/
def take (a : State ι) (n : Int) (recs : List (ι × Nat)) : State ι :=
  recs.foldl (fun a p => a.update ⟨n, p.1, p.2⟩) a

/-- The frame at the front arrives; it is used if its label is new. -/
def deliver (a : State ι) (e : Update ι) (rest : List (Update ι)) : State ι :=
  if a.rlabel e.id < e.label then { a with frames := rest }.update e
  else { a with frames := rest }

/-- Before the first packet, whose number is the one after `n`. -/
def start (n : Int) : State ι where
  ver := fun _ => 0
  base := fun _ => 0
  label := fun _ => n
  next := n + 1
  pkt := []
  sent := []
  frames := []
  rnext := n
  rlabel := fun _ => n - 1
  rver := fun _ => 0
  hist := []

omit [DecidableEq ι] in
@[simp] theorem grams_send (a : State ι) : a.send.grams = (a.next + 1, []) :: a.grams := rfl

@[simp] theorem grams_commit (a : State ι) (i : ι) : (a.commit i).grams = a.grams := rfl

@[simp] theorem grams_update (a : State ι) (e : Update ι) : (a.update e).grams = a.grams := rfl

theorem take_cons (a : State ι) (n : Int) (p : ι × Nat) (rest : List (ι × Nat)) :
    a.take n (p :: rest) = (a.update ⟨n, p.1, p.2⟩).take n rest := rfl

end State

/-- What each item of a packet says of the others: the later ones are no older. -/
abbrev Sorted (recs : List (ι × Nat)) : Prop :=
  recs.Pairwise fun p q => p.1 = q.1 → p.2 ≤ q.2

/-- What the subscriber has done so far: labels and versions of an item never go down. -/
structure Recorded (a : State ι) : Prop where
  sorted : a.hist.Pairwise fun e f => e.id = f.id → e.label ≤ f.label ∧ e.ver ≤ f.ver
  below : ∀ e ∈ a.hist, e.label ≤ a.rlabel e.id ∧ e.ver ≤ a.rver e.id

theorem Recorded.update {a : State ι} (h : Recorded a) {e : Update ι}
    (label : a.rlabel e.id ≤ e.label) (ver : a.rver e.id ≤ e.ver) : Recorded (a.update e) := by
  constructor
  · refine List.pairwise_append.mpr ⟨h.sorted, List.pairwise_singleton _ _, ?_⟩
    intro f hf e' he same
    obtain rfl := List.mem_singleton.mp he
    have old := h.below f hf
    rw [same] at old
    exact ⟨old.1.trans label, old.2.trans ver⟩
  · intro f hf
    simp only [State.update, Function.update_apply]
    rcases List.mem_append.mp hf with hf | hf
    · have old := h.below f hf
      split
      · rename_i same
        rw [same] at old
        exact ⟨old.1.trans label, old.2.trans ver⟩
      · exact old
    · obtain rfl := List.mem_singleton.mp hf
      simp

/-! ## Taking a packet -/

omit [DecidableEq ι] in
/-- There is one last entry of an item. -/
theorem last_unique {i : ι} {v w : Nat} {pre post pre' post' : List (ι × Nat)}
    (same : pre ++ (i, v) :: post = pre' ++ (i, w) :: post') (after : ∀ p ∈ post, p.1 ≠ i)
    (after' : ∀ p ∈ post', p.1 ≠ i) : v = w := by
  rcases List.append_eq_append_iff.mp same with ⟨as, _, split⟩ | ⟨bs, _, split⟩
  · cases as with
    | nil =>
      simp only [List.nil_append, List.cons.injEq, Prod.mk.injEq, true_and] at split
      exact split.1
    | cons p as =>
      simp only [List.cons_append, List.cons.injEq] at split
      exact absurd rfl (after (i, w) (by simp [split.2]))
  · cases bs with
    | nil =>
      simp only [List.nil_append, List.cons.injEq, Prod.mk.injEq, true_and] at split
      exact split.1.symm
    | cons p bs =>
      simp only [List.cons_append, List.cons.injEq] at split
      exact absurd rfl (after' (i, v) (by simp [split.2]))

structure Taken (n : Int) (recs : List (ι × Nat)) (a a' : State ι) : Prop where
  same : ∃ rlabel rver hist, a' = { a with rlabel := rlabel, rver := rver, hist := hist }
  cases : ∀ i, (a'.rlabel i = a.rlabel i ∧ a'.rver i = a.rver i ∧ ∀ p ∈ recs, p.1 ≠ i) ∨
    (a'.rlabel i = n ∧ ∃ pre post, recs = pre ++ (i, a'.rver i) :: post ∧ ∀ p ∈ post, p.1 ≠ i)

theorem taken (n : Int) (recs : List (ι × Nat)) (a : State ι) : Taken n recs a (a.take n recs) := by
  induction recs generalizing a with
  | nil => exact ⟨⟨_, _, _, rfl⟩, fun i => Or.inl ⟨rfl, rfl, nofun⟩⟩
  | cons p rest ih =>
    obtain ⟨same, cases⟩ := ih (a.update ⟨n, p.1, p.2⟩)
    rw [State.take_cons]
    generalize (a.update ⟨n, p.1, p.2⟩).take n rest = b at same cases
    constructor
    · obtain ⟨rlabel, rver, hist, rfl⟩ := same
      exact ⟨rlabel, rver, hist, rfl⟩
    · intro i
      rcases cases i with ⟨label, ver, others⟩ | ⟨label, pre, post, split, others⟩
      · by_cases hi : p.1 = i
        · right
          subst hi
          have label : b.rlabel p.1 = n := by
            simpa [State.update] using label
          have ver : b.rver p.1 = p.2 := by
            simpa [State.update] using ver
          exact ⟨label, [], rest, by rw [ver]; rfl, others⟩
        · left
          have other : i ≠ p.1 := Ne.symm hi
          refine ⟨?_, ?_, ?_⟩
          · simpa [State.update, other] using label
          · simpa [State.update, other] using ver
          · intro q hq
            rcases List.mem_cons.mp hq with rfl | hq
            · exact hi
            · exact others q hq
      · right
        refine ⟨label, p :: pre, post, ?_, others⟩
        rw [List.cons_append, ← split]

/-- Items of one packet that are no older than what the subscriber has. -/
theorem Recorded.take {a : State ι} {n : Int} {recs : List (ι × Nat)} (h : Recorded a)
    (sorted : Sorted recs) (label : ∀ i, a.rlabel i ≤ n) (ver : ∀ p ∈ recs, a.rver p.1 ≤ p.2) :
    Recorded (a.take n recs) := by
  induction recs generalizing a with
  | nil => exact h
  | cons p rest ih =>
    obtain ⟨first, sorted⟩ := List.pairwise_cons.mp sorted
    refine ih (h.update (label p.1) (ver p (List.mem_cons_self ..))) sorted ?_ ?_
    · intro i
      simp only [State.update, Function.update_apply]
      split
      · exact le_refl n
      · exact label i
    · intro q hq
      simp only [State.update, Function.update_apply]
      split
      · rename_i same
        exact first q hq same.symm
      · exact ver q (List.mem_cons_of_mem _ hq)

/-! ## No item goes back -/

structure Ordered (a : State ι) : Prop where
  label_le : ∀ i, a.label i ≤ a.next
  sent_lt : ∀ d ∈ a.sent, d.1 < a.next
  gram_sorted : ∀ d ∈ a.grams, Sorted d.2
  gram_item : ∀ d ∈ a.grams, ∀ p ∈ d.2, d.1 ≤ a.label p.1 ∧ p.2 ≤ a.ver p.1
  gram_order : ∀ d ∈ a.grams, ∀ d' ∈ a.grams, d.1 < d'.1 →
    ∀ p ∈ d.2, ∀ q ∈ d'.2, p.1 = q.1 → p.2 ≤ q.2
  rnext_le : a.rnext ≤ a.next
  rlabel_lt : ∀ i, a.rlabel i < a.rnext
  rver_le : ∀ i, a.rver i ≤ a.ver i
  recv_gram : ∀ d ∈ a.grams, a.rnext ≤ d.1 → ∀ p ∈ d.2, a.rver p.1 ≤ p.2
  frame_item : ∀ e ∈ a.frames, e.label < a.rnext ∧ e.label ≤ a.label e.id ∧ e.ver ≤ a.ver e.id
  frame_sorted : a.frames.Pairwise fun e f => e.id = f.id → e.ver ≤ f.ver
  frame_gram : ∀ e ∈ a.frames, ∀ d ∈ a.grams, a.rnext ≤ d.1 →
    ∀ p ∈ d.2, p.1 = e.id → e.ver ≤ p.2
  recv_frame : ∀ e ∈ a.frames, a.rlabel e.id < e.label → a.rver e.id ≤ e.ver
  recorded : Recorded a

namespace Ordered

variable {a : State ι} (h : Ordered a)

include h

omit [DecidableEq ι] in
theorem gram_le : ∀ d ∈ a.grams, d.1 ≤ a.next := by
  intro d hd
  rcases List.mem_cons.mp hd with rfl | hd
  · exact le_refl _
  · exact le_of_lt (h.sent_lt d hd)

omit [DecidableEq ι] h in
theorem start (n : Int) : Ordered (State.start n : State ι) := by
  have grams : ∀ d ∈ (State.start n : State ι).grams, d.2 = [] := by
    intro d hd
    obtain rfl := List.mem_singleton.mp hd
    rfl
  have empty : ∀ d ∈ (State.start n : State ι).grams, ∀ p, p ∉ d.2 := by
    intro d hd p hp
    rw [grams d hd] at hp
    cases hp
  refine ⟨fun _ => Int.le_of_lt (Int.lt_succ n), nofun, ?_,
    fun d hd p hp => absurd hp (empty d hd p),
    fun d hd _ _ _ p hp => absurd hp (empty d hd p), Int.le_of_lt (Int.lt_succ n),
    fun _ => Int.sub_one_lt_of_le le_rfl, fun _ => le_refl _,
    fun d hd _ p hp => absurd hp (empty d hd p), nofun, List.Pairwise.nil, nofun, nofun,
    List.Pairwise.nil, nofun⟩
  intro d hd
  rw [grams d hd]
  exact List.Pairwise.nil

theorem commit (i : ι) : Ordered (a.commit i) := by
  have grows : ∀ j, a.ver j ≤ (a.commit i).ver j := by
    intro j
    simp only [State.commit, Function.update_apply]
    split
    · rename_i same
      rw [same]
      exact Nat.le_succ _
    · exact le_refl _
  refine ⟨h.label_le, h.sent_lt, h.gram_sorted, ?_, h.gram_order, h.rnext_le, h.rlabel_lt,
    fun j => (h.rver_le j).trans (grows j), h.recv_gram, ?_, h.frame_sorted, h.frame_gram,
    h.recv_frame, ⟨h.recorded.sorted, h.recorded.below⟩⟩
  · intro d hd p hp
    obtain ⟨label, ver⟩ := h.gram_item d hd p hp
    exact ⟨label, ver.trans (grows _)⟩
  · intro e he
    obtain ⟨lt, label, ver⟩ := h.frame_item e he
    exact ⟨lt, label, ver.trans (grows _)⟩

omit [DecidableEq ι] in
theorem rebase : Ordered a.rebase :=
  ⟨h.label_le, h.sent_lt, h.gram_sorted, h.gram_item, h.gram_order, h.rnext_le, h.rlabel_lt,
    h.rver_le, h.recv_gram, h.frame_item, h.frame_sorted, h.frame_gram, h.recv_frame,
    ⟨h.recorded.sorted, h.recorded.below⟩⟩

theorem stage (i : ι) : Ordered (a.stage i) := by
  -- a packet is an old one, or the one at hand with the item behind it
  have grams : ∀ d ∈ (a.stage i).grams, (d ∈ a.grams ∧ d ∈ a.sent) ∨
      d = (a.next, a.pkt ++ [(i, a.ver i)]) := by
    intro d hd
    rcases List.mem_cons.mp hd with rfl | hd
    · exact Or.inr rfl
    · exact Or.inl ⟨List.mem_cons_of_mem _ hd, hd⟩
  have here : (a.next, a.pkt) ∈ a.grams := List.mem_cons_self ..
  have items : ∀ p ∈ a.pkt ++ [(i, a.ver i)], p ∈ a.pkt ∨ p = (i, a.ver i) := by
    intro p hp
    rcases List.mem_append.mp hp with hp | hp
    · exact Or.inl hp
    · exact Or.inr (List.mem_singleton.mp hp)
  have raised : ∀ j, a.label j ≤ (a.stage i).label j := by
    intro j
    simp only [State.stage, Function.update_apply]
    split
    · exact h.label_le j
    · exact le_refl _
  refine ⟨?_, h.sent_lt, ?_, ?_, ?_, h.rnext_le, h.rlabel_lt, h.rver_le, ?_, ?_, h.frame_sorted, ?_,
    h.recv_frame, ⟨h.recorded.sorted, h.recorded.below⟩⟩
  · intro j
    simp only [State.stage, Function.update_apply]
    split
    · exact le_refl _
    · exact h.label_le j
  · intro d hd
    rcases grams d hd with ⟨hd, _⟩ | rfl
    · exact h.gram_sorted d hd
    · refine List.pairwise_append.mpr ⟨h.gram_sorted _ here, List.pairwise_singleton _ _, ?_⟩
      intro p hp q hq same
      obtain rfl := List.mem_singleton.mp hq
      have old := (h.gram_item _ here p hp).2
      rwa [same] at old
  · intro d hd p hp
    rcases grams d hd with ⟨hd, _⟩ | rfl
    · obtain ⟨label, ver⟩ := h.gram_item d hd p hp
      exact ⟨label.trans (raised _), ver⟩
    · rcases items p hp with hp | rfl
      · obtain ⟨label, ver⟩ := h.gram_item _ here p hp
        exact ⟨label.trans (raised _), ver⟩
      · simp [State.stage]
  · intro d hd d' hd' lt p hp q hq same
    have bound := h.gram_le
    rcases grams d hd with ⟨hd, _⟩ | rfl
    · rcases grams d' hd' with ⟨hd', _⟩ | rfl
      · exact h.gram_order d hd d' hd' lt p hp q hq same
      · rcases items q hq with hq | rfl
        · exact h.gram_order d hd _ here lt p hp q hq same
        · have old := (h.gram_item d hd p hp).2
          rwa [same] at old
    · rcases grams d' hd' with ⟨hd', _⟩ | rfl
      · exact absurd (bound d' hd') (not_le.mpr lt)
      · exact absurd lt (lt_irrefl _)
  · intro d hd late p hp
    rcases grams d hd with ⟨hd, _⟩ | rfl
    · exact h.recv_gram d hd late p hp
    · rcases items p hp with hp | rfl
      · exact h.recv_gram _ here h.rnext_le p hp
      · exact h.rver_le i
  · intro e he
    obtain ⟨lt, label, ver⟩ := h.frame_item e he
    exact ⟨lt, label.trans (raised _), ver⟩
  · intro e he d hd late p hp same
    rcases grams d hd with ⟨hd, _⟩ | rfl
    · exact h.frame_gram e he d hd late p hp same
    · rcases items p hp with hp | rfl
      · exact h.frame_gram e he _ here h.rnext_le p hp same
      · have old := (h.frame_item e he).2.2
        rwa [← same] at old

omit [DecidableEq ι] in
theorem send : Ordered a.send := by
  have old : ∀ d ∈ a.send.grams, ∀ p ∈ d.2, d ∈ a.grams := by
    intro d hd p hp
    rcases List.mem_cons.mp hd with rfl | hd
    · cases hp
    · exact hd
  refine ⟨?_, ?_, ?_, ?_, ?_, ?_, h.rlabel_lt, h.rver_le, ?_, h.frame_item, h.frame_sorted, ?_,
    h.recv_frame, ⟨h.recorded.sorted, h.recorded.below⟩⟩
  · intro i
    exact (h.label_le i).trans (Int.le_of_lt (Int.lt_succ _))
  · intro d hd
    exact Int.lt_add_one_of_le (h.gram_le d hd)
  · intro d hd
    rcases List.mem_cons.mp hd with rfl | hd
    · exact List.Pairwise.nil
    · exact h.gram_sorted d hd
  · intro d hd p hp
    exact h.gram_item d (old d hd p hp) p hp
  · intro d hd d' hd' lt p hp q hq
    exact h.gram_order d (old d hd p hp) d' (old d' hd' q hq) lt p hp q hq
  · exact h.rnext_le.trans (Int.le_of_lt (Int.lt_succ _))
  · intro d hd late p hp
    exact h.recv_gram d (old d hd p hp) late p hp
  · intro e he d hd late p hp
    exact h.frame_gram e he d (old d hd p hp) late p hp

omit [DecidableEq ι] in
/-- A frame is only made of an item whose packet the subscriber has passed. -/
theorem frame {i : ι} (passed : a.label i < a.rnext) : Ordered (a.frame i) := by
  have frames : ∀ e ∈ (a.frame i).frames, e ∈ a.frames ∨ e = ⟨a.label i, i, a.ver i⟩ := by
    intro e he
    rcases List.mem_append.mp he with he | he
    · exact Or.inl he
    · exact Or.inr (List.mem_singleton.mp he)
  refine ⟨h.label_le, h.sent_lt, h.gram_sorted, h.gram_item, h.gram_order, h.rnext_le, h.rlabel_lt,
    h.rver_le, h.recv_gram, ?_, ?_, ?_, ?_, ⟨h.recorded.sorted, h.recorded.below⟩⟩
  · intro e he
    rcases frames e he with he | rfl
    · exact h.frame_item e he
    · exact ⟨passed, le_refl _, le_refl _⟩
  · refine List.pairwise_append.mpr ⟨h.frame_sorted, List.pairwise_singleton _ _, ?_⟩
    intro e he f hf same
    obtain rfl := List.mem_singleton.mp hf
    have old := (h.frame_item e he).2.2
    rwa [same] at old
  · intro e he d hd late p hp same
    rcases frames e he with he | rfl
    · exact h.frame_gram e he d hd late p hp same
    · -- the item is in no packet that the subscriber can still take
      have label := (h.gram_item d hd p hp).1
      rw [same] at label
      exact absurd (late.trans label) (not_le.mpr passed)
  · intro e he newer
    rcases frames e he with he | rfl
    · exact h.recv_frame e he newer
    · exact h.rver_le i

omit [DecidableEq ι] in
theorem skipTo {n : Int} (more : a.rnext ≤ n) (bound : n ≤ a.next) : Ordered (a.skipTo n) := by
  refine ⟨h.label_le, h.sent_lt, h.gram_sorted, h.gram_item, h.gram_order, bound,
    fun i => (h.rlabel_lt i).trans_le more, h.rver_le, fun d hd late => h.recv_gram d hd (more.trans late),
    ?_, h.frame_sorted, fun e he d hd late => h.frame_gram e he d hd (more.trans late),
    h.recv_frame, ⟨h.recorded.sorted, h.recorded.below⟩⟩
  intro e he
  obtain ⟨lt, item⟩ := h.frame_item e he
  exact ⟨lt.trans_le more, item⟩

/-- What the subscriber takes of a packet keeps its history in order, even a part of it. -/
theorem take_recorded {n : Int} {recs given : List (ι × Nat)} (here : (n, recs) ∈ a.grams)
    (late : a.rnext ≤ n) (part : given <+: recs) : Recorded (a.take n given) := by
  refine h.recorded.take ((h.gram_sorted _ here).sublist part.sublist) ?_ ?_
  · intro i
    exact (le_of_lt (h.rlabel_lt i)).trans late
  · intro p hp
    exact h.recv_gram _ here late p (part.subset hp)

/-- No label goes down. -/
theorem take_raised {n : Int} (recs : List (ι × Nat)) (late : a.rnext ≤ n) (i : ι) :
    a.rlabel i ≤ (a.take n recs).rlabel i := by
  rcases (taken n recs a).cases i with ⟨label, _⟩ | ⟨label, _⟩
  · exact le_of_eq label.symm
  · rw [label]
    exact (le_of_lt (h.rlabel_lt i)).trans late

theorem take {n : Int} {recs : List (ι × Nat)} (here : (n, recs) ∈ a.sent) (late : a.rnext ≤ n) :
    Ordered ((a.take n recs).skipTo (n + 1)) := by
  have bound := h.sent_lt _ here
  have here : (n, recs) ∈ a.grams := List.mem_cons_of_mem _ here
  have recorded := h.take_recorded here late List.prefix_rfl
  obtain ⟨same, cases⟩ := taken n recs a
  generalize a.take n recs = b at same cases recorded
  obtain ⟨rlabel, rver, hist, rfl⟩ := same
  -- the items of the packet, or what was there before
  have got : ∀ i, (rlabel i = a.rlabel i ∧ rver i = a.rver i) ∨
      (rlabel i = n ∧ (i, rver i) ∈ recs) := by
    intro i
    rcases cases i with ⟨label, ver, _⟩ | ⟨label, pre, post, split, _⟩
    · exact Or.inl ⟨label, ver⟩
    · exact Or.inr ⟨label, by rw [split]; simp⟩
  have newer : ∀ d ∈ a.grams, n + 1 ≤ d.1 → ∀ p ∈ d.2, rver p.1 ≤ p.2 := by
    intro d hd after p hp
    rcases got p.1 with ⟨_, ver⟩ | ⟨_, item⟩
    · exact ver.trans_le (h.recv_gram d hd (by omega) p hp)
    · exact h.gram_order _ here d hd (by simp only; omega) _ item p hp rfl
  refine ⟨h.label_le, h.sent_lt, h.gram_sorted, h.gram_item, h.gram_order, bound, ?_, ?_, newer, ?_,
    h.frame_sorted, ?_, ?_, ⟨recorded.sorted, recorded.below⟩⟩
  · intro i
    simp only [State.skipTo]
    rcases got i with ⟨label, _⟩ | ⟨label, _⟩
    · have := h.rlabel_lt i
      omega
    · omega
  · intro i
    rcases got i with ⟨_, ver⟩ | ⟨_, item⟩
    · exact ver.trans_le (h.rver_le i)
    · exact (h.gram_item _ here _ item).2
  · intro e he
    obtain ⟨lt, item⟩ := h.frame_item e he
    refine ⟨?_, item⟩
    simp only [State.skipTo]
    omega
  · intro e he d hd after p hp same
    exact h.frame_gram e he d hd (le_trans late (by simp only [State.skipTo] at after; omega)) p hp same
  · intro e he lt
    simp only [State.skipTo] at lt ⊢
    rcases got e.id with ⟨label, ver⟩ | ⟨label, item⟩
    · rw [ver]
      rw [label] at lt
      exact h.recv_frame e he lt
    · have := (h.frame_item e he).1
      omega

/-- A frame that arrives is no older than what is there, or it is not used. -/
theorem deliver {e : Update ι} {rest : List (Update ι)} (front : a.frames = e :: rest) :
    Ordered (a.deliver e rest) := by
  have here : e ∈ a.frames := by
    rw [front]
    exact List.mem_cons_self ..
  have later : ∀ f ∈ rest, f ∈ a.frames := by
    intro f hf
    rw [front]
    exact List.mem_cons_of_mem _ hf
  have sorted := h.frame_sorted
  rw [front] at sorted
  obtain ⟨first, sorted⟩ := List.pairwise_cons.mp sorted
  obtain ⟨lt, label, ver⟩ := h.frame_item e here
  unfold State.deliver
  split
  · rename_i newer
    have recorded : Recorded ({ a with frames := rest }.update e) := by
      have before : Recorded { a with frames := rest } := ⟨h.recorded.sorted, h.recorded.below⟩
      exact before.update (le_of_lt newer) (h.recv_frame e here newer)
    refine ⟨h.label_le, h.sent_lt, h.gram_sorted, h.gram_item, h.gram_order, h.rnext_le, ?_, ?_, ?_,
      fun f hf => h.frame_item f (later f hf), sorted, fun f hf => h.frame_gram f (later f hf), ?_,
      recorded⟩
    · intro i
      simp only [State.update, Function.update_apply]
      split
      · exact lt
      · exact h.rlabel_lt i
    · intro i
      simp only [State.update, Function.update_apply]
      split
      · rename_i hi
        rw [hi]
        exact ver
      · exact h.rver_le i
    · intro d hd late p hp
      simp only [State.update, Function.update_apply]
      split
      · rename_i hi
        exact h.frame_gram e here d hd late p hp hi
      · exact h.recv_gram d hd late p hp
    · intro f hf
      simp only [State.update, Function.update_apply]
      split
      · rename_i hi
        intro _
        exact first f hf hi.symm
      · exact h.recv_frame f (later f hf)
  · exact ⟨h.label_le, h.sent_lt, h.gram_sorted, h.gram_item, h.gram_order, h.rnext_le, h.rlabel_lt,
      h.rver_le, h.recv_gram, fun f hf => h.frame_item f (later f hf), sorted,
      fun f hf => h.frame_gram f (later f hf), fun f hf => h.recv_frame f (later f hf),
      ⟨h.recorded.sorted, h.recorded.below⟩⟩

end Ordered

/-! ## No item is forgotten -/

/-- `live` are the items that the subscriber has to have, `owed` those that are still to
be framed for it. -/
structure Repaired (live owed : ι → Prop) (a : State ι) : Prop where
  base_le : ∀ i, a.base i ≤ a.ver i
  last : ∀ d ∈ a.grams, ∀ i, a.label i = d.1 →
    ∃ pre post, d.2 = pre ++ (i, a.base i) :: post ∧ ∀ p ∈ post, p.1 ≠ i
  rlabel_le : ∀ i, a.rlabel i ≤ a.label i
  kept : ∀ i, a.rlabel i = a.label i → a.base i ≤ a.rver i
  frame_base : ∀ e ∈ a.frames, e.label = a.label e.id → a.base e.id ≤ e.ver
  repair : ∀ i, a.base i = a.ver i → live i → a.label i < a.rnext →
    a.rlabel i = a.label i ∨ (∃ e ∈ a.frames, e.id = i ∧ e.label = a.label i) ∨ owed i

namespace Repaired

variable {a : State ι} {live live' owed owed' : ι → Prop} (h : Repaired live owed a)

include h

omit [DecidableEq ι] h in
theorem start (n : Int) : Repaired live owed (State.start n) := by
  refine ⟨fun _ => le_refl _, ?_, fun _ => Int.le_of_lt (Int.sub_one_lt_of_le le_rfl), ?_,
    List.forall_mem_nil _, ?_⟩
  · intro d hd i label
    obtain rfl := List.mem_singleton.mp hd
    have here : n = n + 1 := label
    omega
  · intro i got
    have got : n - 1 = n := got
    omega
  · intro i _ _ passed
    exact absurd passed (lt_irrefl n)

omit [DecidableEq ι] in
/-- What is still owed may change for the items that are up to date and passed. -/
theorem mono (carry : ∀ i, a.base i = a.ver i → live i → a.label i < a.rnext → owed i → owed' i) :
    Repaired live owed' a := by
  refine ⟨h.base_le, h.last, h.rlabel_le, h.kept, h.frame_base, ?_⟩
  intro i fresh alive passed
  rcases h.repair i fresh alive passed with got | coming | owes
  · exact Or.inl got
  · exact Or.inr (Or.inl coming)
  · exact Or.inr (Or.inr (carry i fresh alive passed owes))

theorem commit (i : ι) (others : ∀ j, j ≠ i → live' j → live j) :
    Repaired live' owed (a.commit i) := by
  have grown : a.base i < (a.commit i).ver i := by
    have := h.base_le i
    simp only [State.commit, Function.update_self]
    omega
  refine ⟨?_, h.last, h.rlabel_le, h.kept, h.frame_base, ?_⟩
  · intro j
    by_cases hj : j = i
    · rw [hj]
      exact le_of_lt grown
    · simpa [State.commit, hj] using h.base_le j
  · intro j fresh alive passed
    by_cases hj : j = i
    · rw [hj] at fresh
      exact absurd fresh (ne_of_lt grown)
    · refine h.repair j ?_ (others j hj alive) passed
      simpa [State.commit, hj] using fresh

/-- An item that is put into the packet at hand is not passed yet. -/
theorem stage (ord : Ordered a) (i : ι) : Repaired live owed (a.stage i) := by
  have label : (a.stage i).label i = a.next := by simp [State.stage]
  have other : ∀ j, j ≠ i → (a.stage i).label j = a.label j ∧ (a.stage i).base j = a.base j := by
    intro j hj
    simp [State.stage, hj]
  refine ⟨?_, ?_, ?_, ?_, ?_, ?_⟩
  · intro j
    by_cases hj : j = i
    · simp [State.stage, hj]
    · rw [(other j hj).2]
      exact h.base_le j
  · intro d hd j labelled
    by_cases hj : j = i
    · subst hj
      rcases List.mem_cons.mp hd with rfl | hd
      · exact ⟨a.pkt, [], by simp [State.stage], nofun⟩
      · have := ord.sent_lt d hd
        rw [label] at labelled
        omega
    · rw [(other j hj).1] at labelled
      rw [(other j hj).2]
      rcases List.mem_cons.mp hd with rfl | hd
      · obtain ⟨pre, post, split, others⟩ :=
          h.last (a.next, a.pkt) (List.mem_cons_self ..) j labelled
        refine ⟨pre, post ++ [(i, a.ver i)], ?_, ?_⟩
        · simp only at split
          simp [State.stage, split]
        · intro p hp
          rcases List.mem_append.mp hp with hp | hp
          · exact others p hp
          · obtain rfl := List.mem_singleton.mp hp
            exact Ne.symm hj
      · exact h.last d (List.mem_cons_of_mem _ hd) j labelled
  · intro j
    by_cases hj : j = i
    · subst hj
      rw [label]
      exact (h.rlabel_le j).trans (ord.label_le j)
    · rw [(other j hj).1]
      exact h.rlabel_le j
  · intro j got
    by_cases hj : j = i
    · subst hj
      rw [label] at got
      have lt := (ord.rlabel_lt j).trans_le ord.rnext_le
      exact absurd got (ne_of_lt lt)
    · rw [(other j hj).1] at got
      rw [(other j hj).2]
      exact h.kept j got
  · intro e he labelled
    by_cases hj : e.id = i
    · rw [hj, label] at labelled
      have lt := (ord.frame_item e he).1.trans_le ord.rnext_le
      exact absurd labelled (ne_of_lt lt)
    · rw [(other _ hj).1] at labelled
      rw [(other _ hj).2]
      exact h.frame_base e he labelled
  · intro j fresh alive passed
    by_cases hj : j = i
    · subst hj
      rw [label] at passed
      exact absurd ord.rnext_le (not_le.mpr passed)
    · rw [(other j hj).1] at passed ⊢
      rw [(other j hj).2] at fresh
      exact h.repair j fresh alive passed

omit [DecidableEq ι] in
theorem send (ord : Ordered a) : Repaired live owed a.send := by
  refine ⟨h.base_le, ?_, h.rlabel_le, h.kept, h.frame_base, h.repair⟩
  intro d hd i label
  rcases List.mem_cons.mp hd with rfl | hd
  · have label : a.label i = a.next + 1 := label
    have := ord.label_le i
    omega
  · exact h.last d hd i label

omit [DecidableEq ι] in
theorem frame (i : ι) (carry : ∀ j, j ≠ i → owed j → owed' j) :
    Repaired live owed' (a.frame i) := by
  refine ⟨h.base_le, h.last, h.rlabel_le, h.kept, ?_, ?_⟩
  · intro e he label
    rcases List.mem_append.mp he with he | he
    · exact h.frame_base e he label
    · obtain rfl := List.mem_singleton.mp he
      exact h.base_le i
  · intro j fresh alive passed
    by_cases hj : j = i
    · subst hj
      exact Or.inr (Or.inl ⟨⟨a.label j, j, a.ver j⟩, List.mem_append_right _ (by simp), rfl, rfl⟩)
    · rcases h.repair j fresh alive passed with got | ⟨e, he, hid, hl⟩ | owes
      · exact Or.inl got
      · exact Or.inr (Or.inl ⟨e, List.mem_append_left _ he, hid, hl⟩)
      · exact Or.inr (Or.inr (carry j hj owes))

omit [DecidableEq ι] in
/-- Passing over packets makes their items owed. -/
theorem skipTo {n : Int} (carry : ∀ j, owed j → owed' j)
    (missed : ∀ j, a.rnext ≤ a.label j → a.label j < n → owed' j) :
    Repaired live owed' (a.skipTo n) := by
  refine ⟨h.base_le, h.last, h.rlabel_le, h.kept, h.frame_base, ?_⟩
  intro j fresh alive passed
  by_cases before : a.label j < a.rnext
  · rcases h.repair j fresh alive before with got | coming | owes
    · exact Or.inl got
    · exact Or.inr (Or.inl coming)
    · exact Or.inr (Or.inr (carry j owes))
  · exact Or.inr (Or.inr (missed j (not_lt.mp before) passed))

/-- A packet is taken, and what lies before it becomes owed. -/
theorem take (ord : Ordered a) {n : Int} {recs : List (ι × Nat)} (here : (n, recs) ∈ a.sent)
    (late : a.rnext ≤ n) (carry : ∀ j, owed j → owed' j)
    (missed : ∀ j, a.rnext ≤ a.label j → a.label j < n → owed' j) :
    Repaired live owed' ((a.take n recs).skipTo (n + 1)) := by
  have here : (n, recs) ∈ a.grams := List.mem_cons_of_mem _ here
  obtain ⟨same, cases⟩ := taken n recs a
  generalize a.take n recs = b at same cases
  obtain ⟨rlabel, rver, hist, rfl⟩ := same
  have cases : ∀ i, (rlabel i = a.rlabel i ∧ rver i = a.rver i ∧ ∀ p ∈ recs, p.1 ≠ i) ∨
      (rlabel i = n ∧ ∃ pre post, recs = pre ++ (i, rver i) :: post ∧ ∀ p ∈ post, p.1 ≠ i) := cases
  refine ⟨h.base_le, h.last, ?_, ?_, h.frame_base, ?_⟩
  · intro i
    simp only [State.skipTo]
    rcases cases i with ⟨label, _⟩ | ⟨label, pre, post, split, _⟩
    · exact label.trans_le (h.rlabel_le i)
    · have item := (ord.gram_item _ here (i, rver i) (by simp [split])).1
      exact label.trans_le item
  · intro i got
    simp only [State.skipTo] at got ⊢
    rcases cases i with ⟨label, ver, _⟩ | ⟨label, pre, post, split, after⟩
    · rw [ver]
      exact h.kept i (label.symm.trans got)
    · -- the packet has the item under its label, so its last entry is the base
      obtain ⟨pre', post', split', after'⟩ := h.last _ here i (by simp only; omega)
      have same := last_unique (split.symm.trans split') after after'
      exact le_of_eq same.symm
  · intro i fresh alive passed
    simp only [State.skipTo] at passed ⊢
    by_cases labelled : a.label i = n
    · left
      obtain ⟨pre, post, split, _⟩ := h.last _ here i labelled
      rcases cases i with ⟨_, _, others⟩ | ⟨label, _⟩
      · exact absurd rfl (others (i, a.base i) (by simp only at split; simp [split]))
      · exact label.trans labelled.symm
    · by_cases before : a.label i < a.rnext
      · rcases h.repair i fresh alive before with got | coming | owes
        · left
          rcases cases i with ⟨label, _⟩ | ⟨_, pre, post, split, _⟩
          · exact label.trans got
          · have item := (ord.gram_item _ here (i, rver i) (by simp [split])).1
            simp only at item
            omega
        · exact Or.inr (Or.inl coming)
        · exact Or.inr (Or.inr (carry i owes))
      · exact Or.inr (Or.inr (missed i (not_lt.mp before) (by omega)))

/-- A frame that arrives: it is used, or the subscriber has its label already. -/
theorem deliver (ord : Ordered a) {e : Update ι} {rest : List (Update ι)}
    (front : a.frames = e :: rest) : Repaired live owed (a.deliver e rest) := by
  have here : e ∈ a.frames := by
    rw [front]
    exact List.mem_cons_self ..
  have later : ∀ f ∈ rest, f ∈ a.frames := by
    intro f hf
    rw [front]
    exact List.mem_cons_of_mem _ hf
  have label := (ord.frame_item e here).2.1
  unfold State.deliver
  split
  · rename_i newer
    refine ⟨h.base_le, h.last, ?_, ?_, fun f hf => h.frame_base f (later f hf), ?_⟩
    · intro i
      simp only [State.update, Function.update_apply]
      split
      · rename_i hi
        rw [hi]
        exact label
      · exact h.rlabel_le i
    · intro i got
      simp only [State.update, Function.update_apply] at got ⊢
      split at got
      · rename_i hi
        subst hi
        rw [if_pos rfl]
        exact h.frame_base e here got
      · rename_i hi
        rw [if_neg hi]
        exact h.kept i got
    · intro i fresh alive passed
      simp only [State.update, Function.update_apply]
      rcases h.repair i fresh alive passed with got | ⟨f, hf, hid, hl⟩ | owes
      · left
        split
        · rename_i hi
          subst hi
          have : a.rlabel e.id = a.label e.id := got
          omega
        · exact got
      · rw [front] at hf
        rcases List.mem_cons.mp hf with rfl | hf
        · left
          rw [if_pos hid.symm]
          exact hl
        · exact Or.inr (Or.inl ⟨f, hf, hid, hl⟩)
      · exact Or.inr (Or.inr owes)
  · rename_i known
    refine ⟨h.base_le, h.last, h.rlabel_le, h.kept, fun f hf => h.frame_base f (later f hf), ?_⟩
    intro i fresh alive passed
    rcases h.repair i fresh alive passed with got | ⟨f, hf, hid, hl⟩ | owes
    · exact Or.inl got
    · rw [front] at hf
      rcases List.mem_cons.mp hf with rfl | hf
      · left
        subst hid
        have := h.rlabel_le f.id
        simp only
        omega
      · exact Or.inr (Or.inl ⟨f, hf, hid, hl⟩)
    · exact Or.inr (Or.inr owes)

omit [DecidableEq ι] in
/-- Before anything is put into a packet, every version may count as the first one. -/
theorem rebase (unsent : ∀ d ∈ a.grams, ∀ i, a.label i ≠ d.1) (new : ∀ i, a.rlabel i ≠ a.label i)
    (idle : a.frames = []) (far : ∀ i, a.rnext ≤ a.label i) : Repaired live owed a.rebase := by
  refine ⟨fun _ => le_refl _, fun d hd i label => absurd label (unsent d hd i), h.rlabel_le,
    fun i got => absurd got (new i), ?_, fun i _ _ passed => absurd (far i) (not_le.mpr passed)⟩
  intro e he
  have he : e ∈ a.frames := he
  rw [idle] at he
  cases he

omit [DecidableEq ι] in
/-- An up-to-date item whose packet is passed and for which nothing is left to come has
arrived. -/
theorem arrived (ord : Ordered a) {i : ι} (fresh : a.base i = a.ver i) (alive : live i)
    (passed : a.label i < a.rnext) (idle : a.frames = []) (paid : ¬ owed i) :
    a.rlabel i = a.label i ∧ a.rver i = a.ver i := by
  rcases h.repair i fresh alive passed with got | ⟨e, he, _⟩ | owes
  · refine ⟨got, le_antisymm (ord.rver_le i) ?_⟩
    rw [← fresh]
    exact h.kept i got
  · rw [idle] at he
    cases he
  · exact absurd owes paid

end Repaired

end Broadcast
