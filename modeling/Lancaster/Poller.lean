import Mathlib.Data.List.Nodup
import Lancaster.Storage

/-!
# The poller

The poller keeps its sockets and what `poll` reports of them in two arrays of one length,
here one array of slots. A socket is removed by moving the last one into its place, and
the events are handled from the last slot down to the first, so that a handler may remove
the socket it is called for: what moves into the slot has been looked at before.

A handler is given by what it makes of the caller's state, of which the poller is a part.
-/

namespace Lancaster

namespace Failure

def noMemory : Failure := ⟨Status.noMemory, by decide⟩
def notFound : Failure := ⟨Status.notFound, by decide⟩

end Failure

/-- A socket and its `revents`, if these are not zero. -/
structure Slot (S R : Type) where
  sock : S
  revents : Option R

/-- The slots from `freeIdx` on hold whatever was there before. -/
structure Poller (S R : Type) where
  count : Nat
  freeIdx : Nat
  slots : Nat → Slot S R

namespace Poller

variable {S R : Type}

/-- The first free slot is taken, in arrays of twice the length if there is none. -/
def append (p : Poller S R) (sock : S) : Poller S R where
  count := if p.freeIdx = p.count then 2 * p.count else p.count
  freeIdx := p.freeIdx + 1
  slots := fun k => if k = p.freeIdx then ⟨sock, none⟩ else p.slots k

/-- `poller_add`; `memory` tells if the arrays can grow, in case they have to. -/
def pollerAdd (p : Poller S R) (sock : S) (memory : Bool) : Except Failure (Poller S R) :=
  if p.freeIdx = p.count ∧ memory = false then .error .noMemory else .ok (p.append sock)

/-- The last slot takes the place of slot `i`. -/
def removeAt (p : Poller S R) (i : Nat) : Poller S R :=
  { p with
    freeIdx := p.freeIdx - 1
    slots := fun k => if k = i then p.slots (p.freeIdx - 1) else p.slots k }

def pollerRemove [DecidableEq S] (p : Poller S R) (sock : S) : Except Failure (Poller S R) :=
  match (List.range p.freeIdx).find? fun i => (p.slots i).sock = sock with
  | some i => .ok (p.removeAt i)
  | none => .error .notFound

/-- `poll` writes the `revents` of the sockets in use. -/
def pollerEvents (p : Poller S R) (ready : Nat → Option R) : Poller S R :=
  { p with slots := fun i => if i < p.freeIdx then { p.slots i with revents := ready i } else p.slots i }

def Has (p : Poller S R) (sock : S) : Prop := ∃ i, i < p.freeIdx ∧ (p.slots i).sock = sock

def Distinct (p : Poller S R) : Prop :=
  ∀ i j, i < p.freeIdx → j < p.freeIdx → (p.slots i).sock = (p.slots j).sock → i = j

/-- The sockets that are ready among the first `n` slots, from the last on. -/
def readyBelow (p : Poller S R) : Nat → List S
  | 0 => []
  | i + 1 =>
    match p.slots i with
    | ⟨_, none⟩ => p.readyBelow i
    | ⟨sock, some _⟩ => sock :: p.readyBelow i

variable {p : Poller S R}

theorem readyBelow_idle {i : Nat} {sock : S} (eq : p.slots i = ⟨sock, none⟩) :
    p.readyBelow (i + 1) = p.readyBelow i := by
  rw [readyBelow, eq]

theorem readyBelow_ready {i : Nat} {sock : S} {rev : R} (eq : p.slots i = ⟨sock, some rev⟩) :
    p.readyBelow (i + 1) = sock :: p.readyBelow i := by
  rw [readyBelow, eq]

/-- A socket is found in its own slot. -/
theorem pollerRemove_at [DecidableEq S] (distinct : p.Distinct) {i : Nat} (low : i < p.freeIdx) :
    p.pollerRemove (p.slots i).sock = .ok (p.removeAt i) := by
  unfold pollerRemove
  split
  · rename_i j found
    have here := List.mem_of_find?_eq_some found
    have same := List.find?_some found
    rw [distinct j i (List.mem_range.mp here) low (of_decide_eq_true same)]
  · rename_i missing
    have := List.find?_eq_none.mp missing i (List.mem_range.mpr low)
    simp at this

theorem Distinct.removeAt {i : Nat} (h : p.Distinct) (low : i < p.freeIdx) :
    (p.removeAt i).Distinct := by
  -- slots behind `i` are those they were, and the one at `i` is the last
  have origin : ∀ j, j < p.freeIdx - 1 → ∃ k, k < p.freeIdx ∧
      ((p.removeAt i).slots j).sock = (p.slots k).sock ∧
        k = if j = i then p.freeIdx - 1 else j := by
    intro j small
    refine ⟨if j = i then p.freeIdx - 1 else j, ?_, ?_, rfl⟩
    · split <;> omega
    · simp only [Poller.removeAt]
      split <;> rfl
  intro j k hj hk same
  obtain ⟨j', lowj, sockj, eqj⟩ := origin j hj
  obtain ⟨k', lowk, sockk, eqk⟩ := origin k hk
  rw [sockj, sockk] at same
  have := h j' k' lowj lowk same
  have hj : j < p.freeIdx - 1 := hj
  have hk : k < p.freeIdx - 1 := hk
  split at eqj <;> split at eqk <;> omega

theorem pollerAdd_true (p : Poller S R) (sock : S) :
    p.pollerAdd sock true = .ok (p.append sock) := by
  simp [pollerAdd]

theorem append_last (p : Poller S R) (sock : S) : (p.append sock).slots p.freeIdx = ⟨sock, none⟩ :=
  if_pos rfl

theorem append_lt {i : Nat} (sock : S) (low : i < p.freeIdx) :
    (p.append sock).slots i = p.slots i :=
  if_neg (Nat.ne_of_lt low)

theorem Distinct.append {sock : S} (h : p.Distinct) (new : ¬ p.Has sock) :
    (p.append sock).Distinct := by
  intro i j hi hj same
  have hi : i < p.freeIdx + 1 := hi
  have hj : j < p.freeIdx + 1 := hj
  rcases Nat.lt_succ_iff_lt_or_eq.mp hi with hi | rfl <;>
    rcases Nat.lt_succ_iff_lt_or_eq.mp hj with hj | rfl
  · rw [append_lt sock hi, append_lt sock hj] at same
    exact h i j hi hj same
  · rw [append_lt sock hi, append_last] at same
    exact absurd ⟨i, hi, same⟩ new
  · rw [append_lt sock hj, append_last] at same
    exact absurd ⟨j, hj, same.symm⟩ new
  · rfl

theorem append_room {sock : S} (room : p.freeIdx ≤ p.count) (used : 0 < p.freeIdx) :
    (p.append sock).freeIdx ≤ (p.append sock).count := by
  show p.freeIdx + 1 ≤ if p.freeIdx = p.count then 2 * p.count else p.count
  split <;> omega

theorem mem_readyBelow {n : Nat} {sock : S} :
    sock ∈ p.readyBelow n ↔ ∃ i, i < n ∧ (p.slots i).sock = sock ∧ (p.slots i).revents.isSome := by
  induction n with
  | zero => simp [readyBelow]
  | succ n ih =>
    have split : (∃ i, i < n + 1 ∧ (p.slots i).sock = sock ∧ (p.slots i).revents.isSome) ↔
        ((p.slots n).sock = sock ∧ (p.slots n).revents.isSome) ∨
          ∃ i, i < n ∧ (p.slots i).sock = sock ∧ (p.slots i).revents.isSome := by
      constructor
      · rintro ⟨i, low, rest⟩
        rcases Nat.lt_succ_iff_lt_or_eq.mp low with low | rfl
        · exact Or.inr ⟨i, low, rest⟩
        · exact Or.inl rest
      · rintro (rest | ⟨i, low, rest⟩)
        · exact ⟨n, Nat.lt_succ_self n, rest⟩
        · exact ⟨i, Nat.lt_succ_of_lt low, rest⟩
    rw [split, ← ih]
    cases eq : p.slots n with
    | mk other revents =>
      cases revents with
      | none =>
        rw [readyBelow_idle eq]
        simp
      | some rev =>
        rw [readyBelow_ready eq]
        simp [eq_comm]

theorem nodup_readyBelow (distinct : p.Distinct) {n : Nat} (low : n ≤ p.freeIdx) :
    (p.readyBelow n).Nodup := by
  induction n with
  | zero => exact .nil
  | succ n ih =>
    have rest := ih (by omega)
    cases eq : p.slots n with
    | mk sock revents =>
      cases revents with
      | none =>
        rw [readyBelow_idle eq]
        exact rest
      | some rev =>
        rw [readyBelow_ready eq]
        refine List.nodup_cons.mpr ⟨fun here => ?_, rest⟩
        obtain ⟨i, below, same, _⟩ := mem_readyBelow.mp here
        have := distinct i n (by omega) (by omega) (by rw [same, eq])
        omega

end Poller

/-! ## The loop over the ready sockets -/

section Loop

variable {S R A X : Type}

/-- One slot that `poller_process_events` looks at, with the state at that time, and the
socket if its handler is called. -/
structure Look (S X : Type) where
  index : Nat
  before : X
  sock : Option S

def dispatched (looks : List (Look S X)) : List S := looks.filterMap Look.sock

variable (poller : X → Poller S R) (eventFn : S → R → A → X → Option (Int × X))

/-- `poller_process_events` from slot `n - 1` down. Each call of the handler takes one of
the `givens`, which stand for what it learns from outside. -/
def pollerProcessEvents : Nat → Int → X → List A → Option (Int × List (Look S X) × X)
  | 0, st, x, _ => some (st, [], x)
  | i + 1, st, x, givens =>
    match (poller x).slots i, givens with
    | ⟨_, none⟩, givens =>
      (pollerProcessEvents i st x givens).map fun r => (r.1, ⟨i, x, none⟩ :: r.2.1, r.2.2)
    | ⟨_, some _⟩, [] => none
    | ⟨sock, some rev⟩, a :: givens =>
      (eventFn sock rev a x).bind fun (st, y) =>
        if Status.Failed st then some (st, [⟨i, x, some sock⟩], y)
        else (pollerProcessEvents i st y givens).map fun r => (r.1, ⟨i, x, some sock⟩ :: r.2.1, r.2.2)

/-- What a handler called at slot `i` may do: it keeps the invariant, touches no slot below
its own and leaves these in use. -/
def Sweepable (I : X → Prop) : Prop :=
  ∀ {i : Nat} {x y : X} {rev : R} {a : A} {st : Int}, I x → i < (poller x).freeIdx →
    ((poller x).slots i).revents = some rev →
    eventFn ((poller x).slots i).sock rev a x = some (st, y) →
    ¬ Status.Failed st →
    I y ∧ i ≤ (poller y).freeIdx ∧ ∀ j < i, (poller y).slots j = (poller x).slots j

variable {poller eventFn}

theorem readyBelow_congr {p q : Poller S R} {n : Nat} (same : ∀ j < n, p.slots j = q.slots j) :
    p.readyBelow n = q.readyBelow n := by
  induction n with
  | zero => rfl
  | succ n ih =>
    unfold Poller.readyBelow
    rw [same n (Nat.lt_succ_self n), ih fun j low => same j (Nat.lt_succ_of_lt low)]

/-- A round in which no handler fails calls those of the sockets that were ready at its
start, once each and from the last slot down. It looks at slots in use only. -/
theorem pollerProcessEvents_sweeps {I : X → Prop} (handlers : Sweepable poller eventFn I) {n : Nat}
    {st st' : Int} {x y : X} {givens : List A} {looks : List (Look S X)} (inv : I x)
    (low : n ≤ (poller x).freeIdx)
    (h : pollerProcessEvents poller eventFn n st x givens = some (st', looks, y))
    (fine : ¬ Status.Failed st') :
    I y ∧ dispatched looks = (poller x).readyBelow n ∧
    ∀ look ∈ looks, I look.before ∧ look.index < (poller look.before).freeIdx ∧
      ∀ sock ∈ look.sock, ((poller look.before).slots look.index).sock = sock := by
  induction n generalizing st x givens looks with
  | zero =>
    obtain ⟨rfl, rfl, rfl⟩ : st = st' ∧ [] = looks ∧ x = y := by
      simpa [pollerProcessEvents] using h
    exact ⟨inv, rfl, nofun⟩
  | succ i ih =>
    unfold pollerProcessEvents at h
    split at h
    · rename_i sock eq
      obtain ⟨⟨st₁, looks₁, y₁⟩, rest, eq'⟩ := Option.map_eq_some_iff.mp h
      cases eq'
      obtain ⟨inv', ready, all⟩ := ih inv (by omega) rest
      rw [Poller.readyBelow_idle eq]
      refine ⟨inv', ready, ?_⟩
      intro look here
      rcases List.mem_cons.mp here with rfl | here
      · exact ⟨inv, low, nofun⟩
      · exact all look here
    · cases h
    · rename_i sock rev a givens eq
      obtain ⟨⟨st₁, x₁⟩, ran, more⟩ := Option.bind_eq_some_iff.mp h
      dsimp only at more
      split at more
      · rename_i failed
        cases more
        exact absurd failed fine
      · rename_i ok
        obtain ⟨⟨st₂, looks₂, y₂⟩, rest, eq'⟩ := Option.map_eq_some_iff.mp more
        cases eq'
        have ran' : eventFn ((poller x).slots i).sock rev a x = some (st₁, x₁) := by
          rw [eq]
          exact ran
        obtain ⟨inv₁, low₁, below⟩ := handlers inv low (by rw [eq]) ran' ok
        obtain ⟨inv', ready, all⟩ := ih inv₁ low₁ rest
        rw [Poller.readyBelow_ready eq]
        refine ⟨inv', ?_, ?_⟩
        · show sock :: dispatched looks₂ = sock :: (poller x).readyBelow i
          rw [ready, readyBelow_congr below]
        · intro look here
          rcases List.mem_cons.mp here with rfl | here
          · refine ⟨inv, low, ?_⟩
            rintro _ ⟨⟩
            rw [eq]
          · exact all look here

end Loop

end Lancaster
