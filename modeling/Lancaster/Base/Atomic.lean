import Mathlib.Logic.Function.Basic

/-!
# Atomic objects

What an object does, one operation at a time, is a relation `spec` between its value, an
operation, the result and the next value. Several clients use it at once: a client calls, its
operation takes effect at one moment after that, and it returns the result. A history of calls
and returns is linearizable if such moments can be found for it, that is, if it is the history of
a run of the object.
-/

namespace Atomic

variable {ι Op Res V : Type}

inductive Event (ι Op Res : Type) where
  | call (i : ι) (op : Op)
  | ret (i : ι) (res : Res)
  deriving DecidableEq

inductive Client (Op Res : Type) where
  | idle
  | called (op : Op)
  | done (res : Res)

structure State (ι Op Res V : Type) where
  value : V
  clients : ι → Client Op Res

def State.start (v : V) : State ι Op Res V := ⟨v, fun _ => .idle⟩

variable [DecidableEq ι] {spec : V → Op → Res → V → Prop}

def State.set (a : State ι Op Res V) (i : ι) (c : Client Op Res) : State ι Op Res V :=
  { a with clients := Function.update a.clients i c }

section Set

variable (a : State ι Op Res V) (i : ι) (c : Client Op Res)

@[simp] theorem State.set_value : (a.set i c).value = a.value := rfl

@[simp] theorem State.set_same : (a.set i c).clients i = c := by simp [State.set]

theorem State.set_other {j : ι} (h : j ≠ i) : (a.set i c).clients j = a.clients j := by
  simp [State.set, h]

end Set

/-- What a client does next, with what is seen of it. -/
inductive Step (spec : V → Op → Res → V → Prop) :
    State ι Op Res V → List (Event ι Op Res) → State ι Op Res V → Prop where
  | call {a : State ι Op Res V} {i : ι} (op : Op) (free : a.clients i = .idle) :
      Step spec a [.call i op] (a.set i (.called op))
  | act {a : State ι Op Res V} {i : ι} {op : Op} {res : Res} {v : V}
      (waits : a.clients i = .called op) (does : spec a.value op res v) :
      Step spec a [] ({ a with value := v }.set i (.done res))
  | ret {a : State ι Op Res V} {i : ι} {res : Res} (ready : a.clients i = .done res) :
      Step spec a [.ret i res] (a.set i .idle)

inductive Run (spec : V → Op → Res → V → Prop) (a : State ι Op Res V) :
    List (Event ι Op Res) → State ι Op Res V → Prop where
  | refl : Run spec a [] a
  | step {es fs : List (Event ι Op Res)} {b c : State ι Op Res V} (before : Run spec a es b)
      (one : Step spec b fs c) : Run spec a (es ++ fs) c

namespace Run

variable {a b c : State ι Op Res V} {es fs : List (Event ι Op Res)}

theorem trans (first : Run spec a es b) (more : Run spec b fs c) : Run spec a (es ++ fs) c := by
  induction more with
  | refl => simpa using first
  | step _ one ih =>
    rw [← List.append_assoc]
    exact ih.step one

theorem one (step : Step spec a es b) : Run spec a es b := .step .refl step

/-- What no step changes holds at the end of a run. -/
theorem keeps {P : State ι Op Res V → Prop} (ok : Event ι Op Res → Prop) (run : Run spec a es b)
    (step : ∀ {x y fs}, Step spec x fs y → (∀ e ∈ fs, ok e) → P x → P y) (all : ∀ e ∈ es, ok e)
    (start : P a) : P b := by
  induction run with
  | refl => exact start
  | step before one ih =>
    have all := List.forall_mem_append.mp all
    exact step one all.2 (ih all.1)

/-- An operation takes effect when it returns. -/
theorem returns {i : ι} {op : Op} {res : Res} {v : V} (waits : a.clients i = .called op)
    (does : spec a.value op res v) :
    Run spec a [.ret i res] ({ a with value := v }.set i .idle) := by
  have done := (Run.one (Step.act waits does)).step (.ret (State.set_same ..))
  simpa [State.set] using done

end Run

/-! ## Simulation -/

section Simulation

variable {L C : Type} {next : L → C → Option C} {seen : L → C → List (Event ι Op Res)}
  {ok : C → Prop} {R : C → State ι Op Res V → Prop}

def perform (next : L → C → Option C) : List L → C → Option C
  | [], x => some x
  | l :: rest, x => (next l x).bind (perform next rest)

def history (next : L → C → Option C) (seen : L → C → List (Event ι Op Res)) :
    List L → C → List (Event ι Op Res)
  | [], _ => []
  | l :: rest, x => seen l x ++ (next l x).elim [] (history next seen rest)

omit [DecidableEq ι] in
/-- Everything that is seen is seen of one of the steps. -/
theorem exists_of_mem_history {ls : List L} {x : C} {e : Event ι Op Res}
    (h : e ∈ history next seen ls x) : ∃ l ∈ ls, ∃ y, e ∈ seen l y := by
  induction ls generalizing x with
  | nil => cases h
  | cons l rest ih =>
    rcases List.mem_append.mp h with here | later
    · exact ⟨l, List.mem_cons_self .., x, here⟩
    · cases made : next l x with
      | none =>
        rw [made] at later
        cases later
      | some y =>
        rw [made] at later
        obtain ⟨k, mem, sees⟩ := ih later
        exact ⟨k, List.mem_cons_of_mem _ mem, sees⟩

theorem perform_back (back : ∀ l x y, next l x = some y → ok y → ok x) {ls : List L} {x y : C}
    (steps : perform next ls x = some y) (last : ok y) : ok x := by
  induction ls generalizing x with
  | nil =>
    obtain rfl := Option.some.inj steps
    exact last
  | cons l rest ih =>
    obtain ⟨z, here, more⟩ := Option.bind_eq_some_iff.mp steps
    exact back l x z here (ih more)

/-- A system each of whose steps is matched by a run of the object is matched by one as a whole.
`ok` is asked of the last state only. -/
theorem simulated (back : ∀ l x y, next l x = some y → ok y → ok x)
    (matched : ∀ l x y a, next l x = some y → ok y → R x a → ∃ b, Run spec a (seen l x) b ∧ R y b)
    {ls : List L} {x y : C} {a : State ι Op Res V} (steps : perform next ls x = some y)
    (last : ok y) (start : R x a) : ∃ b, Run spec a (history next seen ls x) b ∧ R y b := by
  induction ls generalizing x a with
  | nil =>
    obtain rfl := Option.some.inj steps
    exact ⟨a, .refl, start⟩
  | cons l rest ih =>
    obtain ⟨z, here, more⟩ := Option.bind_eq_some_iff.mp steps
    obtain ⟨b, first, now⟩ := matched l x z a here (perform_back back more last) start
    obtain ⟨c, later, final⟩ := ih more now
    refine ⟨c, ?_, final⟩
    rw [history, here]
    exact first.trans later

end Simulation

end Atomic
