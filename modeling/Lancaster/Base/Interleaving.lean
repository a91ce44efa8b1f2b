import Mathlib.Logic.Basic

/-!
# Tasks interleaved with the rest of the world

A task is sequential code cut at its calls into the world. Each call shows the
task's local state, and between any two calls the other parties may move. A run
is a list of choices: a move of the others, the answer to the pending call, or
the start of a new event handler once the previous one is done.

`Safe` is the proof rule. At every call it asks for an assertion about the world
that the moves of the others keep, as far as these are allowed, and that is strong
enough for what follows.
-/

namespace Interleaving

variable {σ C : Type} {A : C → Type} {α β W : Type}

/-- Code that is done, or waits in the local state `s` for the answer to `c`. -/
inductive Task (σ C : Type) (A : C → Type) (α : Type) : Type where
  | done (a : α)
  | call (s : σ) (c : C) (k : A c → Task σ C A α)

namespace Task

def bind : Task σ C A α → (α → Task σ C A β) → Task σ C A β
  | .done a, f => f a
  | .call s c k, f => .call s c fun a => (k a).bind f

@[simp] theorem bind_done (a : α) (f : α → Task σ C A β) : (done a).bind f = f a := rfl

@[simp] theorem bind_call (s : σ) (c : C) (k : A c → Task σ C A α) (f : α → Task σ C A β) :
    (call s c k).bind f = call s c fun a => (k a).bind f := rfl

/-- The calls a task makes, with the answers it gets, up to its result. -/
inductive Ends : Task σ C A α → List ((c : C) × A c) → α → Prop where
  | done (a : α) : Ends (.done a) [] a
  | call {s : σ} {c : C} {k : A c → Task σ C A α} (a : A c) {rest : List ((c : C) × A c)} {b : α}
      (more : Ends (k a) rest b) : Ends (.call s c k) (⟨c, a⟩ :: rest) b

variable {tr : List ((c : C) × A c)}

@[simp] theorem ends_done {a b : α} : (done a : Task σ C A α).Ends tr b ↔ tr = [] ∧ b = a := by
  constructor
  · intro h
    cases h
    exact ⟨rfl, rfl⟩
  · rintro ⟨rfl, rfl⟩
    exact .done _

theorem ends_done_pair {a a' : α} {b b' : β} :
    (done (a, b) : Task σ C A (α × β)).Ends tr (a', b') ↔ tr = [] ∧ a' = a ∧ b' = b := by
  rw [ends_done, Prod.mk.injEq]

theorem ends_call {s : σ} {c : C} {k : A c → Task σ C A α} {b : α} :
    (call s c k).Ends tr b ↔ ∃ a rest, tr = ⟨c, a⟩ :: rest ∧ (k a).Ends rest b := by
  constructor
  · intro h
    cases h with
    | call a more => exact ⟨a, _, rfl, more⟩
  · rintro ⟨a, rest, rfl, more⟩
    exact .call a more

/-- The calls of a sequence are those of its parts. -/
theorem ends_bind {t : Task σ C A α} {f : α → Task σ C A β} {b : β} :
    (t.bind f).Ends tr b ↔
      ∃ a first rest, tr = first ++ rest ∧ t.Ends first a ∧ (f a).Ends rest b := by
  induction t generalizing tr with
  | done a =>
    constructor
    · intro h
      exact ⟨a, [], tr, rfl, .done a, h⟩
    · rintro ⟨a', first, rest, rfl, h, more⟩
      obtain ⟨rfl, rfl⟩ := ends_done.mp h
      exact more
  | call s c k ih =>
    rw [bind_call, ends_call]
    constructor
    · rintro ⟨x, later, rfl, more⟩
      obtain ⟨a, first, rest, rfl, here, more⟩ := (ih x).mp more
      exact ⟨a, ⟨c, x⟩ :: first, rest, rfl, .call x here, more⟩
    · rintro ⟨a, first, rest, rfl, here, more⟩
      cases here with
      | call x here => exact ⟨x, _, rfl, (ih x).mpr ⟨a, _, rest, rfl, here, more⟩⟩

/-- Whatever the answers are, each satisfies `J`, and the result satisfies `Q`. -/
def Meets (J : (c : C) × A c → Prop) (Q : α → Prop) (t : Task σ C A α) : Prop :=
  ∀ tr b, t.Ends tr b → (∀ r ∈ tr, J r) ∧ Q b

section Meets

variable {J : (c : C) × A c → Prop} {Q : α → Prop}

theorem meets_done {a : α} (h : Q a) : Meets J Q (done a : Task σ C A α) := by
  intro tr b ends
  obtain ⟨rfl, rfl⟩ := ends_done.mp ends
  exact ⟨nofun, h⟩

theorem meets_call {s : σ} {c : C} {k : A c → Task σ C A α} (one : ∀ a, J ⟨c, a⟩)
    (more : ∀ a, Meets J Q (k a)) : Meets J Q (call s c k) := by
  intro tr b ends
  obtain ⟨a, rest, rfl, later⟩ := ends_call.mp ends
  obtain ⟨all, result⟩ := more a rest b later
  refine ⟨?_, result⟩
  intro r here
  rcases List.mem_cons.mp here with rfl | here
  · exact one a
  · exact all r here

theorem meets_bind {R : β → Prop} {t : Task σ C A β} {f : β → Task σ C A α} (first : Meets J R t)
    (more : ∀ b, R b → Meets J Q (f b)) : Meets J Q (t.bind f) := by
  intro tr b ends
  obtain ⟨x, as, bs, rfl, here, later⟩ := ends_bind.mp ends
  obtain ⟨all, result⟩ := first as x here
  obtain ⟨all', result'⟩ := more x result bs b later
  refine ⟨?_, result'⟩
  intro r here
  rcases List.mem_append.mp here with here | here
  · exact all r here
  · exact all' r here

end Meets

/-- The result of a task for a list of answers, if the answers are for its calls. -/
def result [DecidableEq C] : Task σ C A α → List ((c : C) × A c) → Option α
  | .done a, [] => some a
  | .call _ c k, ⟨c', a⟩ :: rest => if h : c' = c then (k (h ▸ a)).result rest else none
  | _, _ => none

/-- The call that a task waits for behind a list of answers, if these are for the calls before
it. -/
def awaits [DecidableEq C] : Task σ C A α → List ((c : C) × A c) → Option C
  | .call _ c _, [] => some c
  | .call _ c k, ⟨c', a⟩ :: rest => if h : c' = c then (k (h ▸ a)).awaits rest else none
  | .done _, _ => none

theorem ends_of_result [DecidableEq C] {t : Task σ C A α} {b : α} (h : t.result tr = some b) :
    t.Ends tr b := by
  induction t generalizing tr with
  | done a =>
    cases tr with
    | nil =>
      obtain rfl := Option.some.inj h
      exact .done a
    | cons r rest => cases h
  | call s c k ih =>
    cases tr with
    | nil => cases h
    | cons r rest =>
      obtain ⟨c', a⟩ := r
      simp only [result] at h
      split at h
      · rename_i same
        subst same
        exact .call a (ih a h)
      · cases h

end Task

/-- What surrounds a task: the moves of the other parties, which answers a call
can get, which handlers can start, and the local state a finished task leaves. -/
structure Host (σ C : Type) (A : C → Type) (α W : Type) where
  Move : Type
  move : Move → W → Option W
  reply : (c : C) → A c → W → Option W
  Event : Type
  start : Event → α → W → Option (Task σ C A α)
  out : α → σ

/-- The handler started last, what is left of it, and the world. -/
structure Conf (H : Host σ C A α W) where
  last : Option H.Event
  task : Task σ C A α
  world : W

inductive Choice (H : Host σ C A α W) where
  | move (m : H.Move)
  | reply (c : C) (a : A c)
  | start (e : H.Event)

namespace Conf

variable {H : Host σ C A α W}

def state (x : Conf H) : σ :=
  match x.task with
  | .done a => H.out a
  | .call s _ _ => s

/-- The running handler, if any, and the call it waits for. -/
def waiting (x : Conf H) : Option (H.Event × C) :=
  match x.task, x.last with
  | .call _ c _, some e => some (e, c)
  | _, _ => none

end Conf

namespace Host

variable (H : Host σ C A α W)

def next [DecidableEq C] (ch : Choice H) (x : Conf H) : Option (Conf H) :=
  match ch with
  | .move m => (H.move m x.world).map fun w => { x with world := w }
  | .reply c a =>
    match x.task with
    | .done _ => none
    | .call _ c' k =>
      if h : c = c' then
        (H.reply c a x.world).map fun w => { x with task := k (h ▸ a), world := w }
      else none
  | .start e =>
    match x.task with
    | .done a => (H.start e a x.world).map fun t => ⟨some e, t, x.world⟩
    | .call _ _ _ => none

def run [DecidableEq C] : List (Choice H) → Conf H → Option (Conf H)
  | [], x => some x
  | ch :: rest, x => (H.next ch x).bind (run rest)

/-- Perform a list of choices as long as `p` allows each of them. -/
def runWhile [DecidableEq C] (p : Conf H → Choice H → Conf H → Bool) :
    List (Choice H) → Conf H → Option (Conf H)
  | [], x => some x
  | ch :: rest, x => (H.next ch x).bind fun y => if p x ch y then runWhile p rest y else none

/-- Everything one choice can do. -/
theorem next_cases [DecidableEq C] {ch : Choice H} {x y : Conf H} (h : H.next ch x = some y) :
    (∃ m w, ch = .move m ∧ H.move m x.world = some w ∧ y = { x with world := w }) ∨
    (∃ s c k a w, x.task = .call s c k ∧ H.reply c a x.world = some w ∧
      y = { x with task := k a, world := w }) ∨
    (∃ e a t, ch = .start e ∧ x.task = .done a ∧ H.start e a x.world = some t ∧
      y = ⟨some e, t, x.world⟩) := by
  cases ch with
  | move m =>
    obtain ⟨w, hw, hy⟩ := Option.map_eq_some_iff.mp h
    exact Or.inl ⟨m, w, rfl, hw, hy.symm⟩
  | reply c a =>
    simp only [next] at h
    split at h
    · cases h
    · rename_i s c' k htask
      split at h
      · rename_i hc
        subst hc
        obtain ⟨w, hw, hy⟩ := Option.map_eq_some_iff.mp h
        exact Or.inr (Or.inl ⟨s, c, k, a, w, htask, hw, hy.symm⟩)
      · cases h
  | start e =>
    simp only [next] at h
    split at h
    · rename_i a htask
      obtain ⟨t, ht, hy⟩ := Option.map_eq_some_iff.mp h
      exact Or.inr (Or.inr ⟨e, a, t, rfl, htask, ht, hy.symm⟩)
    · cases h

/-- The configurations reached by runs all of whose steps satisfy `ok`. -/
inductive Reach [DecidableEq C] (ok : Conf H → Choice H → Conf H → Prop) (x₀ : Conf H) :
    Conf H → Prop where
  | refl : Reach ok x₀ x₀
  | step {x y : Conf H} (ch : Choice H) (before : Reach ok x₀ x) (h : H.next ch x = some y)
      (allowed : ok x ch y) : Reach ok x₀ y

/-- Runs whose steps are not restricted. -/
abbrev Reachable [DecidableEq C] (x₀ x : Conf H) : Prop := H.Reach (fun _ _ _ => True) x₀ x

theorem Reach.mono [DecidableEq C] {ok ok' : Conf H → Choice H → Conf H → Prop} {x₀ x : Conf H}
    (weaker : ∀ x ch y, ok x ch y → ok' x ch y) (h : H.Reach ok x₀ x) : H.Reach ok' x₀ x := by
  induction h with
  | refl => exact .refl
  | step ch _ hn allowed ih => exact .step ch ih hn (weaker _ _ _ allowed)

theorem Reach.trans [DecidableEq C] {ok : Conf H → Choice H → Conf H → Prop} {x y z : Conf H}
    (hxy : H.Reach ok x y) (hyz : H.Reach ok y z) : H.Reach ok x z := by
  induction hyz with
  | refl => exact hxy
  | step ch _ hn allowed ih => exact .step ch ih hn allowed

/-- A computed run is a run. -/
theorem reach_of_run [DecidableEq C] {ok : Conf H → Choice H → Conf H → Prop} {x y : Conf H}
    (chs : List (Choice H)) (allowed : ∀ x, ∀ ch ∈ chs, ∀ y, H.next ch x = some y → ok x ch y)
    (h : H.run chs x = some y) : H.Reach ok x y := by
  induction chs generalizing x with
  | nil =>
    obtain rfl := Option.some.inj h
    exact .refl
  | cons ch rest ih =>
    obtain ⟨z, hz, hy⟩ := Option.bind_eq_some_iff.mp h
    have first := allowed x ch (by simp) z hz
    exact Reach.trans H (.step ch .refl hz first) (ih (fun x c hc => allowed x c (by simp [hc])) hy)

/-- A computed run that ends in `p` reaches a configuration with `p`. -/
theorem reach_of_any [DecidableEq C] {ok : Conf H → Choice H → Conf H → Prop} {x : Conf H}
    {p : Conf H → Bool} (chs : List (Choice H))
    (allowed : ∀ x, ∀ ch ∈ chs, ∀ y, H.next ch x = some y → ok x ch y)
    (h : (H.run chs x).any p = true) : ∃ y, H.Reach ok x y ∧ p y = true := by
  cases hr : H.run chs x with
  | none => simp [hr] at h
  | some y =>
    refine ⟨y, H.reach_of_run chs allowed hr, ?_⟩
    simpa [hr] using h

theorem reach_of_runWhile [DecidableEq C] {p : Conf H → Choice H → Conf H → Bool}
    {q : Conf H → Bool} {x : Conf H} (chs : List (Choice H))
    (h : (H.runWhile p chs x).any q = true) :
    ∃ y, H.Reach (fun x ch y => p x ch y = true) x y ∧ q y = true := by
  induction chs generalizing x with
  | nil => exact ⟨x, .refl, h⟩
  | cons ch rest ih =>
    simp only [runWhile] at h
    cases hz : H.next ch x with
    | none => simp [hz] at h
    | some z =>
      simp only [hz, Option.bind_some] at h
      split at h
      · rename_i hp
        obtain ⟨y, hy, hq⟩ := ih h
        exact ⟨y, Reach.trans H (.step ch .refl hz hp) hy, hq⟩
      · cases h

/-- What every allowed choice keeps holds throughout every run. -/
theorem Reach.invariant [DecidableEq C] {ok : Conf H → Choice H → Conf H → Prop} {x₀ x : Conf H}
    (J : Conf H → Prop) (init : J x₀)
    (keeps : ∀ x ch y, J x → H.next ch x = some y → ok x ch y → J y) (h : H.Reach ok x₀ x) :
    J x := by
  induction h with
  | refl => exact init
  | step ch _ hn allowed ih => exact keeps _ ch _ ih hn allowed

/-- A run is seen through `f` as a run of another host, if each of its steps is seen as a step or
not at all. `J` is what the steps keep. -/
theorem Reach.refines [DecidableEq C] {W' : Type} (H' : Host σ C A α W')
    {ok : Conf H → Choice H → Conf H → Prop} {ok' : Conf H' → Choice H' → Conf H' → Prop}
    {x₀ x : Conf H} (f : Conf H → Conf H') (J : Conf H → Prop) (init : J x₀)
    (steps : ∀ x ch y, J x → H.next ch x = some y → ok x ch y →
      J y ∧ (f y = f x ∨ ∃ ch', H'.next ch' (f x) = some (f y) ∧ ok' (f x) ch' (f y)))
    (h : H.Reach ok x₀ x) : J x ∧ H'.Reach ok' (f x₀) (f x) := by
  induction h with
  | refl => exact ⟨init, .refl⟩
  | step ch _ hn allowed ih =>
    obtain ⟨kept, same | ⟨ch', next, allowed'⟩⟩ := steps _ ch _ ih.1 hn allowed
    · exact ⟨kept, same ▸ ih.2⟩
    · exact ⟨kept, .step ch' ih.2 next allowed'⟩

/-- A run may be taken to meet at every step what is known of every run. -/
theorem Reach.strengthen [DecidableEq C] {ok : Conf H → Choice H → Conf H → Prop} {x₀ x : Conf H}
    {J : Conf H → Prop} (known : ∀ x, H.Reach ok x₀ x → J x) (h : H.Reach ok x₀ x) :
    H.Reach (fun x ch y => ok x ch y ∧ J y) x₀ x := by
  induction h with
  | refl => exact .refl
  | step ch before hn allowed ih =>
    exact .step ch ih hn ⟨allowed, known _ (.step ch before hn allowed)⟩

/-- A run with its choices, all of whose steps satisfy `ok`. -/
inductive Path [DecidableEq C] (ok : Conf H → Choice H → Conf H → Prop) :
    Conf H → List (Choice H) → Conf H → Prop where
  | nil (x : Conf H) : Path ok x [] x
  | cons {x y z : Conf H} {ch : Choice H} {chs : List (Choice H)} (h : H.next ch x = some y)
      (allowed : ok x ch y) (rest : Path ok y chs z) : Path ok x (ch :: chs) z

/-- The answers among the choices of a run. -/
def replies (chs : List (Choice H)) : List ((c : C) × A c) :=
  chs.filterMap fun
    | .reply c a => some ⟨c, a⟩
    | _ => none

theorem mem_replies {chs : List (Choice H)} {c : C} {a : A c} :
    ⟨c, a⟩ ∈ H.replies chs ↔ .reply c a ∈ chs := by
  rw [replies, List.mem_filterMap]
  constructor
  · rintro ⟨ch, here, eq⟩
    cases ch with
    | reply c' a' =>
      cases Option.some.inj eq
      exact here
    | _ => cases eq
  · intro here
    exact ⟨_, here, rfl⟩

/-- The first answer of a run, and the choices around it. -/
theorem replies_eq_cons {chs : List (Choice H)} {c : C} {a : A c} {rest : List ((c : C) × A c)}
    (h : H.replies chs = ⟨c, a⟩ :: rest) :
    ∃ as bs, chs = as ++ .reply c a :: bs ∧ H.replies as = [] ∧ H.replies bs = rest := by
  obtain ⟨as, ch, bs, rfl, before, first, later⟩ := List.filterMap_eq_cons_iff.mp h
  refine ⟨as, bs, ?_, List.filterMap_eq_nil_iff.mpr before, later⟩
  cases ch with
  | reply c' a' =>
    cases Option.some.inj first
    rfl
  | _ => cases first

namespace Path

variable [DecidableEq C] {H} {ok : Conf H → Choice H → Conf H → Prop} {x y : Conf H}
  {chs : List (Choice H)}

theorem reach {x₀ : Conf H} (before : H.Reach ok x₀ x) (h : H.Path ok x chs y) :
    H.Reach ok x₀ y := by
  induction h with
  | nil => exact before
  | cons hn allowed _ ih => exact ih (.step _ before hn allowed)

/-- A computed run, with its choices. -/
theorem of_run (h : H.run chs x = some y) : H.Path (fun _ _ _ => True) x chs y := by
  induction chs generalizing x with
  | nil =>
    obtain rfl := Option.some.inj h
    exact .nil x
  | cons ch rest ih =>
    obtain ⟨z, hz, hy⟩ := Option.bind_eq_some_iff.mp h
    exact .cons hz trivial (ih hy)

theorem of_runWhile {p : Conf H → Choice H → Conf H → Bool} (h : H.runWhile p chs x = some y) :
    H.Path (fun x ch y => p x ch y = true) x chs y := by
  induction chs generalizing x with
  | nil =>
    obtain rfl := Option.some.inj h
    exact .nil x
  | cons ch rest ih =>
    obtain ⟨z, hz, hy⟩ := Option.bind_eq_some_iff.mp h
    split at hy
    · rename_i hp
      exact .cons hz hp (ih hy)
    · cases hy

/-- A run cut at one of its choices. -/
theorem cut {as bs : List (Choice H)} {ch : Choice H} (h : H.Path ok x (as ++ ch :: bs) y) :
    ∃ u v, H.Path ok x as u ∧ H.next ch u = some v ∧ ok u ch v ∧ H.Path ok v bs y := by
  induction as generalizing x with
  | nil =>
    cases h with
    | cons hn allowed rest => exact ⟨x, _, .nil x, hn, allowed, rest⟩
  | cons a as ih =>
    cases h with
    | cons hn allowed rest =>
      obtain ⟨u, v, before, step, fine, after⟩ := ih rest
      exact ⟨u, v, .cons hn allowed before, step, fine, after⟩

/-- A handler that runs to its end has made its calls and got the answers of the run. -/
theorem ends (h : H.Path ok x chs y) (one : ∀ e, .start e ∉ chs) {b : α}
    (finished : y.task = .done b) :
    x.task.Ends (H.replies chs) b := by
  induction h with
  | nil x =>
    rw [finished]
    exact .done b
  | @cons x z y ch chs hn allowed rest ih =>
    have later := ih (fun e here => one e (List.mem_cons_of_mem _ here)) finished
    cases ch with
    | move m =>
      obtain ⟨w, _, rfl⟩ := Option.map_eq_some_iff.mp hn
      exact later
    | start e => exact absurd (List.mem_cons_self ..) (one e)
    | reply c a =>
      simp only [next] at hn
      split at hn
      · cases hn
      · rename_i s c' k htask
        split at hn
        · rename_i same
          subst same
          obtain ⟨w, _, rfl⟩ := Option.map_eq_some_iff.mp hn
          rw [htask]
          exact .call a later
        · cases hn

/-- Every step of a run, with the rest of the run behind it. -/
theorem reach_rest (h : H.Path ok x chs y) :
    H.Reach (fun u ch v => ok u ch v ∧ ∃ as bs, chs = as ++ ch :: bs ∧ H.Path ok v bs y) x y := by
  induction h with
  | nil x => exact .refl
  | @cons x z y ch chs hn allowed rest ih =>
    have first : H.Reach (fun u c v => ok u c v ∧
        ∃ as bs, ch :: chs = as ++ c :: bs ∧ H.Path ok v bs y) x z :=
      .step ch .refl hn ⟨allowed, [], chs, rfl, rest⟩
    refine Reach.trans H first (ih.mono H ?_)
    rintro u c v ⟨fine, as, bs, rfl, later⟩
    exact ⟨fine, ch :: as, bs, rfl, later⟩

/-- A handler that ends has got an answer to the call it waited for. -/
theorem answers (h : H.Path ok x chs y) {s : σ} {c : C} {k : A c → Task σ C A α} {b : α}
    (waits : x.task = .call s c k) (finished : y.task = .done b) : ∃ a, .reply c a ∈ chs := by
  induction h with
  | nil x =>
    rw [waits] at finished
    cases finished
  | @cons x z y ch chs hn allowed rest ih =>
    cases ch with
    | move m =>
      obtain ⟨w, _, rfl⟩ := Option.map_eq_some_iff.mp hn
      obtain ⟨a, here⟩ := ih waits finished
      exact ⟨a, List.mem_cons_of_mem _ here⟩
    | reply c' a =>
      simp only [next, waits] at hn
      split at hn
      · rename_i same
        subst same
        exact ⟨a, List.mem_cons_self ..⟩
      · cases hn
    | start e =>
      simp only [next, waits] at hn
      cases hn

/-- A run that ends between two handlers, cut where the handler at its beginning ends. -/
theorem cut_done (h : H.Path ok x chs y) {b : α} (finished : y.task = .done b) :
    ∃ as bs z a, chs = as ++ bs ∧ (∀ e, .start e ∉ as) ∧ z.task = .done a ∧
      H.Path ok x as z ∧ H.Path ok z bs y := by
  induction h with
  | nil x => exact ⟨[], [], x, b, rfl, nofun, finished, .nil x, .nil x⟩
  | @cons x z y ch chs hn allowed rest ih =>
    cases htask : x.task with
    | done a => exact ⟨[], ch :: chs, x, a, rfl, nofun, htask, .nil x, .cons hn allowed rest⟩
    | call s c k =>
      obtain ⟨as, bs, v, a, rfl, one, ends, first, second⟩ := ih finished
      refine ⟨ch :: as, bs, v, a, rfl, ?_, ends, .cons hn allowed first, second⟩
      rintro e here
      rcases List.mem_cons.mp here with rfl | here
      · simp only [next, htask] at hn
        cases hn
      · exact one e here

/-- The rule for whole rounds. `J` speaks of the choices made so far and of a configuration
between two handlers; it survives the moves of the others and each handler as a whole. -/
theorem rounds {J : List (Choice H) → Conf H → Prop}
    (moves : ∀ {hist u m v a}, J hist u → u.task = .done a → H.next (.move m) u = some v →
      ok u (.move m) v → J (hist ++ [.move m]) v)
    (handler : ∀ {hist u e cs v a b}, J hist u → u.task = .done a →
      H.Path ok u (.start e :: cs) v → (∀ e, .start e ∉ cs) → v.task = .done b →
      J (hist ++ .start e :: cs) v)
    {hist : List (Choice H)} {a b : α} (h : H.Path ok x chs y) (idle : x.task = .done a)
    (finished : y.task = .done b) (init : J hist x) : J (hist ++ chs) y := by
  -- by induction on the length: a handler takes many choices at once
  generalize hn : chs.length = n
  induction n using Nat.strongRecOn generalizing hist chs x a with
  | ind n ih =>
    cases h with
    | nil =>
      rw [List.append_nil]
      exact init
    | @cons _ z _ ch chs step allowed rest =>
      rw [List.length_cons] at hn
      cases ch with
      | move m =>
        have moved := moves init idle step allowed
        have same : z.task = .done a := by
          obtain ⟨w, _, rfl⟩ := Option.map_eq_some_iff.mp step
          exact idle
        have later := ih chs.length (by omega) rest same moved rfl
        rwa [List.append_assoc] at later
      | reply c a =>
        simp only [next, idle] at step
        cases step
      | start e =>
        obtain ⟨as, bs, v, a', rfl, one, ends, first, second⟩ := rest.cut_done finished
        have handled := handler init idle (.cons step allowed first) one ends
        have later := ih bs.length (by simp at hn; omega) second ends handled rfl
        rwa [List.append_assoc, List.cons_append] at later

end Path

/-- A step that answers a call: the call was pending, and the world gave the answer. -/
theorem next_reply [DecidableEq C] {c : C} {a : A c} {x y : Conf H}
    (h : H.next (.reply c a) x = some y) : H.reply c a x.world = some y.world := by
  simp only [next] at h
  split at h
  · cases h
  · split at h
    · obtain ⟨w, hw, rfl⟩ := Option.map_eq_some_iff.mp h
      exact hw
    · cases h

end Host

/-- While the shown states satisfy the assumption `As` and the others move only as `Mv`
allows, every call of the task is made in a state that satisfies `I`, and the task is
done only with a result satisfying `Q`. -/
def Safe (H : Host σ C A α W) (As : C → σ → W → Prop) (Mv : H.Move → σ → W → Prop)
    (I : σ → C → W → Prop) (Q : β → W → Prop) :
    Task σ C A β → W → Prop
  | .done a, w => Q a w
  | .call s c k, w => ∃ P : W → Prop, P w ∧
      (∀ w, P w → As c s w → I s c w) ∧
      (∀ w m w', P w → As c s w → Mv m s w → H.move m w = some w' → P w') ∧
      (∀ w a w', P w → As c s w → H.reply c a w = some w' → Safe H As Mv I Q (k a) w')

namespace Safe

variable {H : Host σ C A α W} {As : C → σ → W → Prop} {Mv : H.Move → σ → W → Prop}
  {I : σ → C → W → Prop} {Q : β → W → Prop}

theorem done {a : β} {w : W} (h : Q a w) : Safe H As Mv I Q (.done a) w := h

/-- The call rule: `P` survives the others, shows `I`, and serves every answer. -/
theorem call {s : σ} {c : C} {k : A c → Task σ C A β} {w : W} (P : W → Prop) (now : P w)
    (shown : ∀ w, P w → As c s w → I s c w)
    (stable : ∀ w m w', P w → As c s w → Mv m s w → H.move m w = some w' → P w')
    (answer : ∀ w a w', P w → As c s w → H.reply c a w = some w' → Safe H As Mv I Q (k a) w') :
    Safe H As Mv I Q (.call s c k) w := ⟨P, now, shown, stable, answer⟩

/-- Weaken what is asked of the result. -/
theorem mono {Q' : β → W → Prop} {t : Task σ C A β} {w : W}
    (h : Safe H As Mv I Q t w) (result : ∀ a w, Q a w → Q' a w) : Safe H As Mv I Q' t w := by
  induction t generalizing w with
  | done a => exact result a w h
  | call s c k ih =>
    obtain ⟨P, now, shown, stable, answer⟩ := h
    exact ⟨P, now, shown, stable, fun w a w' hp ha hr => ih a (answer w a w' hp ha hr)⟩

/-- The sequence rule. -/
theorem bind {γ : Type} {R : γ → W → Prop} {t : Task σ C A β} {f : β → Task σ C A γ} {w : W}
    (h : Safe H As Mv I Q t w) (rest : ∀ a w, Q a w → Safe H As Mv I R (f a) w) :
    Safe H As Mv I R (t.bind f) w := by
  induction t generalizing w with
  | done a => exact rest a w h
  | call s c k ih =>
    obtain ⟨P, now, shown, stable, answer⟩ := h
    exact ⟨P, now, shown, stable, fun w a w' hp ha hr => ih a (answer w a w' hp ha hr)⟩

end Safe

section Runs

variable {H : Host σ C A α W}

abbrev During {E : Type} (As : Option (E × C) → σ → W → Prop) (e : E) : C → σ → W → Prop :=
  fun c => As (some (e, c))

/-- A result that is settled, or a running handler that is safe until its own end. -/
def Settled (H : Host σ C A α W) (As : Option (H.Event × C) → σ → W → Prop)
    (Mv : H.Move → σ → W → Prop) (I : σ → C → W → Prop) (Q : α → W → Prop) (x : Conf H) : Prop :=
  (∃ a, x.task = .done a ∧ Q a x.world ∧ As none (H.out a) x.world) ∨
  (∃ s c k e, x.task = .call s c k ∧ x.last = some e ∧ As (some (e, c)) s x.world ∧
    Safe H (During As e) Mv I Q x.task x.world)

/-- What a settled configuration shows. -/
theorem Settled.shows {As : Option (H.Event × C) → σ → W → Prop} {Mv : H.Move → σ → W → Prop}
    {I : σ → C → W → Prop} {Q : α → W → Prop} {x : Conf H} (h : Settled H As Mv I Q x) :
    (∃ a, x.task = .done a ∧ Q a x.world) ∨
    (∃ s c k, x.task = .call s c k ∧ I s c x.world) := by
  rcases h with ⟨a, ht, hq, _⟩ | ⟨s, c, k, e, ht, _, ha, hs⟩
  · exact Or.inl ⟨a, ht, hq⟩
  · rw [ht] at hs
    obtain ⟨P, now, shown, _, _⟩ := hs
    exact Or.inr ⟨s, c, k, ht, shown _ now ha⟩

variable [DecidableEq C] {ok : Conf H → Choice H → Conf H → Prop} {x₀ : Conf H}

/-- The run rule. The assumption may depend on the handler and its call; a result `Q`
survives the others, and every handler started in `Q` is safe until its own end. -/
theorem Host.Reach.settled (As : Option (H.Event × C) → σ → W → Prop) (Mv : H.Move → σ → W → Prop)
    (I : σ → C → W → Prop) (Q : α → W → Prop)
    (assumed : ∀ x ch y, H.next ch x = some y → ok x ch y → As y.waiting y.state y.world)
    (moves : ∀ x m y, H.next (.move m) x = some y → ok x (.move m) y → Mv m x.state x.world)
    (stable : ∀ a w m w', Q a w → As none (H.out a) w → Mv m (H.out a) w →
      H.move m w = some w' → Q a w')
    (starts : ∀ x e a t, x.task = .done a → H.start e a x.world = some t →
      ok x (.start e) ⟨some e, t, x.world⟩ → Q a x.world → As none (H.out a) x.world →
      Safe H (During As e) Mv I Q t x.world)
    (init : ∃ a, x₀.task = .done a ∧ Q a x₀.world ∧ As none (H.out a) x₀.world)
    {x : Conf H} (h : H.Reach ok x₀ x) : Settled H As Mv I Q x := by
  apply Reach.invariant H (Settled H As Mv I Q) (Or.inl init) _ h
  intro x ch y hx hn hok
  have hy := assumed x ch y hn hok
  -- A handler of event `e` in a safe state, wherever the choice has taken it.
  have settle : ∀ e (t : Task σ C A α) w, y = ⟨some e, t, w⟩ →
      Safe H (During As e) Mv I Q t w → Settled H As Mv I Q y := by
    intro e t w hyt hs
    subst hyt
    cases t with
    | done a => exact Or.inl ⟨a, rfl, hs, hy⟩
    | call s c k => exact Or.inr ⟨s, c, k, e, rfl, rfl, hy, hs⟩
  rcases H.next_cases hn with ⟨m, w, rfl, hm, rfl⟩ | ⟨s, c, k, a, w, ht, hr, rfl⟩ |
    ⟨e, a, t, rfl, ht, hst, rfl⟩
  · have hmv := moves x m _ hn hok
    rcases hx with ⟨a, ht, hq, ha⟩ | ⟨s, c, k, e, ht, hl, ha, hs⟩
    · rw [Conf.state, ht] at hmv
      refine Or.inl ⟨a, ht, stable a _ m w hq ha hmv hm, ?_⟩
      simpa only [Conf.waiting, Conf.state, ht] using hy
    · refine Or.inr ⟨s, c, k, e, ht, hl, ?_, ?_⟩
      · simpa only [Conf.waiting, Conf.state, ht, hl] using hy
      · simp only [ht] at hs ⊢
        rw [Conf.state, ht] at hmv
        obtain ⟨P, now, shown, keep, answer⟩ := hs
        exact ⟨P, keep _ m w now ha hmv hm, shown, keep, answer⟩
  · rcases hx with ⟨a', ht', _, _⟩ | ⟨s', c', k', e, ht', hl, ha, hs⟩
    · rw [ht'] at ht; cases ht
    · rw [ht'] at ht
      cases ht
      rw [ht'] at hs
      obtain ⟨P, now, _, _, answer⟩ := hs
      exact settle e (k a) w (by simp [hl]) (answer _ a w now ha hr)
  · rcases hx with ⟨a', ht', hq, ha⟩ | ⟨s', c', k', e', ht', _, _, _⟩
    · rw [ht'] at ht
      cases ht
      exact settle e t x.world rfl (starts x e a t ht' hst hok hq ha)
    · rw [ht'] at ht; cases ht

end Runs

-- From here on the rules are the only way to speak of `Safe`: unfolding it would
-- run the task.
attribute [irreducible] Safe

end Interleaving
