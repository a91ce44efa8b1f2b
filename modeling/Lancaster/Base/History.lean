import Lancaster.Base.Interleaving

/-!
# Tasks with a history

A history is what an observer makes of the answers that a task gets, one after the other. `Along`
is the proof rule: whatever the answers are, among those that can be given, a fact about the history
holds at every call and at the end, and the result is as it should be.
-/

namespace Interleaving

variable {σ C : Type} {A : C → Type} {α β W G : Type}

namespace Task

variable {note : G → (c : C) × A c → G} {ok : (c : C) × A c → Prop} {I : G → Prop}
  {Q : α → G → Prop}

/-- `I` holds of the history throughout, and `Q` of the result and the history at the end. -/
def Along (note : G → (c : C) × A c → G) (ok : (c : C) × A c → Prop) (I : G → Prop)
    (Q : α → G → Prop) : Task σ C A α → G → Prop
  | .done a, l => I l ∧ Q a l
  | .call _ c k, l => I l ∧ ∀ a, ok ⟨c, a⟩ → Along note ok I Q (k a) (note l ⟨c, a⟩)

namespace Along

theorem done {a : α} {l : G} (now : I l) (result : Q a l) :
    Along note ok I Q (.done a : Task σ C A α) l := ⟨now, result⟩

theorem call {s : σ} {c : C} {k : A c → Task σ C A α} {l : G} (now : I l)
    (answer : ∀ a, ok ⟨c, a⟩ → Along note ok I Q (k a) (note l ⟨c, a⟩)) :
    Along note ok I Q (.call s c k) l := ⟨now, answer⟩

theorem now {t : Task σ C A α} {l : G} (h : Along note ok I Q t l) : I l := by
  cases t with
  | done a => exact h.1
  | call s c k => exact h.1

/-- Weaken what is asked of the result. -/
theorem mono {Q' : α → G → Prop} {t : Task σ C A α} {l : G} (h : Along note ok I Q t l)
    (result : ∀ a l, I l → Q a l → Q' a l) : Along note ok I Q' t l := by
  induction t generalizing l with
  | done a => exact ⟨h.1, result a l h.1 h.2⟩
  | call s c k ih => exact ⟨h.1, fun a fine => ih a (h.2 a fine)⟩

/-- The sequence rule. -/
theorem bind {R : β → G → Prop} {t : Task σ C A α} {f : α → Task σ C A β} {l : G}
    (h : Along note ok I Q t l) (rest : ∀ a l, I l → Q a l → Along note ok I R (f a) l) :
    Along note ok I R (t.bind f) l := by
  induction t generalizing l with
  | done a => exact rest a l h.1 h.2
  | call s c k ih => exact ⟨h.1, fun a fine => ih a (h.2 a fine)⟩

/-- A task that has ended. -/
theorem ends {t : Task σ C A α} {l : G} {tr : List ((c : C) × A c)} {b : α}
    (h : Along note ok I Q t l) (ended : t.Ends tr b) (fine : ∀ r ∈ tr, ok r) :
    I (tr.foldl note l) ∧ Q b (tr.foldl note l) := by
  induction ended generalizing l with
  | done a => exact h
  | call a more ih =>
    rw [List.foldl_cons]
    apply ih (h.2 a (fine _ (List.mem_cons_self ..)))
    exact fun r here => fine r (List.mem_cons_of_mem _ here)

/-- Nothing is noted of a task. -/
theorem unnoted {t : Task σ C A α} {l : G} (same : ∀ r, note l r = l) (now : I l)
    (result : ∀ tr b, t.Ends tr b → Q b l) : Along note ok I Q t l := by
  induction t with
  | done a => exact ⟨now, result [] a (.done a)⟩
  | call s c k ih =>
    refine ⟨now, fun a _ => ?_⟩
    rw [same]
    exact ih a fun tr b ends => result _ b (.call a ends)

end Along

/-- The calls of a task that always gets the same answer to a call, and its result. -/
def answered (answer : (c : C) → A c) : Task σ C A α → List ((c : C) × A c) × α
  | .done a => ([], a)
  | .call _ c k => (⟨c, answer c⟩ :: ((k (answer c)).answered answer).1, ((k (answer c)).answered answer).2)

theorem ends_answered (answer : (c : C) → A c) (t : Task σ C A α) :
    t.Ends (t.answered answer).1 (t.answered answer).2 := by
  induction t with
  | done a => exact .done a
  | call s c k ih => exact .call (answer c) (ih (answer c))

theorem mem_answered {answer : (c : C) → A c} {t : Task σ C A α} {r : (c : C) × A c}
    (here : r ∈ (t.answered answer).1) : r.2 = answer r.1 := by
  induction t with
  | done a => cases here
  | call s c k ih =>
    rcases List.mem_cons.mp here with rfl | here
    · rfl
    · exact ih _ here

theorem answered_bind (answer : (c : C) → A c) (t : Task σ C A α) (f : α → Task σ C A β) :
    ((t.bind f).answered answer).2 = ((f (t.answered answer).2).answered answer).2 := by
  induction t with
  | done a => rfl
  | call s c k ih => exact ih (answer c)

end Task

/-- The run rule. The observer notes the start of a handler and its answers, but no move of the
others; every handler that starts in a configuration of the run goes `Along`. -/
theorem Host.Path.along [DecidableEq C] {H : Host σ C A α W}
    {ok : Conf H → Choice H → Conf H → Prop} {x₀ x y : Conf H} {chs : List (Choice H)}
    {noted : G → Choice H → G} {note : G → (c : C) × A c → G} {can : (c : C) × A c → Prop}
    {I : G → Prop} {Q : α → G → Prop}
    (moves : ∀ l m, noted l (.move m) = l)
    (replies : ∀ l c a, noted l (.reply c a) = note l ⟨c, a⟩)
    (answers : ∀ c a w w', H.reply c a w = some w' → can ⟨c, a⟩)
    (starts : ∀ u e a t l, H.Reach ok x₀ u → u.task = .done a → H.start e a u.world = some t →
      I l → Q a l → Task.Along note can I Q t (noted l (.start e)))
    (before : H.Reach ok x₀ x) (path : H.Path ok x chs y) {l : G}
    (init : Task.Along note can I Q x.task l) :
    Task.Along note can I Q y.task (chs.foldl noted l) := by
  induction path generalizing l with
  | nil x => exact init
  | @cons x z y ch chs hn allowed rest ih =>
    rw [List.foldl_cons]
    apply ih (.step ch before hn allowed)
    cases ch with
    | move m =>
      obtain ⟨w, _, rfl⟩ := Option.map_eq_some_iff.mp hn
      rw [moves]
      exact init
    | reply c a =>
      simp only [Host.next] at hn
      split at hn
      · cases hn
      · rename_i s c' k task
        split at hn
        · rename_i same
          subst same
          obtain ⟨w, hw, rfl⟩ := Option.map_eq_some_iff.mp hn
          rw [task] at init
          rw [replies]
          exact init.2 a (answers _ _ _ _ hw)
        · cases hn
    | start e =>
      simp only [Host.next] at hn
      split at hn
      · rename_i a task
        obtain ⟨t, ht, rfl⟩ := Option.map_eq_some_iff.mp hn
        rw [task] at init
        exact starts x e a t l before task ht init.1 init.2
      · cases hn

/-- A handler runs to its end if its answers can be given in every world that is left by one. -/
theorem Host.reach_answered [DecidableEq C] {H : Host σ C A α W} {answer : (c : C) → A c}
    {J : W → Prop} (replies : ∀ c w, J w → ∃ w', H.reply c (answer c) w = some w' ∧ J w')
    (last : Option H.Event) (t : Task σ C A α) {w : W} (now : J w) :
    ∃ w', H.Reachable ⟨last, t, w⟩ ⟨last, .done (t.answered answer).2, w'⟩ ∧ J w' := by
  induction t generalizing w with
  | done a => exact ⟨w, .refl, now⟩
  | call s c k ih =>
    obtain ⟨w₁, replied, after⟩ := replies c w now
    obtain ⟨w', later, ended⟩ := ih (answer c) after
    refine ⟨w', Reach.trans H (.step (.reply c (answer c)) .refl ?_ trivial) later, ended⟩
    simp only [Host.next, ↓reduceDIte, replied, Option.map_some]

-- As with `Safe`, the rules are the only way to speak of `Along` from here on.
attribute [irreducible] Task.Along

end Interleaving
