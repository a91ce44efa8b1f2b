import Lancaster.Base.History

/-!
# Handlers that run to their end

`Completes` follows one run of a task to its end: the answers it gets and what they leave of the
world, while the others stand still. `Shows` speaks of all calls of a task and of its result,
whatever the answers are. A task that always gets an answer completes, and a handler that
completes is the rest of a run.
-/

namespace Interleaving

variable {σ C : Type} {A : C → Type} {α β W : Type}

/-- From the first world to the second one the task gets its answers and ends with a result. Each
of its calls is made in a state that is good. -/
inductive Completes (H : Host σ C A α W) (good : σ → C → W → Prop) {β : Type} :
    Task σ C A β → W → β → W → Prop where
  | done (b : β) (w : W) : Completes H good (.done b) w b w
  | call {s : σ} {c : C} {k : A c → Task σ C A β} {w w₁ w' : W} {b : β} (a : A c) (shown : good s c w)
      (replied : H.reply c a w = some w₁) (more : Completes H good (k a) w₁ b w') :
      Completes H good (.call s c k) w b w'

namespace Completes

variable {H : Host σ C A α W} {good : σ → C → W → Prop} {w w₁ w' : W}

theorem bind {t : Task σ C A β} {γ : Type} {f : β → Task σ C A γ} {b : β} {r : γ}
    (first : Completes H good t w b w₁) (rest : Completes H good (f b) w₁ r w') :
    Completes H good (t.bind f) w r w' := by
  induction first with
  | done b w => exact rest
  | call a shown replied _ ih => exact .call a shown replied (ih rest)

/-- What every answer leaves alone. -/
theorem keeps {t : Task σ C A β} {b : β} (h : Completes H good t w b w') {J : W → Prop}
    (replies : ∀ c a u u', H.reply c a u = some u' → J u → J u') (now : J w) : J w' := by
  induction h with
  | done b w => exact now
  | call a _ replied _ ih => exact ih (replies _ a _ _ replied now)

/-- The answers of the run are answers of the task. -/
theorem ends {t : Task σ C A β} {b : β} (h : Completes H good t w b w') : ∃ tr, t.Ends tr b := by
  induction h with
  | done b w => exact ⟨[], .done b⟩
  | call a _ _ _ ih =>
    obtain ⟨tr, more⟩ := ih
    exact ⟨_, .call a more⟩

/-- A handler that completes is a run from the configuration in which it is started. -/
theorem reach [DecidableEq C] {t : Task σ C A α} {b : α}
    (h : Completes H good t w b w') {e : H.Event} {ok : Conf H → Choice H → Conf H → Prop}
    (calls : ∀ u ch s c k v, good s c v → ok u ch ⟨some e, .call s c k, v⟩)
    (finished : ∀ u ch, ok u ch ⟨some e, .done b, w'⟩) {x : Conf H} {ch : Choice H}
    (started : H.next ch x = some ⟨some e, t, w⟩) : H.Reach ok x ⟨some e, .done b, w'⟩ := by
  induction h generalizing x ch with
  | done b w => exact .step ch .refl started (finished x ch)
  | @call s c k w w₁ w' b a shown replied more ih =>
    have answered : H.next (.reply c a) ⟨some e, .call s c k, w⟩ = some ⟨some e, k a, w₁⟩ := by
      simp only [Host.next, ↓reduceDIte, replied, Option.map_some]
    exact Host.Reach.trans H (.step ch .refl started (calls _ _ s c k w shown))
      (ih finished answered)

end Completes

namespace Task

variable {ok : (c : C) × A c → Prop} {P : σ → C → Prop} {Q : α → Prop}

/-- Whatever the answers are, among those that can be given: every call is made in a state that
satisfies `P`, and `Q` holds of the result. -/
def Shows (ok : (c : C) × A c → Prop) (P : σ → C → Prop) (Q : α → Prop) : Task σ C A α → Prop
  | .done a => Q a
  | .call s c k => P s c ∧ ∀ a, ok ⟨c, a⟩ → Shows ok P Q (k a)

namespace Shows

theorem done {a : α} (h : Q a) : Shows ok P Q (.done a : Task σ C A α) := h

theorem call {s : σ} {c : C} {k : A c → Task σ C A α} (one : P s c)
    (more : ∀ a, ok ⟨c, a⟩ → Shows ok P Q (k a)) : Shows ok P Q (.call s c k) := ⟨one, more⟩

theorem bind {R : β → Prop} {t : Task σ C A β} {f : β → Task σ C A α} (first : Shows ok P R t)
    (rest : ∀ b, R b → Shows ok P Q (f b)) : Shows ok P Q (t.bind f) := by
  induction t with
  | done b => exact rest b first
  | call s c k ih => exact ⟨first.1, fun a fine => ih a (first.2 a fine)⟩

/-- Weaken what is asked of the result. -/
theorem mono {Q' : α → Prop} {t : Task σ C A α} (h : Shows ok P Q t) (result : ∀ a, Q a → Q' a) :
    Shows ok P Q' t := by
  induction t with
  | done a => exact result a h
  | call s c k ih => exact ⟨h.1, fun a fine => ih a (h.2 a fine)⟩

/-- A task whose calls are always answered completes. -/
theorem completes {H : Host σ C A β W} {good : σ → C → W → Prop} {answer : (c : C) → A c}
    {J : W → Prop} {t : Task σ C A α} (h : Shows ok P Q t) (can : ∀ c, ok ⟨c, answer c⟩)
    (shown : ∀ s c w, J w → P s c → good s c w)
    (replies : ∀ c w, J w → ∃ w', H.reply c (answer c) w = some w' ∧ J w') {w : W} (now : J w) :
    ∃ w', Completes H good t w (t.answered answer).2 w' ∧ Q (t.answered answer).2 ∧ J w' := by
  induction t generalizing w with
  | done a => exact ⟨w, .done a w, h, now⟩
  | call s c k ih =>
    obtain ⟨w₁, replied, after⟩ := replies c w now
    obtain ⟨w', more, result, ended⟩ := ih (answer c) (h.2 _ (can c)) after
    exact ⟨w', .call (answer c) (shown s c w now h.1) replied more, result, ended⟩

end Shows

end Task

-- As with `Along`, the rules are the only way to speak of `Shows` from here on.
attribute [irreducible] Task.Shows

end Interleaving
