import Lancaster.Base.Completion
import Lancaster.Convergence
import Lancaster.PacketCodec

/-!
# Runs in which nothing is written

The writer stands still, and one event of the sender or one step of a receiver is taken after
the other. `Leads` speaks of the sender between two handlers and of the world around it, and of
where such a run can bring them.
-/

namespace Lancaster

open Bytes Interleaving Sender

variable {g : Geometry}

/-- The call is made while the queue is not overrun and there is a client. -/
def Calm (e : Event) (s : Sender g) (call : Call) (w : World g) : Prop :=
  undisturbed s w (some (e, call)) ∧ 0 < s.clientCount

/-- A task of the handler of `e` completes in `netEnv`. -/
abbrev Runs (e : Event) {β : Type} : SenderTask g β → World g → β → World g → Prop :=
  Interleaving.Completes (netEnv g).host (Calm e)

/-- The sender `s` waits for an event in the world `w`, and nothing has failed. -/
structure Idling (x : Conf (netEnv g).host) (s : Sender g) (w : World g) : Prop where
  idle : ∃ a, x.task = .done a ∧ a.hasQuit = false ∧ ¬ Status.Failed a.status ∧ a.sndr = s
  world : x.world = w

namespace Idling

variable {x : Conf (netEnv g).host} {s : Sender g} {w : World g}

theorem state (h : Idling x s w) : x.state = s := by
  obtain ⟨a, task, _, _, same⟩ := h.idle
  rw [Conf.state, task]
  exact same

theorem waiting (h : Idling x s w) : x.waiting = none := by
  obtain ⟨a, task, _⟩ := h.idle
  rw [Conf.waiting, task]

theorem of_turn (e : Option Event) {st : Int} (fine : ¬ Status.Failed st) (s : Sender g)
    (w : World g) :
    Idling (g := g) ⟨e, .done (turn false (st, s)), w⟩ s w :=
  ⟨⟨_, rfl, rfl, fine, rfl⟩, rfl⟩

end Idling

structure Unwritten (w w' : World g) : Prop where
  store : w'.store = w.store
  writer : w'.writer = w.writer
  accepted : w'.accepted = w.accepted

namespace Unwritten

variable {w w' w'' : World g}

theorem refl (w : World g) : Unwritten w w := ⟨rfl, rfl, rfl⟩

theorem trans (h : Unwritten w w') (h' : Unwritten w' w'') : Unwritten w w'' :=
  ⟨h'.store.trans h.store, h'.writer.trans h.writer, h'.accepted.trans h.accepted⟩

end Unwritten

/-- Only an accepted client leaves more than its bytes. -/
theorem reply_unwritten {E : Env g} {c : Call} {a : c.Ans g} {w w' : World g}
    (h : E.host.reply c a w = some w') (plain : ∀ i, c ≠ .lib (.sockAccept i)) :
    Unwritten w w' := by
  refine ⟨(reply_same h).1, reply_writer h, ?_⟩
  simp only [Env.host] at h
  split at h
  · unfold World.reply at h
    split at h <;> grind [World.failed, World.read]
  · cases h

/-- From `s` in `w` a run leads to `s'` in `w'`, and nothing is written meanwhile. -/
structure Leads (s : Sender g) (w : World g) (s' : Sender g) (w' : World g) : Prop where
  reach : ∀ x, Idling x s w → ∃ y, (netEnv g).host.Reach Admissible x y ∧ Idling y s' w'
  unwritten : Unwritten w w'

namespace Leads

variable {s s' s'' : Sender g} {w w' w'' : World g}

theorem refl (s : Sender g) (w : World g) : Leads s w s w :=
  ⟨fun x idling => ⟨x, .refl, idling⟩, .refl w⟩

theorem trans (h : Leads s w s' w') (h' : Leads s' w' s'' w'') : Leads s w s'' w'' := by
  refine ⟨fun x idling => ?_, h.unwritten.trans h'.unwritten⟩
  obtain ⟨y, first, there⟩ := h.reach x idling
  obtain ⟨z, second, ended⟩ := h'.reach y there
  exact ⟨z, first.trans _ second, ended⟩

/-- A handler that completes and does not fail. -/
theorem handler {e : Event} (sized : sizedEvent g e) (allowed : (netEnv g).allows e s w)
    {t : SenderTask g (Int × Sender g)} (code : s.handle e = t.bind fun r => .done (turn false r))
    {st : Int} (runs : Runs e t w (st, s') w') (fine : ¬ Status.Failed st)
    (clients : 0 < s'.clientCount) (unwritten : Unwritten w w') : Leads s w s' w' := by
  refine ⟨fun x idling => ?_, unwritten⟩
  obtain ⟨a, task, alive, unfailed, rfl⟩ := idling.idle
  have starts : (netEnv g).host.next (.start e) x = some ⟨some e, a.sndr.handle e, w⟩ := by
    have able : ¬ (a.hasQuit ∨ (Status.Failed a.status ∧ isQuit e = false)) := by
      rintro (quit | ⟨failed, _⟩)
      · rw [alive] at quit
        cases quit
      · exact unfailed failed
    have world := idling.world
    subst world
    have both : sizedEvent g e ∧ (netEnv g).allows e a.sndr x.world := ⟨sized, allowed⟩
    simp only [Host.next, task, Env.host, able, ↓reduceIte, both, and_self, Option.map_some]
  rw [code] at starts
  have whole : Runs e (t.bind fun r => .done (turn false r)) w (turn false (st, s')) w' :=
    runs.bind (.done _ w')
  refine ⟨_, whole.reach ?_ ?_ starts, .of_turn _ fine s' w'⟩
  · intro u ch s₁ c k v calm
    exact ⟨calm.1, fun _ => calm.2⟩
  · intro u ch
    exact ⟨rfl, fun _ => clients⟩

/-- A move of a receiver. -/
theorem move {m : NetMove g} (moved : World.netMove m w = some w') (unwritten : Unwritten w w') :
    Leads s w s w' := by
  refine ⟨fun x idling => ?_, unwritten⟩
  have world := idling.world
  subst world
  have step : (netEnv g).host.next (.move m) x = some { x with world := w' } := by
    simp only [Host.next, Env.host, netEnv, moved, Option.map_some]
  refine ⟨_, .step _ .refl step ⟨?_, fun clients => clients⟩, ⟨idling.idle, rfl⟩⟩
  have absent : ({ x with world := w' } : Conf (netEnv g).host).waiting = none := idling.waiting
  rw [absent]
  rfl

end Leads

/-- The sender serves receiver `c` while no update is under way. -/
structure Serving (c : Nat) (s : Sender g) (w : World g) : Prop where
  repairing : Repairing c .rest s w
  counted : 0 < s.clientCount
  complete : w.writer = .idle
  going : (w.peers c).ended = false
  client : ∃ clnt, s.clients c = some clnt

namespace Serving

variable {c : Nat} {s s' : Sender g} {w w' : World g}

/-- What holds throughout a run holds where it leads. -/
theorem leads (h : Serving c s w) (run : Leads s w s' w') (going : (w'.peers c).ended = false)
    (client : ∃ clnt, s'.clients c = some clnt) : Serving c s' w' := by
  have here : Idling ((netEnv g).idleConf s w) s w :=
    .of_turn none not_failed_ok s w
  obtain ⟨y, reached, there⟩ := run.reach _ here
  have counted : ∀ z, (netEnv g).host.Reach Admissible ((netEnv g).idleConf s w) z →
      0 < z.state.clientCount := by
    intro z before
    refine before.invariant _ (fun z => 0 < z.state.clientCount) ?_ ?_
    · rw [here.state]
      exact h.counted
    · intro u ch v clients _ allowed
      exact allowed.2 clients
  have known := reached.strengthen _ counted
  have positive := counted y reached
  rw [there.state] at positive
  have kept := (repairingKept c).reaches_from
    (fun _ _ _ _ known => ⟨known.1.1, Or.inl known.2⟩) (fun _ _ _ _ _ => trivial)
    (fun _ _ _ _ _ _ => trivial) rfl ⟨.rest, h.repairing, fun _ _ => rfl⟩
    ⟨rfl, Or.inl h.counted⟩ known
  obtain ⟨a, task, alive, fine, rfl⟩ := there.idle
  rcases kept with ⟨a', same, ph, inv, rest⟩ | ⟨_, _, _, busy, _⟩
  · rw [task] at same
    obtain rfl : a = a' := by injection same
    rw [rest alive fine, there.world] at inv
    exact ⟨inv, positive, run.unwritten.writer.trans h.complete, going, client⟩
  · rw [task] at busy
    cases busy

/-- No record is locked. -/
theorem free (h : Serving c s w) (id : Int) : 0 ≤ (w.store.record id).rev := by
  by_contra locked
  obtain ⟨r, held⟩ := h.repairing.unlocked.free id (not_le.mp locked)
  rw [h.complete] at held
  cases held

theorem accepted (h : Serving c s w) : w.accepted c = true := by
  obtain ⟨clnt, here⟩ := h.client
  by_contra new
  rw [(h.repairing.net.gap.new c (Bool.eq_false_iff.mpr new)).1] at here
  cases here

theorem written (h : Serving c s w) : w.written = w.store.qHead := by
  rw [World.written, h.complete]

theorem behind (h : Serving c s w) : s.lastQIdx ≤ w.store.qHead := h.repairing.queue.place

theorem loaded (h : Serving c s w) : Loaded s s.staged := loaded_of_rest h.repairing.net.stream

end Serving

end Lancaster
