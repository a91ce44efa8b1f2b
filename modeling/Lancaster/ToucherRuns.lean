import Lancaster.ToucherSteps

/-!
# The runs of a toucher

In every interleaving a toucher uses no memory that is not allocated and leaves none behind, and
what its callers and its thread see is a set of storages.
-/

namespace Lancaster

open Linked

namespace Toucher

variable {n : Nat}

section Runs

variable {m m' : Machine n} {a : Atomic.State (Option (Fin n)) Operation Outcome (List Nat)}

/-- A caller begins. -/
theorem Represents.call (h : Represents m a) {i : Fin n} (serves : m.owner.serves = true)
    (idle : m.place (some i) = .idle) {p : At} {op : Operation} (is : ¬ p.Holds)
    (client : p.client = .called op) (kind : p.ofThread = false) :
    ∃ b, Atomic.Run TargetSet a [.call (some i) op] b ∧ Represents (m.set (some i) p) b := by
  obtain ⟨l, inv, value⟩ := h.inv
  have out : ¬ (m.place (some i)).Holds := by
    rw [idle]
    exact fun h => h
  have free : a.clients (some i) = .idle := by
    rw [h.clients, idle]
    rfl
  have life : Life (m.set (some i) p) :=
    { inv.life with
      calls := fun _ _ => serves
      alive := by
        rw [set_at_other m p (by simp)]
        exact inv.life.alive }
  have kinds := kind_set (p := p) inv.kind (w := some i) (by rw [kind, idle]; rfl)
  refine ⟨_, .one (.call op free),
    ⟨l, ⟨inv.sane, kinds, inv.once, life, inv.order.aside out is⟩, value⟩, ?_⟩
  rw [← client]
  exact clients_set h.clients p

/-- What is done next, the set does as well. -/
theorem Represents.next (h : Represents m a) {ch : Choice n} (step : Machine.next ch m = some m') :
    ∃ b, Atomic.Run TargetSet a (Machine.seen ch m) b ∧ Represents m' b := by
  obtain ⟨l, inv, value⟩ := h.inv
  cases ch with
  | add i store =>
    obtain ⟨⟨serves, idle⟩, ⟨⟩⟩ := Option.ite_none_right_eq_some.mp step
    exact h.call serves idle (fun h => h) rfl rfl
  | remove i store =>
    obtain ⟨⟨serves, idle⟩, ⟨⟩⟩ := Option.ite_none_right_eq_some.mp step
    exact h.call serves idle (fun h => h) rfl rfl
  | step w r => exact h.advance step
  | create period =>
    obtain ⟨⟨absent, _⟩, ⟨⟩⟩ := Option.ite_none_right_eq_some.mp step
    refine ⟨a, .refl, ⟨l, ⟨inv.sane, inv.kind, inv.once, ?_, ?_⟩, value⟩, h.clients⟩
    · obtain ⟨toucher, thr, threadless, calls, alive, unjoined, stopped⟩ := inv.life
      constructor <;> simp_all
    · obtain ⟨_, nobody, mem, rfl⟩ | keeps | keeps | ⟨_, _, _, _, stands | ⟨_, stands | stands⟩⟩ :=
        inv.order
      · refine .free trivial rfl nobody ?_
        rw [mem]
        exact Owns.empty
      all_goals simp_all
  | stop =>
    obtain ⟨⟨ready, thr, fresh⟩, ⟨⟩⟩ := Option.ite_none_right_eq_some.mp step
    refine ⟨a, .refl, ⟨l, inv.owned ?_ (by simp [ready]) trivial rfl rfl rfl rfl, value⟩, h.clients⟩
    obtain ⟨toucher, _, threadless, calls, alive, unjoined, stopped⟩ := inv.life
    constructor <;> simp_all
  | destroy =>
    obtain ⟨⟨ready, idle⟩, ⟨⟩⟩ := Option.ite_none_right_eq_some.mp step
    refine ⟨a, .refl, ⟨l, inv.owned ?_ (by simp [ready]) trivial rfl rfl rfl rfl, value⟩, h.clients⟩
    obtain ⟨toucher, thr, threadless, calls, alive, unjoined, stopped⟩ := inv.life
    constructor <;> simp_all [At.Busy]
  | owner r =>
    obtain ⟨inv, clients⟩ := inv.owner step
    exact ⟨a, .refl, ⟨l, inv, value⟩, fun w => (h.clients w).trans (clients w).symm⟩

abbrev Machine.shows (chs : List (Choice n)) (m : Machine n) :
    List (Atomic.Event (Option (Fin n)) Operation Outcome) :=
  Atomic.history Machine.next Machine.seen chs m

theorem Represents.start : Represents (Machine.init n) (.start []) := by
  refine ⟨⟨[], Inv.start, rfl⟩, fun w => ?_⟩
  cases w <;> rfl

theorem Represents.run (h : Represents m a) {chs : List (Choice n)}
    (ran : Machine.run chs m = some m') :
    ∃ b, Atomic.Run TargetSet a (Machine.shows chs m) b ∧ Represents m' b :=
  Atomic.simulated (fun _ _ _ _ (_ : True) => trivial)
    (fun _ _ _ _ step _ here => here.next step) ran trivial h

/-- Whoever is between lock and unlock is the only one. -/
theorem Order.alone {l : List (Nat × Nat)} (h : Order m l) {v w : Option (Fin n)}
    (first : (m.place v).Holds) (second : (m.place w).Holds) : v = w :=
  (h.holding second).2.2.2 v first

/-- However the callers, the thread and the owner take turns, whichever allocations, clocks, waits
and storages fail, and whatever addresses come back from `malloc`, as long as the toucher is stopped
once at most and only destroyed when nobody adds or removes: nothing is used after it is
freed, nothing is freed twice and the thread is not joined twice; one at most is between lock
and unlock; and when `toucher_destroy` has returned, nothing is left allocated. -/
theorem memory_safe {chs : List (Choice n)} (ran : Machine.run chs (Machine.init n) = some m) :
    m.fault = false ∧ (∀ v w, (m.place v).Holds → (m.place w).Holds → v = w) ∧
      (m.owner = .gone → (∀ t, m.mem.heap t = none) ∧ m.thr = false ∧ m.toucher = false ∧
        ∀ w, ¬ (m.place w).Busy) := by
  obtain ⟨_, _, h⟩ := Represents.start.run ran
  obtain ⟨l, inv, _⟩ := h.inv
  refine ⟨inv.sane, fun v w first second => inv.order.alone first second, fun gone => ?_⟩
  obtain ⟨t, rest, _, owns, ends⟩ := inv.order.freed (by simp [gone]) (by simp [gone])
  obtain rfl : rest = [] := by simpa [gone] using ends
  obtain rfl := owns.seg
  refine ⟨owns.heap_nil, inv.life.threadless (by simp [gone]), by simp [inv.life.toucher, gone], ?_⟩
  intro w busy
  have kept := inv.life.keeps busy
  rw [gone] at kept
  exact kept

def created : List (Choice 1) := [.create 1, .owner .ok, .owner .ok, .owner .ok]

/-- A call of `toucher_add_storage` that passes `k` targets and gets its own at `t`. -/
def adds (store k t : Nat) : List (Choice 1) :=
  .add 0 (some store) :: List.replicate (k + 2) (.step (some 0) .ok) ++
    [.step (some 0) (.mem t), .step (some 0) .ok, .step (some 0) .ok, .step (some 0) .ok]

/-- A call of `toucher_remove_storage` that passes `k` targets, up to `spin_unlock`. -/
def removes (store k : Nat) : List (Choice 1) :=
  .remove 0 (some store) :: List.replicate (k + 4) (.step (some 0) .ok)

/-- A turn of the thread up to the first storage that it touches. -/
def turn (now : Int) : List (Choice 1) :=
  [.step none .ok, .step none .ok, .step none (.time now), .step none .ok]

/-- Storages 7 and 8 are added, and 7 is removed again. -/
def sevenRemoved : List (Choice 1) := created ++ adds 7 0 100 ++ adds 8 1 200 ++ removes 7 1

/-- Then the thread touches 8. -/
def eightTouched : List (Choice 1) :=
  sevenRemoved ++ .step (some 0) .ok :: turn 5 ++ List.replicate 4 (.step none .ok)

/-- Storage 9 gets the memory that 7 had, and the toucher is stopped and destroyed. -/
def destroyed : List (Choice 1) :=
  eightTouched ++ adds 9 1 100 ++ [.stop, .owner .ok, .step none .ok, .step none .ok] ++
    [.owner .ok, .owner .ok, .destroy] ++ List.replicate 6 (.owner .ok)

theorem memory_safe_destroyed : ∃ m : Machine 1,
    Machine.run destroyed (Machine.init 1) = some m ∧ m.owner = .gone ∧ m.fault = false ∧
      ∀ t, m.mem.heap t = none := by
  have ends : (Machine.run destroyed (Machine.init 1)).any
      (fun m => decide (m.owner = .gone)) = true := by
    decide +kernel
  obtain ⟨m, ran, gone⟩ := (Option.any_eq_true _ _).mp ends
  obtain ⟨sane, _, cleared⟩ := memory_safe ran
  exact ⟨m, ran, of_decide_eq_true gone, sane, (cleared (of_decide_eq_true gone)).1⟩

/-- However they take turns, the calls and returns are those of a set of storages that does each
operation at one moment between its call and its return, and each sweep of the thread as well: a
storage is never in it twice, and one that was not interrupted touched exactly those in the set.
Whenever nobody holds the lock of a toucher that is there, its list is the set. -/
theorem targets_linearizable {chs : List (Choice n)}
    (ran : Machine.run chs (Machine.init n) = some m) :
    ∃ a, Atomic.Run TargetSet (.start []) (Machine.shows chs (Machine.init n)) a ∧
      (∀ w, a.clients w = (m.place w).client) ∧ a.value.Nodup ∧
      (m.owner.Keeps → (∀ w, ¬ (m.place w).Holds) →
        ∃ l, Owns m.mem l [] ∧ a.value = l.map Prod.snd) := by
  obtain ⟨a, matched, h⟩ := Represents.start.run ran
  obtain ⟨l, inv, value⟩ := h.inv
  refine ⟨a, matched, h.clients, ?_, fun keeps nobody => ⟨l, inv.order.whole keeps nobody, value⟩⟩
  rw [value]
  exact inv.once

/-- The sweep is one of the set without 7. -/
theorem targets_linearizable_touched :
    ∃ a : Atomic.State (Option (Fin 1)) Operation Outcome (List Nat),
      Atomic.Run TargetSet (.start [])
        [.call (some 0) (.add (some 7)), .ret (some 0) (.status Status.ok),
          .call (some 0) (.add (some 8)), .ret (some 0) (.status Status.ok),
          .call (some 0) (.remove (some 7)), .ret (some 0) (.status Status.ok),
          .call none .sweep, .ret none (.swept (some 5) [8] Status.ok)] a ∧ a.value.Nodup := by
  have ends : (Machine.run eightTouched (Machine.init 1)).isSome = true := by
    decide +kernel
  obtain ⟨m, ran⟩ := Option.isSome_iff_exists.mp ends
  obtain ⟨a, matched, _, once, _⟩ := targets_linearizable ran
  have shows : Machine.shows eightTouched (Machine.init 1) =
      [.call (some 0) (.add (some 7)), .ret (some 0) (.status Status.ok),
        .call (some 0) (.add (some 8)), .ret (some 0) (.status Status.ok),
        .call (some 0) (.remove (some 7)), .ret (some 0) (.status Status.ok),
        .call none .sweep, .ret none (.swept (some 5) [8] Status.ok)] := by
    decide +kernel
  rw [shows] at matched
  exact ⟨a, matched, once⟩

/-- `s` is not in the set, and nobody is adding it. -/
def Without (s : Nat) (a : Atomic.State (Option (Fin n)) Operation Outcome (List Nat)) : Prop :=
  s ∉ a.value ∧ ∀ w, a.clients w ≠ .called (.add (some s))

theorem TargetSet.stays_out {l l' : List Nat} {op : Operation} {res : Outcome} {s : Nat}
    (h : TargetSet l op res l') (other : op ≠ .add (some s)) (out : s ∉ l) : s ∉ l' := by
  cases h with
  | added absent =>
    intro here
    rcases List.mem_cons.mp here with rfl | here
    · exact other rfl
    · exact out here
  | removed _ => exact fun here => out (List.mem_of_mem_erase here)
  | _ => exact out

/-- A removal that returned `OK` or `NOT_FOUND` leaves the storage out of the set. -/
theorem TargetSet.gone {l l' : List Nat} {s : Nat} {res : Outcome}
    (h : TargetSet l (.remove (some s)) res l') (once : l.Nodup)
    (told : res = .status Status.ok ∨ res = .status Status.notFound) : s ∉ l' := by
  cases h with
  | removed _ => exact once.not_mem_erase
  | notFound absent => exact absent
  | refused => rcases told with told | told <;> cases told

/-- Unless it is added, it stays out. -/
theorem Without.step {s : Nat} {a b : Atomic.State (Option (Fin n)) Operation Outcome (List Nat)}
    {es : List (Atomic.Event (Option (Fin n)) Operation Outcome)}
    (one : Atomic.Step TargetSet a es b)
    (never : ∀ e ∈ es, ∀ w, e ≠ .call w (.add (some s))) (h : Without s a) : Without s b := by
  have others : ∀ w c, c ≠ .called (.add (some s)) →
      ∀ v, (a.set w c).clients v ≠ .called (.add (some s)) := by
    intro w c other v
    by_cases same : v = w
    · subst same
      rw [Atomic.State.set_same]
      exact other
    · rw [Atomic.State.set_other a w c same]
      exact h.2 v
  cases one with
  | @call i op _ =>
    refine ⟨h.1, others _ _ ?_⟩
    rintro ⟨⟩
    exact never _ (List.mem_singleton_self _) i rfl
  | @act i op res v waits does =>
    refine ⟨does.stays_out ?_ h.1, others _ _ (by simp)⟩
    rintro rfl
    exact h.2 i waits
  | ret _ => exact ⟨h.1, others _ _ (by simp)⟩

/-- The thread adds nothing. -/
theorem At.client_of_thread {p : At} (h : p.ofThread = true) {store : Option Nat} :
    p.client ≠ .called (.add store) := by
  intro asked
  cases p <;> cases asked <;> cases h

theorem added_of_seen {ch : Choice n} {m : Machine n} {w : Option (Fin n)} {store : Option Nat}
    (h : Atomic.Event.call w (.add store) ∈ Machine.seen ch m) : ∃ j, ch = .add j store := by
  cases ch with
  | add i store' =>
    cases List.mem_singleton.mp h
    exact ⟨i, rfl⟩
  | remove i store' => cases List.mem_singleton.mp h
  | step v r =>
    exfalso
    dsimp only [Machine.seen] at h
    repeat' split at h
    all_goals simp at h
  | _ => cases h

/-- After a removal that returned `OK` or `NOT_FOUND`, and as long as nobody adds the storage again,
the thread does not touch it: whoever removed it may destroy it. -/
theorem removed_untouched {before after : List (Choice n)} {i : Fin n} {r : Reply} {s : Nat}
    {res : Outcome} {now : Int} {done : List Nat} {t : Nat} {m₁ m₂ : Machine n}
    (ran : Machine.run before (Machine.init n) = some m₁)
    (stands : m₁.place (some i) = .unlock (.remove (some s)) res)
    (told : res = .status Status.ok ∨ res = .status Status.notFound)
    (nobody : ∀ j, (m₁.place (some j)).client ≠ .called (.add (some s)))
    (ran' : Machine.run (.step (some i) r :: after) m₁ = some m₂)
    (never : ∀ j, .add j (some s) ∉ after) (touches : m₂.place none = .sweepTouch now done t) :
    ∃ store next, m₂.mem.heap t = some ⟨store, next⟩ ∧ store ≠ s := by
  obtain ⟨a, _, h⟩ := Represents.start.run ran
  obtain ⟨m, step, more⟩ := Option.bind_eq_some_iff.mp ran'
  obtain ⟨l, inv, value⟩ := h.inv
  obtain rfl : m = { m₁ with word := 0 }.set (some i) .idle := by
    rw [Machine.next, inv.life.advance_eq (inv.kind _), stands] at step
    simp only [walk, Machine.moved, Machine.outside, stands] at step
    exact (Option.some.inj step).symm
  obtain ⟨b, _, h, does⟩ := h.unlock stands
  have out : Without s b := by
    refine ⟨does.gone (by rw [value]; exact inv.once) told, fun w => ?_⟩
    rw [h.clients w]
    by_cases same : w = some i
    · subst same
      rw [set_at_same]
      exact fun asked => by cases asked
    · rw [set_at_other _ _ same]
      cases w with
      | none => exact At.client_of_thread (inv.kind none)
      | some j => exact nobody j
  obtain ⟨c, events, h⟩ := h.run more
  have out : Without s c := by
    refine Atomic.Run.keeps (fun e => ∀ w, e ≠ .call w (.add (some s))) events
      (fun one others here => here.step one others) ?_ out
    intro e seen w
    rintro rfl
    obtain ⟨ch, mem, y, seen⟩ := Atomic.exists_of_mem_history seen
    obtain ⟨j, rfl⟩ := added_of_seen seen
    exact never j mem
  obtain ⟨l, inv, value⟩ := h.inv
  obtain ⟨_, _, holding, _⟩ := inv.order.holding (w := none) (by rw [touches]; trivial)
  rw [touches] at holding
  obtain ⟨owns, pre, store, post, rfl, _⟩ := holding
  obtain ⟨next, _, cell, _⟩ := owns.cell
  refine ⟨store, next, cell, ?_⟩
  rintro rfl
  exact out.1 (by rw [value]; simp)

theorem removed_untouched_seven : ∃ m₁ m₂ : Machine 1,
    Machine.run sevenRemoved (Machine.init 1) = some m₁ ∧
      Machine.run (.step (some 0) .ok :: turn 5) m₁ = some m₂ ∧
      m₂.place none = .sweepTouch 5 [] 200 ∧
      ∃ store next, m₂.mem.heap 200 = some ⟨store, next⟩ ∧ store ≠ 7 := by
  have first : (Machine.run sevenRemoved (Machine.init 1)).any (fun m₁ =>
      decide (m₁.place (some 0) = .unlock (.remove (some 7)) (.status Status.ok)) &&
        (Machine.run (.step (some 0) .ok :: turn 5) m₁).any fun m₂ =>
          decide (m₂.place none = .sweepTouch 5 [] 200)) = true := by
    decide +kernel
  obtain ⟨m₁, ran, rest⟩ := (Option.any_eq_true _ _).mp first
  obtain ⟨stands, rest⟩ := Bool.and_eq_true_iff.mp rest
  obtain ⟨m₂, ran', touches⟩ := (Option.any_eq_true _ _).mp rest
  refine ⟨m₁, m₂, ran, ran', of_decide_eq_true touches, ?_⟩
  refine removed_untouched ran (of_decide_eq_true stands) (Or.inl rfl) ?_ ran' ?_
    (of_decide_eq_true touches)
  · intro j
    obtain rfl : j = 0 := Subsingleton.elim ..
    rw [of_decide_eq_true stands]
    exact fun asked => by cases asked
  · intro j
    simp [turn]

end Runs

end Toucher

end Lancaster
