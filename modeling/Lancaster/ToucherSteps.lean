import Lancaster.Toucher

/-!
# What a step of a toucher keeps

While somebody holds the lock, the list is that of a set of targets, or what he is about to do makes
it so; `Holding` says it for each place in the code. Everybody else has no pointer into the list.
The owner frees the list only when nobody can be inside any more: the callers are idle, and the
thread has been joined or has cleared `running`, which is the last that it does.
-/

namespace Lancaster

open Linked

namespace Toucher

/-- The memory while somebody at `p` holds the lock of a toucher with the targets `l`. -/
def Holding (mem : Memory Nat) (l : List (Nat × Nat)) : At → Prop
  | .addScan s t => Owns mem l [] ∧ ∃ pre post, l = pre ++ post ∧ Seg mem.heap t post none ∧
      s ∉ pre.map Prod.snd
  | .addAlloc s => Owns mem l [] ∧ s ∉ l.map Prod.snd
  | .addFill s t => Owns mem l [t] ∧ s ∉ l.map Prod.snd
  | .addLink s t => Owns mem l [t] ∧ s ∉ l.map Prod.snd ∧ mem.heap t = some ⟨s, mem.first⟩
  | .removeScan s prev t => Owns mem l [] ∧ ∃ pre post, l = pre ++ post ∧
      Seg mem.heap t post none ∧ s ∉ pre.map Prod.snd ∧ prev = lastLink pre
  | .removeUnlink s prev t => Owns mem l [] ∧ ∃ pre post, l = pre ++ (t, s) :: post ∧
      s ∉ pre.map Prod.snd ∧ prev = lastLink pre
  | .removeFree s t => ∃ pre post, l = pre ++ (t, s) :: post ∧ s ∉ pre.map Prod.snd ∧
      Owns mem (pre ++ post) [t]
  | .sweepClock => Owns mem l []
  | .sweepWalk _ done t => Owns mem l [] ∧ ∃ pre post, l = pre ++ post ∧
      Seg mem.heap t post none ∧ done = pre.map Prod.snd
  | .sweepTouch _ done t => Owns mem l [] ∧ ∃ pre s post, l = pre ++ (t, s) :: post ∧
      done = pre.map Prod.snd
  | .unlock op res => ∃ l', Owns mem l' [] ∧ TargetSet (l.map Prod.snd) op res (l'.map Prod.snd)
  | _ => False

/-- What a step under the lock does: the memory stays in order, and the operation and who does it
are the same. -/
structure Walked (l : List (Nat × Nat)) (p : At) (mem' : Memory Nat) (p' : At) : Prop where
  holding : Holding mem' l p'
  client : p'.client = p.client
  kind : p'.ofThread = p.ofThread

section Walks

variable {mem : Memory Nat} {l pre post : List (Nat × Nat)} {s t : Nat}

/-- A target that is not found among those passed, and is not the one looked at. -/
theorem absent_snoc (h : s ∉ pre.map Prod.snd) {v : Nat} (other : v ≠ s) :
    s ∉ (pre ++ [(t, v)]).map Prod.snd := by
  simpa using ⟨by simpa using h, Ne.symm other⟩

theorem erase_middle (h : s ∉ pre.map Prod.snd) :
    ((pre ++ (t, s) :: post).map Prod.snd).erase s = (pre ++ post).map Prod.snd := by
  rw [List.map_append, List.map_append, List.erase_append_right _ h, List.map_cons,
    List.erase_cons_head]

end Walks

inductive Fares (l : List (Nat × Nat)) (p : At) : Move → Prop where
  | stuck : Fares l p .stuck
  | goes {mem' : Memory Nat} {p' : At} (h : Walked l p mem' p') : Fares l p (.goes mem' p')

theorem walk_fares {mem : Memory Nat} {l : List (Nat × Nat)} {p : At} (r : Reply)
    (h : Holding mem l p) : Fares l p (walk mem r p) := by
  cases p with
  | addScan s t =>
    obtain ⟨owns, pre, post, rfl, seg, absent⟩ := h
    cases t with
    | none =>
      obtain rfl := seg.nowhere
      rw [List.append_nil] at owns ⊢
      exact .goes ⟨⟨owns, absent⟩, rfl, rfl⟩
    | some t =>
      obtain ⟨v, next, rest, rfl, cell, more⟩ := seg.first
      simp only [walk, cell]
      split
      · rename_i same
        subst same
        exact .goes ⟨⟨_, owns, .known (by simp)⟩, rfl, rfl⟩
      · rename_i other
        exact .goes ⟨⟨owns, pre ++ [(t, v)],
          rest, by simp, more, absent_snoc absent other⟩, rfl, rfl⟩
  | addAlloc s =>
    obtain ⟨owns, absent⟩ := h
    cases r with
    | fail st => exact .goes ⟨⟨l, owns, .noMemory absent⟩, rfl, rfl⟩
    | mem t =>
      simp only [walk]
      split
      · exact .stuck
      · rename_i free
        exact .goes ⟨⟨owns.alloc (by simpa using free) _, absent⟩, rfl, rfl⟩
    | _ => exact .stuck
  | addFill s t =>
    obtain ⟨owns, absent⟩ := h
    obtain ⟨c, cell⟩ := Option.isSome_iff_exists.mp ((owns.dom t).mpr (by simp))
    simp only [walk, cell]
    exact .goes ⟨⟨owns.fill _, absent, mem.put_same ..⟩, rfl, rfl⟩
  | addLink s t =>
    obtain ⟨owns, absent, cell⟩ := h
    exact .goes ⟨⟨_, owns.push cell, .added absent⟩, rfl, rfl⟩
  | removeScan s prev t =>
    obtain ⟨owns, pre, post, rfl, seg, absent, rfl⟩ := h
    cases t with
    | none =>
      obtain rfl := seg.nowhere
      rw [List.append_nil] at owns ⊢
      exact .goes ⟨⟨_, owns, .notFound absent⟩, rfl, rfl⟩
    | some t =>
      obtain ⟨v, next, rest, rfl, cell, more⟩ := seg.first
      simp only [walk, cell]
      split
      · rename_i same
        subst same
        exact .goes ⟨⟨owns, pre, rest, rfl, absent, rfl⟩, rfl, rfl⟩
      · rename_i other
        exact .goes ⟨⟨owns, pre ++ [(t, v)],
          rest, by simp, more, absent_snoc absent other, by simp⟩, rfl, rfl⟩
  | removeUnlink s prev t =>
    obtain ⟨owns, pre, post, rfl, absent, rfl⟩ := h
    obtain ⟨next, _, cell, _⟩ := owns.cell
    obtain ⟨mem', relinked, owns⟩ := owns.unlink cell
    simp only [walk, cell, relinked]
    exact .goes ⟨⟨pre, post, rfl, absent, owns⟩, rfl, rfl⟩
  | removeFree s t =>
    obtain ⟨pre, post, rfl, absent, owns⟩ := h
    obtain ⟨c, cell⟩ := Option.isSome_iff_exists.mp ((owns.dom t).mpr (by simp))
    simp only [walk, cell]
    have here : s ∈ (pre ++ (t, s) :: post).map Prod.snd := by simp
    have gone := TargetSet.removed here
    rw [erase_middle absent] at gone
    exact .goes ⟨⟨_, owns.free, gone⟩, rfl, rfl⟩
  | sweepClock =>
    cases r with
    | fail st => exact .goes ⟨⟨l, h, .noTime _ st⟩, rfl, rfl⟩
    | time now => exact .goes ⟨⟨h, [], l, rfl, h.seg, rfl⟩, rfl, rfl⟩
    | _ => exact .stuck
  | sweepWalk now done t =>
    obtain ⟨owns, pre, post, rfl, seg, rfl⟩ := h
    cases t with
    | none =>
      obtain rfl := seg.nowhere
      rw [List.append_nil] at owns ⊢
      exact .goes ⟨⟨_, owns, .swept _ now⟩, rfl, rfl⟩
    | some t =>
      obtain ⟨v, next, rest, rfl, cell, more⟩ := seg.first
      exact .goes ⟨⟨owns, pre, v, rest, rfl, rfl⟩, rfl, rfl⟩
  | sweepTouch now done t =>
    obtain ⟨owns, pre, s, post, rfl, rfl⟩ := h
    obtain ⟨next, _, cell, more⟩ := owns.cell
    simp only [walk, cell]
    cases r with
    | ok => exact .goes ⟨⟨owns, pre ++ [(t, s)], post, by simp, more, by simp⟩, rfl, rfl⟩
    | fail st =>
      refine .goes ⟨⟨_, owns, ?_⟩, rfl, rfl⟩
      rw [List.map_append, List.map_cons]
      exact .broken _ _ s now st
    | _ => exact .stuck
  | unlock op res => exact .stuck
  | _ => cases h

/-! ## The invariant -/

/-- There is a list, and it is not being freed yet. -/
@[simp] def Owner.Keeps : Owner → Prop
  | .absent | .freeing _ | .freeToucher | .gone => False
  | _ => True

/-- The thread may be in `touch_func`. -/
@[simp] def Owner.Threaded : Owner → Prop
  | .spawned | .ready | .mark _ | .join _ | .destroyTest => True
  | _ => False

/-- The thread has not been joined. -/
@[simp] def Owner.Unjoined : Owner → Prop
  | .absent | .zeroed _ | .threaded | .unthread | .abandon | .spawned | .mark _ | .join _ => True
  | _ => False

/-- There is no `struct thread`. -/
@[simp] def Owner.Threadless : Owner → Prop
  | .absent | .zeroed _ | .abandon | .freeing _ | .freeToucher | .gone => True
  | _ => False

def At.Busy (p : At) : Prop := p ≠ .idle ∧ p ≠ .unborn ∧ ∀ st, p ≠ .returned st

section Invariants

variable {n : Nat}

/-- How far the owner is, and what it has allocated and started. -/
structure Life (m : Machine n) : Prop where
  toucher : m.toucher = m.owner.hasToucher
  thr : m.owner.usesThread = true → m.thr = true
  threadless : m.owner.Threadless → m.thr = false
  calls : ∀ i, (m.place (some i)).Busy → m.owner.serves = true
  alive : (m.place none).Busy → m.thr = true ∧ m.owner.Threaded ∧
    (m.owner ≠ .spawned → m.running = true)
  unjoined : m.owner.Unjoined → m.joined = false
  stopped : m.joined = true → (∀ d, m.owner ≠ .clear d) → m.running = false

/-- The list is whole, or whoever holds the lock is about to make it so, or it is being freed. -/
inductive Order (m : Machine n) (l : List (Nat × Nat)) : Prop where
  | before (absent : m.owner = .absent) (nobody : ∀ w, ¬ (m.place w).Holds) (mem : m.mem = .empty)
      (empty : l = [])
  | free (keeps : m.owner.Keeps) (word : m.word = 0) (nobody : ∀ w, ¬ (m.place w).Holds)
      (owns : Owns m.mem l [])
  | held (keeps : m.owner.Keeps) (word : m.word < 0) (w : Option (Fin n))
      (holding : Holding m.mem l (m.place w)) (only : ∀ v, (m.place v).Holds → v = w)
  | freeing (t : Option Nat) (rest : List (Nat × Nat)) (nobody : ∀ w, ¬ (m.place w).Holds)
      (owns : Owns ⟨t, m.mem.heap⟩ rest [])
      (ends : m.owner = .freeing t ∨ rest = [] ∧ (m.owner = .freeToucher ∨ m.owner = .gone))

structure Inv (m : Machine n) (l : List (Nat × Nat)) : Prop where
  sane : m.fault = false
  kind : ∀ w, (m.place w).ofThread = w.isNone
  once : (l.map Prod.snd).Nodup
  life : Life m
  order : Order m l

@[simp] theorem set_at_same (m : Machine n) (w : Option (Fin n)) (p : At) :
    (m.set w p).place w = p := by simp [Machine.set]

theorem set_at_other (m : Machine n) {w v : Option (Fin n)} (p : At) (h : v ≠ w) :
    (m.set w p).place v = m.place v := by simp [Machine.set, h]

theorem At.Holds.busy {p : At} (h : p.Holds) : p.Busy := by
  refine ⟨?_, ?_, fun st => ?_⟩ <;>
  · rintro rfl
    exact h

theorem At.client_of_not_busy {p : At} (h : ¬ p.Busy) : p.client = .idle := by
  cases p <;> first | rfl | simp [At.Busy] at h

theorem Holding.holds {mem : Memory Nat} {l : List (Nat × Nat)} {p : At} (h : Holding mem l p) :
    p.Holds := by
  cases p <;> first | cases h; done | trivial

theorem Inv.start : Inv (Machine.init n) [] where
  sane := rfl
  kind := by
    intro w
    cases w <;> rfl
  once := List.nodup_nil
  life :=
    { toucher := rfl
      thr := by simp [Machine.init, Owner.usesThread]
      threadless := fun _ => rfl
      calls := by simp [Machine.init, At.Busy]
      alive := by simp [Machine.init, At.Busy]
      unjoined := fun _ => rfl
      stopped := fun _ _ => rfl }
  order := by
    refine .before rfl ?_ rfl rfl
    intro w
    cases w <;> exact fun h => h

namespace Life

variable {m m' : Machine n}

/-- Somebody who is in the middle of something goes on. -/
theorem set (h : Life m) {w : Option (Fin n)} (busy : (m.place w).Busy) (p : At) :
    Life (m.set w p) where
  toucher := h.toucher
  thr := h.thr
  threadless := h.threadless
  calls := by
    intro i inside
    by_cases same : some i = w
    · subst same
      exact h.calls i busy
    · rw [set_at_other m p same] at inside
      exact h.calls i inside
  alive := by
    intro inside
    by_cases same : none = w
    · subst same
      exact h.alive busy
    · rw [set_at_other m p same] at inside
      exact h.alive inside
  unjoined := h.unjoined
  stopped := h.stopped

/-- Nobody holds the lock when no call is possible and the thread is not there. -/
theorem quiet (h : Life m) (closed : m.owner.serves = false) (still : ¬ (m.place none).Busy) :
    ∀ w, ¬ (m.place w).Holds := by
  intro w holds
  cases w with
  | none => exact still holds.busy
  | some i =>
    have serves := h.calls i holds.busy
    rw [closed] at serves
    cases serves

/-- What the next step of somebody uses is allocated. -/
theorem uses (h : Life m) {w : Option (Fin n)} (kind : (m.place w).ofThread = w.isNone) :
    ((m.place w).usesToucher = true → m.toucher = true) ∧
      ((m.place w).usesThread = true → m.thr = true) := by
  have there : ∀ o : Owner, o.serves = true ∨ o.Threaded → o.hasToucher = true := by
    intro o
    cases o <;> simp
  have busy : (m.place w).usesToucher = true ∨ (m.place w).usesThread = true →
    (m.place w).Busy := by
    intro used
    refine ⟨?_, ?_, fun st => ?_⟩ <;>
    · intro same
      rw [same] at used
      simp [At.usesToucher, At.usesThread] at used
  rw [h.toucher]
  cases w with
  | none =>
    refine ⟨fun used => ?_, fun used => (h.alive (busy (Or.inr used))).1⟩
    exact there _ (Or.inr (h.alive (busy (Or.inl used))).2.1)
  | some i =>
    refine ⟨fun used => there _ (Or.inl (h.calls i (busy (Or.inl used)))), fun used => ?_⟩
    cases stands : m.place (some i) <;> rw [stands] at kind used <;> cases used <;> cases kind

end Life

namespace Order

variable {m : Machine n} {l : List (Nat × Nat)} {w : Option (Fin n)}

/-- Whoever is between lock and unlock holds the lock. -/
theorem holding (h : Order m l) (holds : (m.place w).Holds) : m.owner.Keeps ∧ m.word < 0 ∧
    Holding m.mem l (m.place w) ∧ ∀ v, (m.place v).Holds → v = w := by
  cases h with
  | before _ nobody _ _ => exact absurd holds (nobody w)
  | free _ _ nobody _ => exact absurd holds (nobody w)
  | held keeps word v holding only =>
    obtain rfl := only w holds
    exact ⟨keeps, word, holding, only⟩
  | freeing _ _ nobody _ _ => exact absurd holds (nobody w)

/-- A step by somebody who did not hold the lock and does not hold it now. -/
theorem aside (h : Order m l) (was : ¬ (m.place w).Holds) {p : At} (is : ¬ p.Holds) :
    Order (m.set w p) l := by
  have same : ∀ v, ((m.set w p).place v).Holds → v ≠ w ∧ (m.place v).Holds := by
    intro v holds
    by_cases eq : v = w
    · subst eq
      rw [set_at_same] at holds
      exact absurd holds is
    · rw [set_at_other m p eq] at holds
      exact ⟨eq, holds⟩
  cases h with
  | before absent nobody mem empty =>
    exact .before absent (fun v holds => nobody v (same v holds).2) mem empty
  | free keeps word nobody owns =>
    exact .free keeps word (fun v holds => nobody v (same v holds).2) owns
  | held keeps word v holding only =>
    have other : v ≠ w := by
      rintro rfl
      exact was holding.holds
    refine .held keeps word v ?_ fun u holds => only u (same u holds).2
    rw [set_at_other m p other]
    exact holding
  | freeing t rest nobody owns ends =>
    exact .freeing t rest (fun v holds => nobody v (same v holds).2) owns ends

/-- A step under the lock. -/
theorem inside (h : Order m l) (holds : (m.place w).Holds) {mem' : Memory Nat} {p : At}
    (goes : Holding mem' l p) : Order ({ m with mem := mem' }.set w p) l := by
  obtain ⟨keeps, word, _, only⟩ := h.holding holds
  refine .held keeps word w ?_ fun v holds => ?_
  · rw [set_at_same]
    exact goes
  · by_contra other
    rw [set_at_other _ p other] at holds
    exact other (only v holds)

/-- The lock is taken. -/
theorem lock (h : Order m l) (keeps : m.owner.Keeps) (free : ¬ m.word < 0) {p : At}
    (ready : Owns m.mem l [] → Holding m.mem l p) :
    Order ({ m with word := lockedWord m.word }.set w p) l := by
  cases h with
  | before absent =>
    rw [absent] at keeps
    cases keeps
  | free _ word nobody owns =>
    refine .held keeps ?_ w ?_ fun v holds => ?_
    · show lockedWord m.word < 0
      rw [word]
      decide
    · rw [set_at_same]
      exact ready owns
    · by_contra other
      rw [set_at_other _ p other] at holds
      exact nobody v holds
  | held _ word _ _ _ => exact absurd word free
  | freeing t rest nobody owns ends =>
    rcases ends with owner | ⟨_, owner | owner⟩ <;> rw [owner] at keeps <;> cases keeps

/-- The lock is released. -/
theorem unlock (h : Order m l) {op : Operation} {res : Outcome}
    (stands : m.place w = .unlock op res)
    {p : At} (is : ¬ p.Holds) : ∃ l', TargetSet (l.map Prod.snd) op res (l'.map Prod.snd) ∧
      Order ({ m with word := 0 }.set w p) l' := by
  have holds : (m.place w).Holds := by
    rw [stands]
    trivial
  obtain ⟨keeps, _, holding, only⟩ := h.holding holds
  rw [stands] at holding
  obtain ⟨l', owns, does⟩ := holding
  refine ⟨l', does, .free keeps rfl (fun v holds => ?_) owns⟩
  by_cases same : v = w
  · subst same
    rw [set_at_same] at holds
    exact is holds
  · rw [set_at_other _ p same] at holds
    exact same (only v holds)

end Order

/-! ## One step of a caller or of the thread -/

/-- What can be done without the lock, as the set of targets sees it. -/
inductive Effect (m : Machine n) (w : Option (Fin n)) :
    List (Atomic.Event (Option (Fin n)) Operation Outcome) → Machine n → Prop where
  | silent (p : At) (is : ¬ p.Holds) (client : p.client = (m.place w).client)
      (kind : p.ofThread = (m.place w).ofThread) : Effect m w [] (m.set w p)
  | calls (p : At) (op : Operation) (is : ¬ p.Holds) (idle : (m.place w).client = .idle)
      (client : p.client = .called op) (kind : p.ofThread = (m.place w).ofThread) :
      Effect m w [.call w op] (m.set w p)
  | returns (p : At) (op : Operation) (res : Outcome) (is : ¬ p.Holds)
      (called : (m.place w).client = .called op) (does : ∀ l, TargetSet l op res l)
      (client : p.client = .idle) (kind : p.ofThread = (m.place w).ofThread) :
      Effect m w [.ret w res] (m.set w p)
  | locks (p : At) (free : ¬ m.word < 0) (uses : (m.place w).usesToucher = true)
      (ready : ∀ l, Owns m.mem l [] → Holding m.mem l p) (client : p.client = (m.place w).client)
      (kind : p.ofThread = (m.place w).ofThread) :
      Effect m w [] ({ m with word := lockedWord m.word }.set w p)
  | ends (st : Int) (client : (m.place w).client = .idle) (kind : (m.place w).ofThread = true) :
      Effect m w [] ({ m with running := false }.set w (.returned st))

/-- One more test of the lock. -/
theorem tryLock_effect (m : Machine n) {w : Option (Fin n)} {waits holds : At}
    (stands : m.place w = waits) (out : ¬ waits.Holds) (uses : waits.usesToucher = true)
    (ready : ∀ l, Owns m.mem l [] → Holding m.mem l holds) (client : holds.client = waits.client)
    (kind : holds.ofThread = waits.ofThread) : Effect m w [] (m.tryLock w waits holds) := by
  rw [Machine.tryLock]
  split
  · rename_i held
    rw [lockedWord, if_pos held]
    exact .silent waits out (by rw [stands]) (by rw [stands])
  · rename_i free
    rw [← stands] at uses client kind
    exact .locks holds free uses ready client kind

theorem outside_effect {m m' : Machine n} {w : Option (Fin n)} {r : Reply}
    (step : m.outside w r = some m') :
    Effect m w (Machine.seen (.step w r) m) m' ∧ ¬ (m.place w).Holds ∧ (m.place w).Busy ∨
    ∃ op res, m.place w = .unlock op res ∧
      m' = { m with word := 0 }.set w (Machine.afterUnlock op res) := by
  unfold Machine.outside at step
  split at step
  case h_1 stands =>
    obtain rfl := Option.some.inj step
    refine Or.inl ⟨?_, by simp [stands, At.Holds], by simp [stands, At.Busy]⟩
    simp only [Machine.seen, stands]
    exact .returns .idle (.add none) _ (fun h => h) (by rw [stands]; rfl) .addNull rfl (by rw [stands]; rfl)
  case h_2 store stands =>
    refine Or.inl ⟨?_, by simp [stands, At.Holds], by simp [stands, At.Busy]⟩
    simp only [Machine.seen, stands]
    cases r with
    | fail st =>
      obtain rfl := Option.some.inj step
      exact .returns .idle (.add (some store)) _ (fun h => h) (by rw [stands]; rfl)
        (fun l => .refused l _ st) rfl (by rw [stands]; rfl)
    | _ =>
      obtain rfl := Option.some.inj step
      exact tryLock_effect m stands (fun h => h) rfl
        (fun l owns => ⟨owns, [], l, rfl, owns.seg, List.not_mem_nil⟩) rfl rfl
  case h_3 stands =>
    obtain rfl := Option.some.inj step
    refine Or.inl ⟨?_, by simp [stands, At.Holds], by simp [stands, At.Busy]⟩
    simp only [Machine.seen, stands]
    exact .returns .idle (.remove none) _ (fun h => h) (by rw [stands]; rfl) .removeNull rfl
      (by rw [stands]; rfl)
  case h_4 store stands =>
    refine Or.inl ⟨?_, by simp [stands, At.Holds], by simp [stands, At.Busy]⟩
    simp only [Machine.seen, stands]
    cases r with
    | fail st =>
      obtain rfl := Option.some.inj step
      exact .returns .idle (.remove (some store)) _ (fun h => h) (by rw [stands]; rfl)
        (fun l => .refused l _ st) rfl (by rw [stands]; rfl)
    | _ =>
      obtain rfl := Option.some.inj step
      exact tryLock_effect m stands (fun h => h) rfl
        (fun l owns => ⟨owns, [], l, rfl, owns.seg, List.not_mem_nil, rfl⟩) rfl rfl
  case h_5 op res stands =>
    obtain rfl := Option.some.inj step
    exact Or.inr ⟨op, res, stands, rfl⟩
  case h_6 stands =>
    obtain rfl := Option.some.inj step
    refine Or.inl ⟨?_, by simp [stands, At.Holds], by simp [stands, At.Busy]⟩
    simp only [Machine.seen, stands]
    split
    · exact .silent _ (fun h => h) (by rw [stands]; rfl) (by rw [stands]; rfl)
    · exact .calls _ .sweep (fun h => h) (by rw [stands]; rfl) rfl (by rw [stands]; rfl)
  case h_7 stands =>
    refine Or.inl ⟨?_, by simp [stands, At.Holds], by simp [stands, At.Busy]⟩
    simp only [Machine.seen, stands]
    cases r with
    | fail st =>
      obtain rfl := Option.some.inj step
      exact .returns (.leave st) .sweep _ (fun h => h) (by rw [stands]; rfl)
        (fun l => .refused l _ st) rfl
        (by rw [stands]; rfl)
    | _ =>
      obtain rfl := Option.some.inj step
      exact tryLock_effect m stands (fun h => h) rfl (fun _ owns => owns) rfl rfl
  case h_8 stands =>
    refine Or.inl ⟨?_, by simp [stands, At.Holds], by simp [stands, At.Busy]⟩
    simp only [Machine.seen, stands]
    cases r with
    | fail st =>
      obtain rfl := Option.some.inj step
      exact .silent _ (fun h => h) (by rw [stands]; rfl) (by rw [stands]; rfl)
    | _ =>
      obtain rfl := Option.some.inj step
      exact .silent _ (fun h => h) (by rw [stands]; rfl) (by rw [stands]; rfl)
  case h_9 st stands =>
    obtain rfl := Option.some.inj step
    refine Or.inl ⟨?_, by simp [stands, At.Holds], by simp [stands, At.Busy]⟩
    simp only [Machine.seen, stands]
    exact .ends st (by rw [stands]; rfl) (by rw [stands]; rfl)
  case h_10 => cases step

theorem Owner.keeps_of_serves {o : Owner} (h : o.serves = true ∨ o.Threaded) : o.Keeps := by
  cases o <;> simp_all

theorem Life.keeps {m : Machine n} (h : Life m) {w : Option (Fin n)} (busy : (m.place w).Busy) :
    m.owner.Keeps := by
  cases w with
  | none => exact Owner.keeps_of_serves (Or.inr (h.alive busy).2.1)
  | some i => exact Owner.keeps_of_serves (Or.inl (h.calls i busy))

theorem kind_set {m : Machine n} (h : ∀ w, (m.place w).ofThread = w.isNone) {w : Option (Fin n)}
    {p : At} (same : p.ofThread = (m.place w).ofThread) (v : Option (Fin n)) :
    ((m.set w p).place v).ofThread = v.isNone := by
  by_cases eq : v = w
  · subst eq
    rw [set_at_same, same]
    exact h v
  · rw [set_at_other m p eq]
    exact h v

/-- What is done without the lock keeps the invariant. -/
theorem Inv.effect {m m' : Machine n} {l : List (Nat × Nat)} {w : Option (Fin n)}
    {es : List (Atomic.Event (Option (Fin n)) Operation Outcome)} (h : Inv m l)
    (effect : Effect m w es m') (out : ¬ (m.place w).Holds) (busy : (m.place w).Busy) :
    Inv m' l := by
  have stays : ∀ p : At, ¬ p.Holds → p.ofThread = (m.place w).ofThread → Inv (m.set w p) l :=
    fun p is kind => ⟨h.sane, kind_set h.kind kind, h.once, h.life.set busy p, h.order.aside out is⟩
  cases effect with
  | silent p is _ kind => exact stays p is kind
  | calls p op is _ _ kind => exact stays p is kind
  | returns p op res is _ _ _ kind => exact stays p is kind
  | locks p free _ ready _ kind =>
    have life := h.life.set busy p
    exact ⟨h.sane, kind_set h.kind kind, h.once, { life with },
      h.order.lock (h.life.keeps busy) free (ready l)⟩
  | ends st _ kind =>
    have stay := stays (.returned st) (fun h => h) kind.symm
    have thread : w = none := by
      rw [h.kind w] at kind
      exact Option.isNone_iff_eq_none.mp kind
    subst thread
    refine ⟨stay.sane, stay.kind, stay.once, ?_, ?_⟩
    · have still : ∀ m : Machine n, ¬ ((m.set none (.returned st)).place none).Busy := by
        intro m inside
        rw [set_at_same] at inside
        exact inside.2.2 st rfl
      exact { stay.life with
        alive := fun inside => absurd inside (still _)
        stopped := fun _ _ => rfl }
    · cases stay.order with
      | before absent nobody mem empty => exact .before absent nobody mem empty
      | free keeps word nobody owns => exact .free keeps word nobody owns
      | held keeps word v holding only => exact .held keeps word v holding only
      | freeing t rest nobody owns ends => exact .freeing t rest nobody owns ends

theorem afterUnlock_spec (op : Operation) (res : Outcome) : ¬ (Machine.afterUnlock op res).Holds ∧
    (Machine.afterUnlock op res).client = .idle ∧
    (Machine.afterUnlock op res).ofThread = decide (op = .sweep) := by
  cases op with
  | sweep =>
    cases res with
    | status st => exact ⟨fun h => h, rfl, rfl⟩
    | refused st => exact ⟨fun h => h, rfl, rfl⟩
    | swept now stores st =>
      simp only [Machine.afterUnlock, Machine.afterSweep]
      split <;> exact ⟨fun h => h, rfl, rfl⟩
  | _ => exact ⟨fun h => h, rfl, rfl⟩

/-- The invariant, with an atomic set in the state that the callers and the thread are told of. -/
structure Represents (m : Machine n)
    (a : Atomic.State (Option (Fin n)) Operation Outcome (List Nat)) : Prop where
  inv : ∃ l, Inv m l ∧ a.value = l.map Prod.snd
  clients : ∀ w, a.clients w = (m.place w).client

theorem walk_out {mem : Memory Nat} (r : Reply) {p : At} (out : ¬ p.Holds) :
    walk mem r p = .stuck := by
  cases p <;> first | rfl | exact absurd trivial out

theorem seen_walk {m : Machine n} {w : Option (Fin n)} {r : Reply} {mem' : Memory Nat} {p : At}
    (goes : walk m.mem r (m.place w) = .goes mem' p) : Machine.seen (.step w r) m = [] := by
  cases stands : m.place w <;> rw [stands] at goes <;> first | cases goes; done | simp [Machine.seen, stands]

section Clients

variable {m : Machine n} {a : Atomic.State (Option (Fin n)) Operation Outcome (List Nat)}
  {w : Option (Fin n)}

theorem clients_set (same : ∀ v, a.clients v = (m.place v).client) (p : At) (v : Option (Fin n)) :
    (a.set w p.client).clients v = ((m.set w p).place v).client := by
  by_cases eq : v = w
  · subst eq
    rw [set_at_same, Atomic.State.set_same]
  · rw [set_at_other m p eq, Atomic.State.set_other a w _ eq]
    exact same v

theorem clients_stay (same : ∀ v, a.clients v = (m.place v).client) {p : At}
    (client : p.client = (m.place w).client) (v : Option (Fin n)) :
    a.clients v = ((m.set w p).place v).client := by
  by_cases eq : v = w
  · subst eq
    rw [set_at_same, client]
    exact same v
  · rw [set_at_other m p eq]
    exact same v

end Clients

section Steps

variable {m m' : Machine n} {a : Atomic.State (Option (Fin n)) Operation Outcome (List Nat)}
  {w : Option (Fin n)} {r : Reply}

/-- A step finds allocated what it uses. -/
theorem Life.advance_eq (h : Life m) (kind : (m.place w).ofThread = w.isNone) :
    m.advance w r = m.moved w r (walk m.mem r (m.place w)) := by
  obtain ⟨toucher, thread⟩ := h.uses kind
  rw [Machine.advance, if_neg]
  cases used : (m.place w).usesToucher <;> cases used' : (m.place w).usesThread <;> simp_all

/-- What is done without the lock, the set does at the same moment. -/
theorem Represents.effect {es : List (Atomic.Event (Option (Fin n)) Operation Outcome)}
    (h : Represents m a) (effect : Effect m w es m') (out : ¬ (m.place w).Holds)
    (busy : (m.place w).Busy) : ∃ b, Atomic.Run TargetSet a es b ∧ Represents m' b := by
  obtain ⟨l, inv, value⟩ := h.inv
  have after := inv.effect effect out busy
  cases effect with
  | silent p _ client _ => exact ⟨a, .refl, ⟨l, after, value⟩, clients_stay h.clients client⟩
  | calls p op _ idle client _ =>
    have free : a.clients w = .idle := by rw [h.clients w, idle]
    refine ⟨_, .one (.call op free), ⟨l, after, value⟩, ?_⟩
    rw [← client]
    exact clients_set h.clients p
  | returns p op res _ called does client _ =>
    have waits : a.clients w = .called op := by rw [h.clients w, called]
    refine ⟨_, .returns waits (does a.value), ⟨l, after, value⟩, ?_⟩
    rw [← client]
    exact clients_set h.clients p
  | locks p _ _ _ client _ => exact ⟨a, .refl, ⟨l, after, value⟩, clients_stay h.clients client⟩
  | ends st client _ =>
    exact ⟨a, .refl, ⟨l, after, value⟩, clients_stay (p := .returned st) h.clients client.symm⟩

/-- The set does an operation that took the lock when the lock is released. -/
theorem Represents.unlock (h : Represents m a) {op : Operation} {res : Outcome}
    (stands : m.place w = .unlock op res) :
    ∃ b, Atomic.Run TargetSet a [.ret w res] b ∧
      Represents ({ m with word := 0 }.set w (Machine.afterUnlock op res)) b ∧
      TargetSet a.value op res b.value := by
  obtain ⟨l, inv, value⟩ := h.inv
  obtain ⟨out, idle, kind⟩ := afterUnlock_spec op res
  obtain ⟨l', does, order⟩ := inv.order.unlock stands out
  have busy : (m.place w).Busy := by
    rw [stands]
    simp [At.Busy]
  have waits : a.clients w = .called op := by
    rw [h.clients w, stands]
    rfl
  rw [← value] at does
  refine ⟨_, .returns waits does, ⟨⟨l', ⟨inv.sane, ?_, ?_, ?_, order⟩, rfl⟩, ?_⟩, does⟩
  · exact kind_set (m := m) inv.kind (by rw [kind, stands]; rfl)
  · rw [value] at does
    exact does.nodup inv.once
  · exact { inv.life.set busy (Machine.afterUnlock op res) with }
  · rw [← idle]
    exact clients_set (m := m) h.clients _

/-- One step of a caller or of the thread. -/
theorem Represents.advance (h : Represents m a) (step : m.advance w r = some m') :
    ∃ b, Atomic.Run TargetSet a (Machine.seen (.step w r) m) b ∧ Represents m' b := by
  obtain ⟨l, inv, value⟩ := h.inv
  rw [inv.life.advance_eq (inv.kind w)] at step
  by_cases holds : (m.place w).Holds
  · obtain ⟨_, _, holding, _⟩ := inv.order.holding holds
    have fares := walk_fares r holding
    cases goes : walk m.mem r (m.place w) with
    | fault =>
      rw [goes] at fares
      cases fares
    | goes mem' p =>
      rw [goes] at step fares
      obtain rfl := Option.some.inj step
      cases fares with
      | goes walked =>
        rw [seen_walk goes]
        refine ⟨a, .refl, ⟨l, ⟨inv.sane, ?_, inv.once, ?_, ?_⟩, value⟩, ?_⟩
        · exact kind_set (m := m) inv.kind walked.kind
        · exact { inv.life.set holds.busy p with }
        · exact inv.order.inside holds walked.holding
        · exact clients_stay (m := m) h.clients walked.client
    | stuck =>
      rw [goes] at step
      rcases outside_effect step with ⟨_, out, _⟩ | ⟨op, res, stands, rfl⟩
      · exact absurd holds out
      · simp only [Machine.seen, stands]
        obtain ⟨b, run, after, _⟩ := h.unlock stands
        exact ⟨b, run, after⟩
  · rw [walk_out r holds] at step
    rcases outside_effect step with ⟨effect, out, busy⟩ | ⟨op, res, stands, rfl⟩
    · exact h.effect effect out busy
    · simp only [Machine.seen, stands]
      obtain ⟨b, run, after, _⟩ := h.unlock stands
      exact ⟨b, run, after⟩

end Steps

/-! ## The owner -/

/-- The owner makes a step, and leaves the list as it is. -/
theorem Order.owned {m m' : Machine n} {l : List (Nat × Nat)} (h : Order m l)
    (keeps : m.owner.Keeps)
    (keeps' : m'.owner.Keeps) (word : m'.word = m.word) (mem : m'.mem = m.mem)
    (same : ∀ w, (m.place w).Holds ∨ (m'.place w).Holds → m'.place w = m.place w) : Order m' l := by
  cases h with
  | before absent =>
    rw [absent] at keeps
    cases keeps
  | free _ free nobody owns =>
    refine .free keeps' (word.trans free) (fun w holds => ?_) (by rw [mem]; exact owns)
    rw [same w (Or.inr holds)] at holds
    exact nobody w holds
  | held _ held w holding only =>
    refine .held keeps' (by rw [word]; exact held) w ?_ fun v holds => ?_
    · rw [same w (Or.inl holding.holds), mem]
      exact holding
    · rw [same v (Or.inr holds)] at holds
      exact only v holds
  | freeing t rest _ _ ends =>
    rcases ends with owner | ⟨_, owner | owner⟩ <;> rw [owner] at keeps <;> cases keeps

/-- Once nobody can be inside, the list can be freed. -/
theorem Order.whole {m : Machine n} {l : List (Nat × Nat)} (h : Order m l) (keeps : m.owner.Keeps)
    (nobody : ∀ w, ¬ (m.place w).Holds) : Owns m.mem l [] := by
  cases h with
  | before absent =>
    rw [absent] at keeps
    cases keeps
  | free _ _ _ owns => exact owns
  | held _ _ w holding _ => exact absurd holding.holds (nobody w)
  | freeing t rest _ _ ends =>
    rcases ends with owner | ⟨_, owner | owner⟩ <;> rw [owner] at keeps <;> cases keeps

theorem Order.freed {m : Machine n} {l : List (Nat × Nat)} (h : Order m l) (past : ¬ m.owner.Keeps)
    (there : m.owner ≠ .absent) : ∃ t rest, (∀ w, ¬ (m.place w).Holds) ∧ Owns ⟨t, m.mem.heap⟩ rest [] ∧
      (m.owner = .freeing t ∨ rest = [] ∧ (m.owner = .freeToucher ∨ m.owner = .gone)) := by
  cases h with
  | before absent => exact absurd absent there
  | free keeps => exact absurd keeps past
  | held keeps => exact absurd keeps past
  | freeing t rest nobody owns ends => exact ⟨t, rest, nobody, owns, ends⟩

theorem Inv.owned {m m' : Machine n} {l : List (Nat × Nat)} (h : Inv m l) (life : Life m')
    (keeps : m.owner.Keeps) (keeps' : m'.owner.Keeps) (word : m'.word = m.word)
    (mem : m'.mem = m.mem) (stands : m'.place = m.place) (sane : m'.fault = m.fault) :
    Inv m' l where
  sane := sane.trans h.sane
  kind := by
    rw [stands]
    exact h.kind
  once := h.once
  life := life
  order := h.order.owned keeps keeps' word mem fun w _ => congrFun stands w

/-- The owner begins to free the list. -/
theorem Inv.frees {m m' : Machine n} {l : List (Nat × Nat)} (h : Inv m l) (life : Life m')
    (keeps : m.owner.Keeps) (closed : m.owner.serves = false) (still : ¬ (m.place none).Busy)
    (owner : m'.owner = .freeing m.mem.first) (mem : m'.mem = m.mem) (stands : m'.place = m.place)
    (sane : m'.fault = m.fault) : Inv m' l where
  sane := sane.trans h.sane
  kind := by
    rw [stands]
    exact h.kind
  once := h.once
  life := life
  order := by
    have nobody := h.life.quiet closed still
    refine .freeing m.mem.first l ?_ ?_ (Or.inl owner)
    · rw [stands]
      exact nobody
    · rw [mem]
      exact h.order.whole keeps nobody

/-- The thread begins. -/
theorem Inv.spawns {m : Machine n} {l : List (Nat × Nat)} (h : Inv m l)
    (stands : m.owner = .threaded) :
    Inv ({ m with owner := .spawned }.set none .check) l ∧
      ∀ w, (({ m with owner := .spawned }.set none .check).place w).client =
        (m.place w).client := by
  have still : ¬ (m.place none).Busy := by
    intro busy
    have threaded := (h.life.alive busy).2.1
    rw [stands] at threaded
    exact threaded
  have there : m.thr = true := h.life.thr (by rw [stands]; rfl)
  have fresh : m.joined = false := h.life.unjoined (by rw [stands]; trivial)
  refine ⟨⟨h.sane, kind_set (m := m) h.kind (h.kind none).symm, h.once, ?_, ?_⟩, fun w => ?_⟩
  · refine ⟨h.life.toucher.trans (by rw [stands]; rfl), fun _ => there, fun less => absurd less id,
      ?_, ?_, fun _ => fresh, ?_⟩
    · intro i busy
      have serves := h.life.calls i busy
      rw [stands] at serves
      cases serves
    · exact fun _ => ⟨there, trivial, fun other => absurd rfl other⟩
    · intro joined
      exact absurd (fresh.symm.trans joined) (by decide)
  · refine h.order.owned (by rw [stands]; trivial) trivial rfl rfl fun w holds => ?_
    refine set_at_other (m := { m with owner := .spawned }) _ ?_
    rintro rfl
    rcases holds with holds | holds
    · exact still holds.busy
    · rw [set_at_same] at holds
      exact holds
  · refine (clients_stay (a := ⟨[], fun v => (m.place v).client⟩) (m := m) (w := none) (p := .check)
      (fun _ => rfl) (At.client_of_not_busy still).symm w).symm

section Owner

variable {m m' : Machine n} {l : List (Nat × Nat)} {r : Reply}

/-- The owner finds allocated what its step uses. -/
theorem Life.owner_free (h : Life m) :
    ¬ (((m.owner.hasToucher && !m.toucher) || (m.owner.usesThread && !m.thr)) = true) := by
  have thr := h.thr
  rw [h.toucher]
  cases m.owner.hasToucher <;> cases used : m.owner.usesThread <;> simp_all

/-- `toucher_create` goes on to `thread_create`, unless the period is zero. -/
theorem Inv.owner_zeroed (h : Inv m l) {period : Int} (place : m.owner = .zeroed period)
    (step : m.advanceOwner r = some m') :
    Inv m' l ∧ ∀ w, (m'.place w).client = (m.place w).client := by
  unfold Machine.advanceOwner at step
  rw [if_neg h.life.owner_free, place] at step
  dsimp only at step
  obtain ⟨toucher, thr, threadless, calls, alive, unjoined, stopped⟩ := h.life
  split at step
  · cases r with
    | fail st =>
      obtain rfl := Option.some.inj step
      refine ⟨h.owned ?_ (by simp [place]) trivial rfl rfl rfl rfl, fun _ => rfl⟩
      constructor <;> simp_all
    | _ =>
      obtain rfl := Option.some.inj step
      refine ⟨h.owned ?_ (by simp [place]) trivial rfl rfl rfl rfl, fun _ => rfl⟩
      constructor <;> simp_all
  · obtain rfl := Option.some.inj step
    refine ⟨h.owned ?_ (by simp [place]) trivial rfl rfl rfl rfl, fun _ => rfl⟩
    constructor <;> simp_all

/-- The thread is started, or is not. -/
theorem Inv.owner_threaded (h : Inv m l) (place : m.owner = .threaded)
    (step : m.advanceOwner r = some m') :
    Inv m' l ∧ ∀ w, (m'.place w).client = (m.place w).client := by
  unfold Machine.advanceOwner at step
  rw [if_neg h.life.owner_free, place] at step
  dsimp only at step
  cases r with
  | fail st =>
    obtain rfl := Option.some.inj step
    obtain ⟨toucher, thr, threadless, calls, alive, unjoined, stopped⟩ := h.life
    refine ⟨h.owned ?_ (by simp [place]) trivial rfl rfl rfl rfl, fun _ => rfl⟩
    constructor <;> simp_all
  | _ =>
    obtain rfl := Option.some.inj step
    exact h.spawns place

/-- The thread is joined once it has returned. -/
theorem Inv.owner_join (h : Inv m l) {d : Bool} (place : m.owner = .join d)
    (step : m.advanceOwner r = some m') :
    Inv m' l ∧ ∀ w, (m'.place w).client = (m.place w).client := by
  unfold Machine.advanceOwner at step
  rw [if_neg h.life.owner_free, place] at step
  dsimp only at step
  obtain ⟨toucher, thr, threadless, calls, alive, unjoined, stopped⟩ := h.life
  split at step
  · rename_i st returned
    split at step
    · rename_i joined
      simp_all
    · obtain rfl := Option.some.inj step
      refine ⟨h.owned ?_ (by simp [place]) trivial rfl rfl rfl rfl, fun _ => rfl⟩
      constructor <;> cases d <;> simp_all [At.Busy]
  · cases step

theorem Inv.owner_clear (h : Inv m l) {d : Bool} (place : m.owner = .clear d)
    (step : m.advanceOwner r = some m') :
    Inv m' l ∧ ∀ w, (m'.place w).client = (m.place w).client := by
  unfold Machine.advanceOwner at step
  rw [if_neg h.life.owner_free, place] at step
  dsimp only at step
  have still : ¬ (m.place none).Busy := by
    intro busy
    have threaded := (h.life.alive busy).2.1
    rw [place] at threaded
    exact threaded
  obtain ⟨toucher, thr, threadless, calls, alive, unjoined, stopped⟩ := h.life
  obtain rfl := Option.some.inj step
  cases d with
  | false =>
    refine ⟨h.owned ?_ (by simp [place]) trivial rfl rfl rfl rfl, fun _ => rfl⟩
    constructor <;> simp_all
  | true =>
    refine ⟨h.owned ?_ (by simp [place]) trivial rfl rfl rfl rfl, fun _ => rfl⟩
    constructor <;> simp_all

/-- `toucher_destroy` stops the thread first if it runs, and frees the list at once if there is
none. -/
theorem Inv.owner_destroyTest (h : Inv m l) (place : m.owner = .destroyTest)
    (step : m.advanceOwner r = some m') :
    Inv m' l ∧ ∀ w, (m'.place w).client = (m.place w).client := by
  unfold Machine.advanceOwner at step
  rw [if_neg h.life.owner_free, place] at step
  dsimp only at step
  obtain ⟨toucher, thr, threadless, calls, alive, unjoined, stopped⟩ := h.life
  split at step
  · split at step
    · obtain rfl := Option.some.inj step
      refine ⟨h.owned ?_ (by simp [place]) trivial rfl rfl rfl rfl, fun _ => rfl⟩
      constructor <;> simp_all
    · obtain rfl := Option.some.inj step
      refine ⟨h.owned ?_ (by simp [place]) trivial rfl rfl rfl rfl, fun _ => rfl⟩
      constructor <;> simp_all
  · obtain rfl := Option.some.inj step
    refine ⟨h.frees ?_ (by simp [place]) (by simp [place]) (by simp_all) rfl rfl rfl rfl, fun _ => rfl⟩
    constructor <;> simp_all

/-- One target is freed, or there is none left. -/
theorem Inv.owner_freeing (h : Inv m l) {t : Option Nat} (place : m.owner = .freeing t)
    (step : m.advanceOwner r = some m') :
    Inv m' l ∧ ∀ w, (m'.place w).client = (m.place w).client := by
  unfold Machine.advanceOwner at step
  rw [if_neg h.life.owner_free, place] at step
  obtain ⟨toucher, thr, threadless, calls, alive, unjoined, stopped⟩ := h.life
  obtain ⟨u, rest, nobody, owns, ends⟩ := h.order.freed (by simp [place]) (by simp [place])
  obtain rfl : t = u := by simpa [place] using ends
  cases t with
  | none =>
    obtain rfl := Option.some.inj step
    obtain rfl := owns.seg.nowhere
    refine ⟨⟨h.sane, h.kind, h.once, ?_, .freeing none [] nobody owns (by simp)⟩, fun _ => rfl⟩
    constructor <;> simp_all
  | some t =>
    obtain ⟨v, next, rest, rfl, cell, owns⟩ := owns.pop
    dsimp only at step
    rw [cell] at step
    obtain rfl := Option.some.inj step
    refine ⟨⟨h.sane, h.kind, h.once, ?_, .freeing next rest nobody owns (Or.inl rfl)⟩, fun _ => rfl⟩
    constructor <;> simp_all

/-- One step of the owner. -/
theorem Inv.owner (h : Inv m l) (step : m.advanceOwner r = some m') :
    Inv m' l ∧ ∀ w, (m'.place w).client = (m.place w).client := by
  have there := h.life.owner_free
  obtain ⟨toucher, thr, threadless, calls, alive, unjoined, stopped⟩ := h.life
  cases place : m.owner with
  | zeroed period => exact h.owner_zeroed place step
  | threaded => exact h.owner_threaded place step
  | join d => exact h.owner_join place step
  | clear d => exact h.owner_clear place step
  | destroyTest => exact h.owner_destroyTest place step
  | freeing t => exact h.owner_freeing place step
  | unthread =>
    unfold Machine.advanceOwner at step
    rw [if_neg there, place] at step
    obtain rfl := Option.some.inj step
    refine ⟨h.owned ?_ (by simp [place]) trivial rfl rfl rfl rfl, fun _ => rfl⟩
    constructor <;> simp_all
  | abandon =>
    unfold Machine.advanceOwner at step
    rw [if_neg there, place] at step
    obtain rfl := Option.some.inj step
    refine ⟨h.frees ?_ (by simp [place]) (by simp [place]) (by simp_all) rfl rfl rfl rfl, fun _ => rfl⟩
    constructor <;> simp_all
  | spawned =>
    unfold Machine.advanceOwner at step
    rw [if_neg there, place] at step
    obtain rfl := Option.some.inj step
    refine ⟨h.owned ?_ (by simp [place]) trivial rfl rfl rfl rfl, fun _ => rfl⟩
    constructor <;> simp_all
  | mark d =>
    unfold Machine.advanceOwner at step
    rw [if_neg there, place] at step
    obtain rfl := Option.some.inj step
    refine ⟨h.owned ?_ (by simp [place]) trivial rfl rfl rfl rfl, fun _ => rfl⟩
    constructor <;> cases d <;> simp_all
  | destroyFree =>
    unfold Machine.advanceOwner at step
    rw [if_neg there, place] at step
    obtain rfl := Option.some.inj step
    refine ⟨h.frees ?_ (by simp [place]) (by simp [place]) (by simp_all) rfl rfl rfl rfl, fun _ => rfl⟩
    constructor <;> simp_all
  | freeToucher =>
    unfold Machine.advanceOwner at step
    rw [if_neg there, place] at step
    obtain rfl := Option.some.inj step
    obtain ⟨t, rest, nobody, owns, ends⟩ := h.order.freed (by simp [place]) (by simp [place])
    obtain rfl : rest = [] := by simpa [place] using ends
    refine ⟨⟨h.sane, h.kind, h.once, ?_, .freeing t [] nobody owns (by simp)⟩, fun _ => rfl⟩
    constructor <;> simp_all
  | _ =>
    unfold Machine.advanceOwner at step
    rw [if_neg there, place] at step
    cases step

end Owner

end Invariants

end Toucher

end Lancaster
