import Lancaster.Base.Atomic
import Lancaster.VersionedLock

/-!
# A record is an atomic register

The writers and readers of `VersionedLock` against an object that does each write and each read
at once. A write takes effect when the lock is released with the next revision, a read when it
finds the revision unchanged; one that is told of a deadlock has no effect.
-/

namespace Lancaster

open Bytes

namespace VersionedLock

inductive Operation where
  | write (data : List UInt8) (now : Int)
  | read (size : Nat)
  deriving DecidableEq

inductive Outcome where
  | wrote (rev : Int)
  | got (copy : Triple)
  | deadlock
  deriving DecidableEq

/-- What a record is for. -/
inductive Register : Triple → Operation → Outcome → Triple → Prop where
  | write (t : Triple) (data : List UInt8) (now : Int) :
      Register t (.write data now) (.wrote (nextRev t.rev)) ⟨nextRev t.rev, now, poke t.val 0 data⟩
  | read (t : Triple) (size : Nat) :
      Register t (.read size) (.got ⟨t.rev, t.ts, t.val.take size⟩) t
  | deadlock (t : Triple) (op : Operation) : Register t op .deadlock t

def Thread.client : Thread → Atomic.Client Operation Outcome
  | .idle => .idle
  | .writeLock data now => .called (.write data now)
  | .writing _ _ data now _ => .called (.write data now)
  | .stamped _ _ data now => .called (.write data now)
  | .readLock size => .called (.read size)
  | .copying _ size _ => .called (.read size)
  | .recheck _ size _ _ => .called (.read size)

def Machine.seen (ch : Choice) (m : Machine) : List (Atomic.Event Nat Operation Outcome) :=
  match ch with
  | .write i data now => [.call i (.write data now)]
  | .read i size => [.call i (.read size)]
  | .step i =>
    match m.threads i with
    | .stamped old _ _ _ => [.ret i (.wrote (nextRev old))]
    | .recheck rev _ buf ts => if rev = m.word then [.ret i (.got ⟨rev, ts, buf⟩)] else []
    | _ => []
  | .giveUp i => [.ret i .deadlock]

abbrev Machine.shows (chs : List Choice) (m : Machine) :
    List (Atomic.Event Nat Operation Outcome) :=
  Atomic.history Machine.next Machine.seen chs m

/-- A reader has copied no more than it was asked for, and all of it before it looks again. -/
def Thread.Sized : Thread → Prop
  | .copying _ size buf => buf.length ≤ size
  | .recheck _ size buf _ => buf.length = size
  | _ => True

/-- Everything a choice can do, as the object sees it. -/
inductive Effect (m : Machine) (events : List (Atomic.Event Nat Operation Outcome)) (m' : Machine) :
    Prop where
  | call (i : Nat) (op : Operation) (t : Thread) (free : m.threads i = .idle)
      (seen : events = [.call i op]) (called : t.client = .called op) (sized : t.Sized)
      (after : m' = m.set i t)
  | silent (i : Nat) (t : Thread) (seen : events = []) (same : t.client = (m.threads i).client)
      (sized : (m.threads i).Sized → t.Sized) (history : m'.history = m.history)
      (threads : m'.threads = (m.set i t).threads)
  | wrote (i : Nat) (old : Int) (goal data : List UInt8) (now : Int)
      (here : m.threads i = .stamped old goal data now)
      (seen : events = [.ret i (.wrote (nextRev old))])
      (history : m'.history = m.history ++ [⟨nextRev old, now, goal⟩])
      (threads : m'.threads = (m.set i .idle).threads)
  | got (i : Nat) (rev : Int) (size : Nat) (buf : List UInt8) (ts : Int)
      (here : m.threads i = .recheck rev size buf ts) (still : rev = m.word)
      (seen : events = [.ret i (.got ⟨rev, ts, buf⟩)]) (history : m'.history = m.history)
      (threads : m'.threads = (m.set i .idle).threads)
  | gaveUp (i : Nat) (op : Operation) (waits : (m.threads i).client = .called op)
      (seen : events = [.ret i .deadlock]) (after : m' = m.set i .idle)

section Effects

variable {m m' : Machine} {i : Nat}

theorem advance_effect (h : m.advance i = some m') : Effect m (Machine.seen (.step i) m) m' := by
  unfold Machine.advance at h
  split at h
  case h_1 => cases h
  case h_2 data now thread =>
    obtain rfl := Option.some.inj h
    refine .silent i _ (by simp [Machine.seen, thread]) ?_ ?_ rfl rfl
    · rw [thread]
      split <;> rfl
    · intro _
      split <;> trivial
  case h_3 old goal data now k thread =>
    split at h
    · obtain rfl := Option.some.inj h
      exact .silent i (.writing old goal data now (k + 1)) (by simp [Machine.seen, thread])
        (by rw [thread]; rfl) (fun _ => trivial) rfl rfl
    · obtain rfl := Option.some.inj h
      exact .silent i (.stamped old goal data now) (by simp [Machine.seen, thread])
        (by rw [thread]; rfl) (fun _ => trivial) rfl rfl
  case h_4 old goal data now thread =>
    obtain rfl := Option.some.inj h
    exact .wrote i old goal data now thread (by simp [Machine.seen, thread]) rfl rfl
  case h_5 size thread =>
    obtain rfl := Option.some.inj h
    refine .silent i _ (by simp [Machine.seen, thread]) ?_ ?_ rfl rfl
    · rw [thread]
      split <;> rfl
    · intro _
      split
      · trivial
      · exact Nat.zero_le _
  case h_6 rev size buf thread =>
    obtain rfl := Option.some.inj h
    refine .silent i _ (by simp [Machine.seen, thread]) ?_ ?_ rfl rfl
    · rw [thread]
      split <;> rfl
    · rw [thread]
      intro (small : buf.length ≤ size)
      split
      · rename_i more
        rw [Thread.Sized, List.length_append, List.length_singleton]
        exact more
      · rw [Thread.Sized]
        omega
  case h_7 rev size buf ts thread =>
    split at h
    · rename_i still
      obtain rfl := Option.some.inj h
      exact .got i rev size buf ts thread still (by simp [Machine.seen, thread, still]) rfl rfl
    · rename_i moved
      obtain rfl := Option.some.inj h
      exact .silent i (.readLock size) (by simp [Machine.seen, thread, moved]) (by rw [thread]; rfl)
        (fun _ => trivial) rfl rfl

theorem next_effect {ch : Choice} (h : Machine.next ch m = some m') :
    Effect m (Machine.seen ch m) m' := by
  cases ch with
  | write i data now =>
    simp only [Machine.next] at h
    split at h
    · rename_i thread
      split at h
      · exact .call i (.write data now) (.writeLock data now) thread rfl rfl trivial
          (Option.some.inj h).symm
      · cases h
    · cases h
  | read i size =>
    simp only [Machine.next] at h
    split at h
    · rename_i thread
      split at h
      · exact .call i (.read size) (.readLock size) thread rfl rfl trivial (Option.some.inj h).symm
      · cases h
    · cases h
  | step i => exact advance_effect h
  | giveUp i =>
    simp only [Machine.next] at h
    split at h
    · rename_i data now thread
      exact .gaveUp i (.write data now) (by rw [thread]; rfl) rfl (Option.some.inj h).symm
    · rename_i size thread
      exact .gaveUp i (.read size) (by rw [thread]; rfl) rfl (Option.some.inj h).symm
    · cases h

end Effects

/-- The object holds the last commit, and its clients are in the operations of the threads. -/
structure Represents (m : Machine) (a : Atomic.State Nat Operation Outcome Triple) : Prop where
  inv : ∃ first, Inv first m
  sized : ∀ i, (m.threads i).Sized
  last : m.history.getLast? = some a.value
  clients : ∀ i, a.clients i = (m.threads i).client

namespace Represents

variable {m m' : Machine} {a : Atomic.State Nat Operation Outcome Triple} {i : Nat} {t : Thread}

theorem clients_set (h : Represents m a) (threads : m'.threads = (m.set i t).threads) (v : Triple)
    (j : Nat) : ({ a with value := v }.set i t.client).clients j = (m'.threads j).client := by
  rw [threads]
  by_cases hi : j = i
  · rw [hi, Atomic.State.set_same, set_threads_same]
  · rw [Atomic.State.set_other _ _ _ hi, set_threads_other _ _ hi]
    exact h.clients j

theorem sized_set (h : Represents m a) (threads : m'.threads = (m.set i t).threads)
    (sized : t.Sized) (j : Nat) : (m'.threads j).Sized := by
  rw [threads]
  by_cases hi : j = i
  · rw [hi, set_threads_same]
    exact sized
  · rw [set_threads_other _ _ hi]
    exact h.sized j

/-- The last commit, and what it means for the memory. -/
theorem eq_value (h : Represents m a) {older : List Triple} {last : Triple}
    (hist : m.history = older ++ [last]) : last = a.value := by
  have newest := h.last
  rw [hist, List.getLast?_concat] at newest
  exact Option.some.inj newest

/-- A writer about to unlock leaves what the object's write leaves. -/
theorem writes {old now : Int} {goal data : List UInt8} (h : Represents m a)
    (here : m.threads i = .stamped old goal data now) :
    old = a.value.rev ∧ goal = poke a.value.val 0 data := by
  obtain ⟨first, inv⟩ := h.inv
  have holds : (m.threads i).Holds := by
    rw [here]
    trivial
  obtain ⟨older, last, hist, _, holding, _⟩ := inv.held_memory holds
  rw [here] at holding
  obtain ⟨rev, goal, _⟩ := holding
  rw [← h.eq_value hist]
  exact ⟨rev, goal⟩

/-- A reader that finds its revision unchanged has read the object. -/
theorem reads {rev ts : Int} {size : Nat} {buf : List UInt8} (h : Represents m a)
    (here : m.threads i = .recheck rev size buf ts) (still : rev = m.word)
    (few : m.history.length ≤ span) :
    Triple.mk rev ts buf = ⟨a.value.rev, a.value.ts, a.value.val.take size⟩ := by
  obtain ⟨first, inv⟩ := h.inv
  obtain ⟨c, hc, crev, _⟩ := inv.accept here still few
  obtain ⟨k, hk⟩ := List.mem_iff_getElem?.mp hc
  have free : 0 ≤ m.word := by
    have := inv.revs k c hk
    omega
  obtain ⟨older, last, hist, word, hts, val, _⟩ := inv.free_memory free
  obtain ⟨sameTs, sameBuf⟩ := inv.accept_current here still few
  have sized := h.sized i
  rw [here] at sized
  have sizes : buf.length = size := sized
  rw [← h.eq_value hist, ← word, ← hts, ← val, ← still, ← sameTs, ← sizes, ← sameBuf]

/-- Each choice is matched by the object. -/
theorem next (h : Represents m a) {ch : Choice} (step : Machine.next ch m = some m')
    (few : m'.history.length ≤ span) :
    ∃ b, Atomic.Run Register a (Machine.seen ch m) b ∧ Represents m' b := by
  obtain ⟨first, inv⟩ := h.inv
  have inv' : ∃ first, Inv first m' := ⟨first, inv.next step⟩
  cases next_effect step with
  | call i op t free seen called sized after =>
    subst after
    have idle : a.clients i = .idle := by rw [h.clients i, free]; rfl
    rw [seen]
    refine ⟨_, .one (.call op idle), inv', h.sized_set rfl sized, h.last, ?_⟩
    rw [← called]
    exact h.clients_set rfl a.value
  | silent i t seen same sized history threads =>
    rw [seen]
    refine ⟨a, .refl, inv', h.sized_set threads (sized (h.sized i)), by rw [history, h.last], ?_⟩
    intro j
    rw [threads]
    by_cases hi : j = i
    · rw [hi, set_threads_same, same, h.clients]
    · rw [set_threads_other _ _ hi, h.clients]
  | wrote i old goal data now here seen history threads =>
    obtain ⟨rfl, rfl⟩ := h.writes here
    have waits : a.clients i = .called (.write data now) := by rw [h.clients i, here]; rfl
    rw [seen]
    refine ⟨_, .returns waits (.write a.value data now), inv', h.sized_set threads trivial, ?_,
      h.clients_set threads _⟩
    rw [history, List.getLast?_concat]
    rfl
  | got i rev size buf ts here still seen history threads =>
    have waits : a.clients i = .called (.read size) := by rw [h.clients i, here]; rfl
    rw [seen, h.reads here still (history ▸ few)]
    exact ⟨_, .returns waits (.read a.value size), inv', h.sized_set threads trivial,
      by rw [history]; exact h.last, h.clients_set threads _⟩
  | gaveUp i op waits seen after =>
    subst after
    have waits : a.clients i = .called op := by rw [h.clients i, waits]
    rw [seen]
    exact ⟨_, .returns waits (.deadlock a.value op), inv', h.sized_set (t := .idle) rfl trivial,
      h.last, h.clients_set (t := .idle) rfl _⟩

theorem start {t : Triple} (low : 0 ≤ t.rev) (high : t.rev < 9223372036854775808) :
    Represents (Machine.init t) (.start t) :=
  ⟨⟨t.rev, Inv.init low high⟩, fun _ => trivial, rfl, fun _ => rfl⟩

end Represents

theorem run_eq_perform (chs : List Choice) (m : Machine) :
    Machine.run chs m = Atomic.perform Machine.next chs m := by
  induction chs generalizing m with
  | nil => rfl
  | cons ch rest ih =>
    rw [Machine.run, Atomic.perform]
    congr 1
    exact funext ih

theorem few_back (ch : Choice) (m m' : Machine) (step : Machine.next ch m = some m')
    (few : m'.history.length ≤ span) : m.history.length ≤ span := by
  cases next_effect step with
  | call i op t free seen called sized after => rwa [after] at few
  | silent i t seen same sized history threads => rwa [history] at few
  | wrote i old goal data now here seen history threads =>
    rw [history, List.length_append] at few
    omega
  | got i rev size buf ts here still seen history threads => rwa [history] at few
  | gaveUp i op waits seen after => rwa [after] at few

/-- In every interleaving with fewer than 2^63 commits the calls and returns of the readers and
writers are those of an object that does each operation at one moment between its call and its
return: no write is lost or done twice, every write counts the revision up by one, and a read
returns what the write before it left. Whenever nobody holds the lock, the memory is the
object's value. -/
theorem record_linearizable {start : Triple} (low : 0 ≤ start.rev)
    (high : start.rev < 9223372036854775808) {chs : List Choice} {m : Machine}
    (run : Machine.run chs (Machine.init start) = some m)
    (few : m.history.length - 1 < 9223372036854775808) :
    ∃ a, Atomic.Run Register (.start start) (Machine.shows chs (Machine.init start)) a ∧
      (∀ i, a.clients i = (m.threads i).client) ∧
      ((∀ i, ¬ (m.threads i).Holds) → Triple.mk m.word m.ts m.val = a.value) := by
  rw [run_eq_perform] at run
  have few : m.history.length ≤ span := by
    rw [span]
    omega
  have matched : ∀ ch x y a, Machine.next ch x = some y → y.history.length ≤ span →
      Represents x a → ∃ b, Atomic.Run Register a (Machine.seen ch x) b ∧ Represents y b :=
    fun _ _ _ _ step few h => h.next step few
  obtain ⟨a, matched, h⟩ := Atomic.simulated few_back matched run few (Represents.start low high)
  refine ⟨a, matched, h.clients, fun nobody => ?_⟩
  obtain ⟨first, inv⟩ := h.inv
  obtain ⟨older, last, hist, memory⟩ := inv.memory
  cases memory with
  | free word ts val _ => rw [← h.eq_value hist, word, ts, val]
  | held _ i holding _ => exact absurd holding.holds (nobody i)

/-- In the interleaving of `overtaken` the write of thread 1 lies before the read of thread 0. -/
theorem record_linearizable_overtaken :
    ∃ a, Atomic.Run Register (.start ⟨3, 0, [1, 2]⟩) [.call 0 (.read 2), .call 1 (.write [7, 8] 5),
      .ret 1 (.wrote 4), .ret 0 (.got ⟨4, 5, [7, 8]⟩)] a := by
  have shown : Machine.shows overtaken (Machine.init ⟨3, 0, [1, 2]⟩) = [.call 0 (.read 2),
      .call 1 (.write [7, 8] 5), .ret 1 (.wrote 4), .ret 0 (.got ⟨4, 5, [7, 8]⟩)] := by
    decide +kernel
  have ends : (Machine.run overtaken (Machine.init ⟨3, 0, [1, 2]⟩)).any
      (fun m => m.history.length = 2) = true := by
    decide +kernel
  obtain ⟨m, run, two⟩ := (Option.any_eq_true _ _).mp ends
  obtain ⟨a, matched, _⟩ := record_linearizable (by decide) (by decide) run
    (by rw [of_decide_eq_true two]; decide)
  exact ⟨a, shown ▸ matched⟩

end VersionedLock

end Lancaster
