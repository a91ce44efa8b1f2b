import Lancaster.Storage

/-!
# The versioned lock of a record

Writers and readers of one record, interleaved at single steps: a lock word read or
changed, one byte copied, the timestamp copied. `spin_write_lock` sets the sign bit of
the lock word by fetch-and-or and holds the record if the word it got back was free;
`spin_unlock` stores the next revision. A reader takes no lock: it remembers a free
revision, copies, and accepts the copy if the revision is still there.

`history` and `accepted` are history variables, and `goal` is the value a writer is
about to commit.
-/

namespace Lancaster

open Bytes

namespace VersionedLock

structure Triple where
  rev : Int
  ts : Int
  val : List UInt8
  deriving DecidableEq

inductive Thread where
  | idle
  | writeLock (data : List UInt8) (now : Int)
  | writing (old : Int) (goal data : List UInt8) (now : Int) (k : Nat)
  | stamped (old : Int) (goal data : List UInt8) (now : Int)
  | readLock (size : Nat)
  | copying (rev : Int) (size : Nat) (buf : List UInt8)
  | recheck (rev : Int) (size : Nat) (buf : List UInt8) (ts : Int)

def Thread.Holds : Thread → Prop
  | .writing .. => True
  | .stamped .. => True
  | _ => False

structure Machine where
  word : Int
  ts : Int
  val : List UInt8
  threads : Nat → Thread
  history : List Triple
  accepted : List Triple

inductive Choice where
  | write (i : Nat) (data : List UInt8) (now : Int)
  | read (i : Nat) (size : Nat)
  | step (i : Nat)
  | giveUp (i : Nat)

namespace Machine

def init (start : Triple) : Machine where
  word := start.rev
  ts := start.ts
  val := start.val
  threads := fun _ => .idle
  history := [start]
  accepted := []

def set (m : Machine) (i : Nat) (t : Thread) : Machine :=
  { m with threads := fun j => if j = i then t else m.threads j }

def advance (m : Machine) (i : Nat) : Option Machine :=
  match m.threads i with
  | .idle => none
  | .writeLock data now =>
    -- the word is marked whether or not it was free
    some ({ m with word := lockedWord m.word }.set i
      (if m.word < 0 then .writeLock data now
       else .writing m.word (poke m.val 0 data) data now 0))
  | .writing old goal data now k =>
    if k < data.length then
      some ({ m with val := m.val.set k (data.getD k 0) }.set i
        (.writing old goal data now (k + 1)))
    else some ({ m with ts := now }.set i (.stamped old goal data now))
  | .stamped old goal _ now =>
    some ({ m with
      word := nextRev old
      history := m.history ++ [Triple.mk (nextRev old) now goal] }.set i .idle)
  | .readLock size =>
    some (m.set i (if m.word < 0 then .readLock size else .copying m.word size []))
  | .copying rev size buf =>
    some (m.set i (if buf.length < size then
        .copying rev size (buf ++ [m.val.getD buf.length 0])
      else .recheck rev size buf m.ts))
  | .recheck rev size buf ts =>
    if rev = m.word then
      some ({ m with accepted := m.accepted ++ [Triple.mk rev ts buf] }.set i .idle)
    else some (m.set i (.readLock size))

/-- A write or a read begins, a thread makes a step, or it is told of a deadlock while
it waits for the lock. -/
def next : Choice → Machine → Option Machine
  | .write i data now, m =>
    match m.threads i with
    | .idle => if data.length ≤ m.val.length then some (m.set i (.writeLock data now)) else none
    | _ => none
  | .read i size, m =>
    match m.threads i with
    | .idle => if size ≤ m.val.length then some (m.set i (.readLock size)) else none
    | _ => none
  | .step i, m => m.advance i
  | .giveUp i, m =>
    match m.threads i with
    | .writeLock _ _ => some (m.set i .idle)
    | .readLock _ => some (m.set i .idle)
    | _ => none

def run : List Choice → Machine → Option Machine
  | [], m => some m
  | ch :: rest, m => (next ch m).bind (run rest)

end Machine

/-! ## The invariant -/

/-- The thread has copied what it holds from a committed triple, or will notice. -/
def Reads (m : Machine) : Thread → Prop
  | .writeLock data _ => data.length ≤ m.val.length
  | .readLock size => size ≤ m.val.length
  | .copying rev size buf => size ≤ m.val.length ∧ ∃ k c, m.history[k]? = some c ∧ c.rev = rev ∧
      (k + 1 = m.history.length → 0 ≤ m.word → buf = c.val.take buf.length)
  | .recheck rev size buf ts => size ≤ m.val.length ∧ ∃ k c, m.history[k]? = some c ∧ c.rev = rev ∧
      (k + 1 = m.history.length → 0 ≤ m.word → buf = c.val.take buf.length ∧ ts = c.ts)
  | _ => True

/-- The memory while thread `t` holds the lock, against the last commit. -/
def Holding (m : Machine) (last : Triple) : Thread → Prop
  | .writing old goal data _ k => old = last.rev ∧ goal = poke last.val 0 data ∧
      data.length ≤ last.val.length ∧ k ≤ data.length ∧ m.val = poke last.val 0 (data.take k)
  | .stamped old goal data now => old = last.rev ∧ goal = poke last.val 0 data ∧
      data.length ≤ last.val.length ∧ m.val = goal ∧ m.ts = now
  | _ => False

/-- The lock is free and the memory is the last commit, or one thread holds it. -/
inductive Memory (m : Machine) (last : Triple) : Prop where
  | free (word : m.word = last.rev) (ts : m.ts = last.ts) (val : m.val = last.val)
      (nobody : ∀ i, ¬ (m.threads i).Holds)
  | held (word : m.word < 0) (i : Nat) (holding : Holding m last (m.threads i))
      (only : ∀ j, (m.threads j).Holds → j = i)

/-- As many revisions as there are before a revision comes again. -/
def span : Nat := 9223372036854775808

/-- A copy that was accepted is what one commit left. -/
def Whole (m : Machine) : Prop :=
  ∀ a ∈ m.accepted, ∃ c ∈ m.history, c.rev = a.rev ∧ c.ts = a.ts ∧ a.val = c.val.take a.val.length

structure Inv (first : Int) (m : Machine) : Prop where
  revs : ∀ (k : Nat) c, m.history[k]? = some c → c.rev = (first + k) % 9223372036854775808
  lens : ∀ c ∈ m.history, c.val.length = m.val.length
  memory : ∃ older last, m.history = older ++ [last] ∧ Memory m last
  reads : ∀ i, Reads m (m.threads i)
  whole : m.history.length ≤ span → Whole m

section Threads

variable {m m' : Machine} {i : Nat} {t : Thread}

@[simp] theorem set_threads_same (m : Machine) (i : Nat) (t : Thread) :
    (m.set i t).threads i = t := by simp [Machine.set]

theorem set_threads_other (m : Machine) {i j : Nat} (t : Thread) (h : j ≠ i) :
    (m.set i t).threads j = m.threads j := by simp [Machine.set, h]

/-- What a reader knows survives steps that commit nothing. -/
theorem Reads.mono (h : Reads m t) (len : m'.val.length = m.val.length)
    (history : m'.history = m.history) (word : 0 ≤ m'.word → 0 ≤ m.word) : Reads m' t := by
  cases t with
  | writeLock data now =>
    rw [Reads, len]
    exact h
  | readLock size =>
    rw [Reads, len]
    exact h
  | copying rev size buf =>
    obtain ⟨hsize, k, c, hk, hrev, same⟩ := h
    rw [Reads, len, history]
    exact ⟨hsize, k, c, hk, hrev, fun last free => same last (word free)⟩
  | recheck rev size buf ts =>
    obtain ⟨hsize, k, c, hk, hrev, same⟩ := h
    rw [Reads, len, history]
    exact ⟨hsize, k, c, hk, hrev, fun last free => same last (word free)⟩
  | _ => trivial

/-- A commit makes every older copy one that will be noticed. -/
theorem Reads.commit (h : Reads m t) {c : Triple} (len : m'.val.length = m.val.length)
    (history : m'.history = m.history ++ [c]) : Reads m' t := by
  have older : ∀ (k : Nat) c₀, m.history[k]? = some c₀ → m'.history[k]? = some c₀ ∧
      k + 1 ≠ m'.history.length := by
    intro k c₀ hk
    have bound := (List.getElem?_eq_some_iff.mp hk).1
    rw [history, List.getElem?_append_left bound, List.length_append, List.length_singleton]
    exact ⟨hk, by omega⟩
  cases t with
  | writeLock data now =>
    rw [Reads, len]
    exact h
  | readLock size =>
    rw [Reads, len]
    exact h
  | copying rev size buf =>
    obtain ⟨hsize, k, c₀, hk, hrev, _⟩ := h
    rw [Reads, len]
    exact ⟨hsize, k, c₀, (older k c₀ hk).1, hrev, fun last => absurd last (older k c₀ hk).2⟩
  | recheck rev size buf ts =>
    obtain ⟨hsize, k, c₀, hk, hrev, _⟩ := h
    rw [Reads, len]
    exact ⟨hsize, k, c₀, (older k c₀ hk).1, hrev, fun last => absurd last (older k c₀ hk).2⟩
  | _ => trivial

theorem Holding.holds {last : Triple} (h : Holding m last t) : t.Holds := by
  cases t <;> first | exact h | trivial

end Threads

/-- One more byte of `data` is copied. -/
theorem set_poke_take {val data : List UInt8} {k : Nat} (size : data.length ≤ val.length)
    (more : k < data.length) :
    (poke val 0 (data.take k)).set k (data.getD k 0) = poke val 0 (data.take (k + 1)) := by
  have copied : (data.take k).length = k := by
    rw [List.length_take]
    omega
  have next : (data.take (k + 1)).length = k + 1 := by
    rw [List.length_take]
    omega
  have byte : data.getD k 0 = data[k] := by
    rw [List.getD_eq_getElem?_getD, List.getElem?_eq_getElem more, Option.getD_some]
  simp only [poke, List.take_zero, List.nil_append, Nat.zero_add, copied, next]
  rw [List.set_append_right _ _ (by omega), copied, Nat.sub_self,
    List.drop_eq_getElem_cons (by omega : k < val.length), List.set_cons_zero, byte,
    ← List.take_append_getElem more, List.append_assoc, List.singleton_append]

namespace Inv

variable {first : Int} {m : Machine} {i : Nat}

/-- A thread that does not hold the lock moves on, and may have accepted a copy. -/
theorem move (h : Inv first m) {t : Thread} {accepted : List Triple}
    (was : ¬ (m.threads i).Holds) (free : ¬ t.Holds) (reads : Reads m t)
    (whole : m.history.length ≤ span → Whole { m with accepted := accepted }) :
    Inv first ({ m with accepted := accepted }.set i t) := by
  have threads : ∀ j, (({ m with accepted := accepted }.set i t).threads j).Holds →
      (m.threads j).Holds ∧ j ≠ i := by
    intro j hj
    by_cases hi : j = i
    · subst hi
      rw [set_threads_same] at hj
      exact absurd hj free
    · rw [set_threads_other _ t hi] at hj
      exact ⟨hj, hi⟩
  refine ⟨h.revs, h.lens, ?_, ?_, whole⟩
  · obtain ⟨older, last, hist, memory⟩ := h.memory
    refine ⟨older, last, hist, ?_⟩
    cases memory with
    | free word ts val nobody =>
      exact .free word ts val fun j hj => nobody j (threads j hj).1
    | held word k holding only =>
      have hk : k ≠ i := by
        rintro rfl
        exact was holding.holds
      refine .held word k ?_ fun j hj => only j (threads j hj).1
      rw [set_threads_other _ t hk]
      cases hm : m.threads k <;> rw [hm] at holding <;> exact holding
  · intro j
    by_cases hi : j = i
    · subst hi
      rw [set_threads_same]
      exact reads.mono rfl rfl fun free => free
    · rw [set_threads_other _ t hi]
      exact (h.reads j).mono rfl rfl fun free => free

theorem set (h : Inv first m) {t : Thread} (was : ¬ (m.threads i).Holds) (free : ¬ t.Holds)
    (reads : Reads m t) : Inv first (m.set i t) := h.move was free reads h.whole

/-- The record is free when its lock word says so. -/
theorem free_memory (h : Inv first m) (free : 0 ≤ m.word) :
    ∃ older last, m.history = older ++ [last] ∧ m.word = last.rev ∧ m.ts = last.ts ∧
      m.val = last.val ∧ ∀ i, ¬ (m.threads i).Holds := by
  obtain ⟨older, last, hist, memory⟩ := h.memory
  cases memory with
  | free word ts val nobody => exact ⟨older, last, hist, word, ts, val, nobody⟩
  | held word => omega

/-- A thread between lock and unlock is the only one. -/
theorem held_memory (h : Inv first m) (holds : (m.threads i).Holds) :
    ∃ older last, m.history = older ++ [last] ∧ m.word < 0 ∧ Holding m last (m.threads i) ∧
      ∀ j, (m.threads j).Holds → j = i := by
  obtain ⟨older, last, hist, memory⟩ := h.memory
  cases memory with
  | free word ts val nobody => exact absurd holds (nobody i)
  | held word k holding only =>
    obtain rfl := only i holds
    exact ⟨older, last, hist, word, holding, only⟩

theorem word_lt (h : Inv first m) (free : 0 ≤ m.word) : m.word < 9223372036854775808 := by
  obtain ⟨older, last, hist, word, _⟩ := h.free_memory free
  have rev := h.revs older.length last (by simp [hist])
  omega

/-- The last commit is the only one with the revision of a free lock word, as long as
no revision has come twice. -/
theorem last_of_rev (h : Inv first m) (few : m.history.length ≤ span) (free : 0 ≤ m.word)
    {k : Nat} {c : Triple} (hk : m.history[k]? = some c) (rev : c.rev = m.word) :
    k + 1 = m.history.length := by
  obtain ⟨older, last, hist, word, _⟩ := h.free_memory free
  have bound := (List.getElem?_eq_some_iff.mp hk).1
  have revK := h.revs k c hk
  have revLast := h.revs older.length last (by simp [hist])
  rw [hist, List.length_append, List.length_singleton] at few bound ⊢
  simp only [span] at few
  omega

/-- The lock is taken. -/
theorem lock (h : Inv first m) {data : List UInt8} {now : Int}
    (thread : m.threads i = .writeLock data now) (free : 0 ≤ m.word) :
    Inv first ({ m with word := lockedWord m.word }.set i
      (.writing m.word (poke m.val 0 data) data now 0)) := by
  have bound := h.word_lt free
  have marked : lockedWord m.word < 0 := by
    rw [lockedWord]
    split <;> omega
  have size : data.length ≤ m.val.length := by
    have reads := h.reads i
    rw [thread] at reads
    exact reads
  obtain ⟨older, last, hist, word, ts, val, nobody⟩ := h.free_memory free
  refine ⟨h.revs, h.lens, ⟨older, last, hist, .held marked i ?_ ?_⟩, ?_, h.whole⟩
  · rw [set_threads_same]
    refine ⟨word, by rw [val], by rwa [← val], Nat.zero_le _, ?_⟩
    simp [poke, Machine.set, val]
  · intro j hj
    by_contra hi
    rw [set_threads_other _ _ hi] at hj
    exact nobody j hj
  · intro j
    by_cases hi : j = i
    · subst hi
      rw [set_threads_same]
      trivial
    · rw [set_threads_other _ _ hi]
      exact (h.reads j).mono rfl rfl fun locked => absurd locked (by simp only [Machine.set]; omega)

/-- The holder changes the memory and moves on. -/
theorem hold (h : Inv first m) {m' : Machine} {t : Thread} (holds : (m.threads i).Holds)
    (word : m'.word = m.word) (len : m'.val.length = m.val.length)
    (history : m'.history = m.history) (accepted : m'.accepted = m.accepted)
    (threads : m'.threads = m.threads) (reads : Reads m' t)
    (holding : ∀ last, Holding m last (m.threads i) → Holding m' last t) :
    Inv first (m'.set i t) := by
  obtain ⟨older, last, hist, locked, now, only⟩ := h.held_memory holds
  refine ⟨?_, ?_, ⟨older, last, ?_, .held ?_ i ?_ ?_⟩, ?_, ?_⟩
  · simp only [Machine.set, history]
    exact h.revs
  · simp only [Machine.set, history, len]
    exact h.lens
  · simp only [Machine.set, history]
    exact hist
  · simp only [Machine.set, word]
    exact locked
  · rw [set_threads_same]
    have := holding last now
    cases t <;> exact this
  · intro j hj
    by_contra hi
    rw [set_threads_other _ _ hi, threads] at hj
    exact hi (only j hj)
  · intro j
    by_cases hi : j = i
    · subst hi
      rw [set_threads_same]
      exact reads.mono rfl rfl fun free => free
    · rw [set_threads_other _ _ hi, threads]
      refine (h.reads j).mono ?_ ?_ ?_
      · simp only [Machine.set, len]
      · simp only [Machine.set, history]
      · simp only [Machine.set, word]
        exact fun free => free
  · simp only [Machine.set, history, Whole, accepted]
    exact h.whole

/-- The lock is given back with the next revision. -/
theorem unlock (h : Inv first m) {old now : Int} {goal data : List UInt8}
    (thread : m.threads i = .stamped old goal data now) :
    Inv first ({ m with
      word := nextRev old
      history := m.history ++ [Triple.mk (nextRev old) now goal] }.set i .idle) := by
  have holds : (m.threads i).Holds := by
    rw [thread]
    trivial
  obtain ⟨older, last, hist, locked, holding, only⟩ := h.held_memory holds
  rw [thread] at holding
  obtain ⟨rfl, hgoal, size, val, ts⟩ := holding
  have revLast := h.revs older.length last (by simp [hist])
  have lenLast := h.lens last (by simp [hist])
  refine ⟨?_, ?_, ⟨m.history, _, rfl, .free rfl ts val ?_⟩, ?_, ?_⟩
  · intro k c hk
    simp only [Machine.set] at hk
    by_cases hlt : k < m.history.length
    · rw [List.getElem?_append_left hlt] at hk
      exact h.revs k c hk
    · have bound := (List.getElem?_eq_some_iff.mp hk).1
      rw [List.length_append, List.length_singleton] at bound
      obtain rfl : k = m.history.length := by omega
      rw [List.getElem?_concat_length] at hk
      obtain rfl := Option.some.inj hk
      rw [hist, List.length_append, List.length_singleton]
      simp only [nextRev]
      omega
  · intro c hc
    simp only [Machine.set] at hc ⊢
    rcases List.mem_append.mp hc with hc | hc
    · exact h.lens c hc
    · obtain rfl := List.mem_singleton.mp hc
      exact congrArg List.length val.symm
  · intro j hj
    by_cases hi : j = i
    · subst hi
      rw [set_threads_same] at hj
      exact hj
    · rw [set_threads_other _ _ hi] at hj
      exact hi (only j hj)
  · intro j
    by_cases hi : j = i
    · subst hi
      rw [set_threads_same]
      trivial
    · rw [set_threads_other _ _ hi]
      exact (h.reads j).commit rfl rfl
  · intro few a ha
    simp only [Machine.set, List.length_append, List.length_singleton] at few ha
    obtain ⟨c, hc, same⟩ := h.whole (by omega) a ha
    exact ⟨c, List.mem_append_left _ hc, same⟩

theorem eq_last {older : List Triple} {last c : Triple} {k : Nat}
    (hist : m.history = older ++ [last]) (hk : m.history[k]? = some c)
    (newest : k + 1 = m.history.length) : c = last := by
  rw [hist, List.length_append, List.length_singleton] at newest
  obtain rfl : k = older.length := by omega
  simpa [hist, eq_comm] using hk

/-- A byte is copied. -/
theorem copy (h : Inv first m) {rev : Int} {size : Nat} {buf : List UInt8}
    (thread : m.threads i = .copying rev size buf) (more : buf.length < size) :
    Reads m (.copying rev size (buf ++ [m.val.getD buf.length 0])) := by
  have reads := h.reads i
  rw [thread] at reads
  obtain ⟨hsize, k, c, hk, hrev, same⟩ := reads
  refine ⟨hsize, k, c, hk, hrev, fun newest free => ?_⟩
  obtain ⟨older, last, hist, _, _, val, _⟩ := h.free_memory free
  obtain rfl := eq_last hist hk newest
  have inside : buf.length < c.val.length := by
    rw [← val]
    omega
  have before := same newest free
  rw [List.length_append, List.length_singleton, val, List.take_add_one, ← before]
  simp [List.getD, List.getElem?_eq_getElem inside]

/-- The timestamp is copied behind the last byte. -/
theorem copied (h : Inv first m) {rev : Int} {size : Nat} {buf : List UInt8}
    (thread : m.threads i = .copying rev size buf) : Reads m (.recheck rev size buf m.ts) := by
  have reads := h.reads i
  rw [thread] at reads
  obtain ⟨hsize, k, c, hk, hrev, same⟩ := reads
  refine ⟨hsize, k, c, hk, hrev, fun newest free => ⟨same newest free, ?_⟩⟩
  obtain ⟨older, last, hist, _, ts, _⟩ := h.free_memory free
  obtain rfl := eq_last hist hk newest
  exact ts

/-- A copy whose revision is still there is the last commit. -/
theorem accept (h : Inv first m) {rev ts : Int} {size : Nat} {buf : List UInt8}
    (thread : m.threads i = .recheck rev size buf ts) (still : rev = m.word)
    (few : m.history.length ≤ span) :
    ∃ c ∈ m.history, c.rev = rev ∧ c.ts = ts ∧ buf = c.val.take buf.length := by
  have reads := h.reads i
  rw [thread] at reads
  obtain ⟨hsize, k, c, hk, hrev, same⟩ := reads
  have free : 0 ≤ m.word := by
    have := h.revs k c hk
    omega
  obtain ⟨hbuf, hts⟩ := same (h.last_of_rev few free hk (hrev.trans still)) free
  exact ⟨c, List.mem_of_getElem? hk, hrev, hts.symm, hbuf⟩

/-- What is accepted is in memory at that moment: accepting is reading the record at once. -/
theorem accept_current (h : Inv first m) {rev ts : Int} {size : Nat} {buf : List UInt8}
    (thread : m.threads i = .recheck rev size buf ts) (still : rev = m.word)
    (few : m.history.length ≤ span) : ts = m.ts ∧ buf = m.val.take buf.length := by
  have reads := h.reads i
  rw [thread] at reads
  obtain ⟨_, k, c, hk, hrev, same⟩ := reads
  have free : 0 ≤ m.word := by
    have := h.revs k c hk
    omega
  have newest := h.last_of_rev few free hk (hrev.trans still)
  obtain ⟨older, last, hist, _, ts, val, _⟩ := h.free_memory free
  obtain rfl := eq_last hist hk newest
  obtain ⟨hbuf, hts⟩ := same newest free
  rw [ts, val]
  exact ⟨hts, hbuf⟩

/-- Every step of a thread keeps the invariant. -/
theorem advance (h : Inv first m) {m' : Machine} (step : m.advance i = some m') : Inv first m' := by
  have reads := h.reads i
  unfold Machine.advance at step
  split at step
  case h_1 => cases step
  case h_2 data now thread =>
    obtain rfl := Option.some.inj step
    rw [thread] at reads
    by_cases busy : m.word < 0
    · rw [if_pos busy, lockedWord, if_pos busy]
      exact h.set (by rw [thread]; exact id) id reads
    · rw [if_neg busy]
      exact h.lock thread (by omega)
  case h_3 old goal data now k thread =>
    have holds : (m.threads i).Holds := by
      rw [thread]
      trivial
    split at step
    · rename_i more
      obtain rfl := Option.some.inj step
      refine h.hold holds rfl (List.length_set ..) rfl rfl rfl trivial ?_
      intro last holding
      rw [thread] at holding
      obtain ⟨hold, hgoal, size, _, val⟩ := holding
      refine ⟨hold, hgoal, size, more, ?_⟩
      rw [val]
      exact set_poke_take size more
    · rename_i all
      obtain rfl := Option.some.inj step
      refine h.hold holds rfl rfl rfl rfl rfl trivial ?_
      intro last holding
      rw [thread] at holding
      obtain ⟨hold, hgoal, size, hk, val⟩ := holding
      refine ⟨hold, hgoal, size, ?_, rfl⟩
      rw [hgoal, val, List.take_of_length_le (by omega)]
  case h_4 old goal data now thread =>
    obtain rfl := Option.some.inj step
    exact h.unlock thread
  case h_5 size thread =>
    obtain rfl := Option.some.inj step
    rw [thread] at reads
    refine h.set (by rw [thread]; exact id) ?_ ?_
    · split <;> exact id
    · split
      · exact reads
      · rename_i free
        obtain ⟨older, last, hist, word, _⟩ := h.free_memory (by omega)
        exact ⟨reads, older.length, last, by simp [hist], word.symm, fun _ _ => by simp⟩
  case h_6 rev size buf thread =>
    obtain rfl := Option.some.inj step
    refine h.set (by rw [thread]; exact id) ?_ ?_
    · split <;> exact id
    · split
      · rename_i more
        exact h.copy thread more
      · exact h.copied thread
  case h_7 rev size buf ts thread =>
    split at step
    · rename_i still
      obtain rfl := Option.some.inj step
      refine h.move (by rw [thread]; exact id) id trivial fun few a ha => ?_
      rcases List.mem_append.mp ha with ha | ha
      · exact h.whole few a ha
      · obtain rfl := List.mem_singleton.mp ha
        exact h.accept thread still few
    · obtain rfl := Option.some.inj step
      rw [thread] at reads
      exact h.set (by rw [thread]; exact id) id reads.1

theorem next (h : Inv first m) {ch : Choice} {m' : Machine} (step : Machine.next ch m = some m') :
    Inv first m' := by
  cases ch with
  | write j data now =>
    simp only [Machine.next] at step
    split at step
    · rename_i thread
      split at step
      · rename_i size
        obtain rfl := Option.some.inj step
        exact h.set (by rw [thread]; exact id) id size
      · cases step
    · cases step
  | read j size =>
    simp only [Machine.next] at step
    split at step
    · rename_i thread
      split at step
      · rename_i fits
        obtain rfl := Option.some.inj step
        exact h.set (by rw [thread]; exact id) id fits
      · cases step
    · cases step
  | step j => exact h.advance step
  | giveUp j =>
    simp only [Machine.next] at step
    split at step
    · rename_i thread
      obtain rfl := Option.some.inj step
      exact h.set (by rw [thread]; exact id) id trivial
    · rename_i thread
      obtain rfl := Option.some.inj step
      exact h.set (by rw [thread]; exact id) id trivial
    · cases step

theorem run (h : Inv first m) {chs : List Choice} {m' : Machine}
    (steps : Machine.run chs m = some m') : Inv first m' := by
  induction chs generalizing m with
  | nil =>
    obtain rfl := Option.some.inj steps
    exact h
  | cons ch rest ih =>
    obtain ⟨m₁, hstep, hrest⟩ := Option.bind_eq_some_iff.mp steps
    exact ih (h.next hstep) hrest

theorem init {start : Triple} (low : 0 ≤ start.rev) (high : start.rev < 9223372036854775808) :
    Inv start.rev (Machine.init start) := by
  refine ⟨?_, ?_, ⟨[], start, rfl, .free rfl rfl rfl fun _ => id⟩, fun _ => trivial, ?_⟩
  · intro k c hk
    cases k with
    | zero =>
      obtain rfl := Option.some.inj hk
      omega
    | succ k => simp [Machine.init] at hk
  · intro c hc
    obtain rfl := List.mem_singleton.mp hc
    rfl
  · intro _ a ha
    simp [Machine.init] at ha

end Inv

/-- In every interleaving with fewer than 2^63 commits at most one writer is between lock
and unlock, and what a reader accepts is what one commit left: its revision, its timestamp
and as many bytes of its value as were copied. -/
theorem reads_never_torn {start : Triple} (low : 0 ≤ start.rev)
    (high : start.rev < 9223372036854775808) {chs : List Choice} {m : Machine}
    (run : Machine.run chs (Machine.init start) = some m)
    (few : m.history.length - 1 < 9223372036854775808) :
    (∀ i j, (m.threads i).Holds → (m.threads j).Holds → i = j) ∧
    (∀ a ∈ m.accepted, ∃ c ∈ m.history, c.rev = a.rev ∧ c.ts = a.ts ∧
      a.val = c.val.take a.val.length ∧ (a.val.length = m.val.length → a = c)) := by
  have h := (Inv.init low high).run run
  constructor
  · intro i j hi hj
    obtain ⟨_, _, _, _, _, only⟩ := h.held_memory hi
    exact (only j hj).symm
  · intro a ha
    obtain ⟨c, hc, rev, ts, val⟩ := h.whole (by simp only [span]; omega) a ha
    refine ⟨c, hc, rev, ts, val, fun full => ?_⟩
    have all : a.val = c.val := by
      rw [val, full, ← h.lens c hc, List.take_length]
    cases a
    cases c
    simp_all

/-- Thread 0 reads while thread 1 writes: the first copy is thrown away. -/
def overtaken : List Choice :=
  [.read 0 2, .step 0, .step 0,
   .write 1 [7, 8] 5, .step 1, .step 1, .step 1, .step 1,
   .step 0, .step 0, .step 1, .step 0,
   .step 0, .step 0, .step 0, .step 0, .step 0]

theorem reads_never_torn_overtaken :
    ∃ m, Machine.run overtaken (Machine.init ⟨3, 0, [1, 2]⟩) = some m ∧
      m.accepted = [⟨4, 5, [7, 8]⟩] ∧
      ∀ a ∈ m.accepted, ∃ c ∈ m.history, c.rev = a.rev ∧ c.ts = a.ts ∧
        a.val = c.val.take a.val.length ∧ (a.val.length = m.val.length → a = c) := by
  have ends : (Machine.run overtaken (Machine.init ⟨3, 0, [1, 2]⟩)).any
      (fun m => m.accepted = [⟨4, 5, [7, 8]⟩] ∧ m.history.length = 2) = true := by
    decide +kernel
  obtain ⟨m, run, last⟩ := Option.any_eq_true _ _ |>.mp ends
  obtain ⟨accepted, two⟩ := of_decide_eq_true last
  exact ⟨m, run, accepted,
    (reads_never_torn (by decide) (by decide) run (by rw [two]; decide)).2⟩

end VersionedLock

end Lancaster
