import Lancaster.Base.Atomic
import Lancaster.Storage

/-!
# The test reader beside the test writer

The writer counts: its `n`-th update stores `n` in a record and puts the record's identifier into
the change queue. As the queue begins at zero as well, position `n` of the queue belongs to update
`n`. A reader follows the queue and complains (`DATA_SKIPPED`) if a record that it finds at position
`qi` holds less than `qi`. Writer and readers are interleaved at single steps, and the writer may be
any number of rounds ahead.

`log` remembers which record each update is of, and `seen` what a reader has read: the position, the
identifier found there, and the number found in the record.
-/

namespace Lancaster

open Storage

namespace ReaderWriter

/-- Where the writer is in `update`. -/
inductive WriterAt where
  | idle
  | locked (id : Int) (n : Nat) (rev : Int)
  | stored (id : Int) (n : Nat) (rev : Int)
  | unlocked (id : Int)
  | slotted
  | ended
  deriving DecidableEq

/-- Where a reader is in its loop, or in `update`. -/
inductive ReaderAt where
  | opening
  | poll
  | scan (q head : Nat)
  | fetched (q head : Nat) (id : Int)
  | locked (q head : Nat) (id rev : Int)
  | copied (q head : Nat) (id rev : Int) (xyz : Nat)
  | checks
  | ended (st : Int)
  deriving DecidableEq

structure Reader where
  place : ReaderAt
  oldHead : Nat
  updated : Bool
  skipped : Bool
  overrun : Bool
  seen : List (Nat × Int × Nat)

structure Machine where
  rev : Int → Int
  xyz : Int → Nat
  qHead : Nat
  changeQ : Nat → Int
  count : Nat
  writer : WriterAt
  log : Nat → Int
  readers : Nat → Reader

/-- The capacity of the queue, the number of records, and whether a reader has `-Q`. -/
structure Config where
  cap : Nat
  maxId : Int
  ignoreOverrun : Nat → Bool

inductive Choice where
  | begin (id : Int)
  | write
  | finish
  | read (i : Nat)
  | display (i : Nat)
  | leave (i : Nat) (st : Failure)
  deriving DecidableEq

def Reader.start : Reader := ⟨.opening, 0, false, false, false, []⟩

namespace Machine

/-- After the writer's `storage_reset`. -/
def init : Machine where
  rev := fun _ => 0
  xyz := fun _ => 0
  qHead := 0
  changeQ := fun _ => 0
  count := 0
  writer := .idle
  log := fun _ => 0
  readers := fun _ => .start

def setReader (m : Machine) (i : Nat) (r : Reader) : Machine :=
  { m with readers := Function.update m.readers i r }

/-- One step of `update` in the writer, once it has the lock. -/
def advanceWriter (c : Config) (m : Machine) : Option Machine :=
  match m.writer with
  | .idle | .ended => none
  | .locked id n rev => some { m with
      xyz := Function.update m.xyz id n, writer := .stored id n rev }
  | .stored id _ rev => some { m with
      rev := Function.update m.rev id (nextRev rev), writer := .unlocked id }
  | .unlocked id =>
    if c.cap = 0 then some { m with writer := .idle }
    else some { m with
      changeQ := Function.update m.changeQ (slot c.cap m.qHead) id, writer := .slotted }
  | .slotted => some { m with qHead := m.qHead + 1, writer := .idle }

/-- What a reader does next. The lock word is only looked at, and the record is read once more if
the word has changed meanwhile. -/
def advanceReader (c : Config) (m : Machine) (i : Nat) (r : Reader) : Option Reader :=
  match r.place with
  | .opening => some { r with place := .poll, oldHead := m.qHead }
  | .poll =>
    if m.qHead = r.oldHead then some { r with place := .checks }
    else if m.qHead - r.oldHead > c.cap then
      if c.ignoreOverrun i then
        some { r with
          place := .scan (m.qHead - c.cap) m.qHead, oldHead := m.qHead - c.cap, overrun := true }
      else some { r with place := .ended Status.changeQueueOverrun }
    else some { r with place := .scan r.oldHead m.qHead }
  | .scan q head =>
    if q < head then
      if c.cap = 0 then some { r with place := .ended Status.noChangeQueue }
      else some { r with place := .fetched q head (m.changeQ (slot c.cap q)) }
    else some { r with place := .checks, oldHead := head }
  | .fetched q head id =>
    if 0 ≤ id ∧ id < c.maxId then
      some { r with place := if m.rev id < 0 then .fetched q head id else .locked q head id (m.rev id) }
    else some { r with place := .ended Status.invalidRecord }
  | .locked q head id rev => some { r with place := .copied q head id rev (m.xyz id) }
  | .copied q head id rev xyz =>
    if rev = m.rev id then
      some { r with
        place := .scan (q + 1) head
        updated := true
        skipped := r.skipped || decide (xyz < q)
        seen := r.seen ++ [(q, id, xyz)] }
    else some { r with place := .fetched q head id }
  | .checks => some { r with place := .poll }
  | .ended _ => none

/-- The writer begins an update, which counts it, or makes a step of it; a reader makes a step,
shows its events and forgets them, or ends because of a failure, a signal, or one of its checks. -/
def next (c : Config) : Choice → Machine → Option Machine
  | .begin id, m =>
    if m.writer = .idle ∧ 0 ≤ id ∧ id < c.maxId ∧ 0 ≤ m.rev id then
      some { m with
        rev := Function.update m.rev id (lockedWord (m.rev id))
        writer := .locked id m.count (m.rev id)
        count := m.count + 1
        log := Function.update m.log m.count id }
    else none
  | .write, m => m.advanceWriter c
  | .finish, m => if m.writer = .idle then some { m with writer := .ended } else none
  | .read i, m => (m.advanceReader c i (m.readers i)).map (m.setReader i)
  | .display i, m =>
    if (m.readers i).place = .checks then
      some (m.setReader i { m.readers i with updated := false, skipped := false, overrun := false })
    else none
  | .leave i st, m => some (m.setReader i { m.readers i with place := .ended st })

abbrev run (c : Config) (chs : List Choice) (m : Machine) : Option Machine :=
  Atomic.perform (next c) chs m

end Machine

/-! ## The invariant -/

/-- The queue positions that have been written, one that is not announced included. -/
def Machine.written (m : Machine) : Nat :=
  match m.writer with
  | .slotted => m.qHead + 1
  | _ => m.qHead

theorem Machine.head_le_written (m : Machine) : m.qHead ≤ m.written := by
  unfold Machine.written
  split <;> omega

/-- The update that the writer is in is the one for the next position. -/
def Counts (m : Machine) : WriterAt → Prop
  | .idle | .ended => m.count = m.qHead
  | .locked id n _ => m.count = m.qHead + 1 ∧ n = m.qHead ∧ m.log m.qHead = id
  | .stored id n _ => m.count = m.qHead + 1 ∧ n = m.qHead ∧ m.log m.qHead = id ∧ m.xyz id = n
  | .unlocked id => m.count = m.qHead + 1 ∧ m.log m.qHead = id ∧ m.xyz id = m.qHead
  | .slotted => m.count = m.qHead + 1

/-- `xyz` is the number of an update of record `id`, of one from `p` on. -/
def FromUpdate (m : Machine) (p : Nat) (id : Int) (xyz : Nat) : Prop :=
  p ≤ xyz ∧ xyz < m.count ∧ m.log xyz = id

/-- The storage holds what the writer has queued: each record has the number of its last update or
of the one under way, and each slot what was last put there. -/
structure Stored (c : Config) (m : Machine) : Prop where
  counts : c.cap ≠ 0 → Counts m m.writer
  queueless : c.cap = 0 → m.written = 0
  records : ∀ p < m.written, FromUpdate m p (m.log p) (m.xyz (m.log p))
  ring : ∀ q < m.written, ∃ p, q ≤ p ∧ p < m.written ∧ m.changeQ (slot c.cap q) = m.log p

def ReaderAt.next (oldHead : Nat) : ReaderAt → Option Nat
  | .opening | .ended _ => none
  | .poll | .checks => some oldHead
  | .scan q _ | .fetched q _ _ | .locked q _ _ _ | .copied q _ _ _ _ => some q

def Queued (m : Machine) (q : Nat) (id : Int) : Prop := ∃ p, q ≤ p ∧ p < m.written ∧ m.log p = id

def Holds (m : Machine) : ReaderAt → Prop
  | .scan q head => q ≤ head ∧ head ≤ m.qHead
  | .fetched q head id => q < head ∧ head ≤ m.qHead ∧ Queued m q id
  | .locked q head id _ => q < head ∧ head ≤ m.qHead ∧ Queued m q id
  | .copied q head id _ xyz => q < head ∧ head ≤ m.qHead ∧ Queued m q id ∧ FromUpdate m q id xyz
  | _ => True

structure Follows (m : Machine) (ignoreOverrun : Bool) (r : Reader) : Prop where
  old : r.oldHead ≤ m.qHead
  holds : Holds m r.place
  fresh : r.place = .opening → r.seen = []
  unskipped : r.skipped = false
  seen : ∀ s ∈ r.seen, FromUpdate m s.1 s.2.1 s.2.2
  ascending : (r.seen.map Prod.fst).Pairwise (· < ·)
  before : ∀ q, r.place.next r.oldHead = some q → ∀ s ∈ r.seen, s.1 < q
  whole : ignoreOverrun = false → ∃ first, r.seen.map Prod.fst = List.range' first r.seen.length ∧
    ∀ q, r.place.next r.oldHead = some q → q = first + r.seen.length

structure Inv (c : Config) (m : Machine) : Prop where
  stored : Stored c m
  follows : ∀ i, Follows m (c.ignoreOverrun i) (m.readers i)

structure Grows (m m' : Machine) : Prop where
  head : m.qHead ≤ m'.qHead
  written : m.written ≤ m'.written
  count : m.count ≤ m'.count
  log : ∀ p < m.count, m'.log p = m.log p

section Runs

variable {c : Config} {m m' : Machine}

theorem FromUpdate.grows {p : Nat} {id : Int} {xyz : Nat} (h : FromUpdate m p id xyz)
    (grows : Grows m m') : FromUpdate m' p id xyz := by
  obtain ⟨low, high, here⟩ := h
  exact ⟨low, Nat.lt_of_lt_of_le high grows.count, (grows.log xyz high).trans here⟩

/-- Queued positions are counted. -/
theorem Stored.counted (h : Stored c m) : m.written ≤ m.count := by
  by_cases unqueued : c.cap = 0
  · rw [h.queueless unqueued]
    exact Nat.zero_le _
  · have counts := h.counts unqueued
    unfold Machine.written
    cases writer : m.writer <;> rw [writer] at counts <;> simp only [Counts] at counts ⊢ <;> omega

theorem Holds.grows {p : ReaderAt} (h : Holds m p) (counted : m.written ≤ m.count)
    (grows : Grows m m') : Holds m' p := by
  have queued : ∀ {q : Nat} {id : Int}, Queued m q id → Queued m' q id := by
    rintro q id ⟨p, low, high, here⟩
    refine ⟨p, low, Nat.lt_of_lt_of_le high grows.written, ?_⟩
    rw [grows.log p (Nat.lt_of_lt_of_le high counted)]
    exact here
  cases p with
  | scan q head => exact ⟨h.1, h.2.trans grows.head⟩
  | fetched q head id => exact ⟨h.1, h.2.1.trans grows.head, queued h.2.2⟩
  | locked q head id rev => exact ⟨h.1, h.2.1.trans grows.head, queued h.2.2⟩
  | copied q head id rev xyz =>
    exact ⟨h.1, h.2.1.trans grows.head, queued h.2.2.1, h.2.2.2.grows grows⟩
  | _ => trivial

theorem Follows.grows {b : Bool} {r : Reader} (h : Follows m b r) (counted : m.written ≤ m.count)
    (grows : Grows m m') : Follows m' b r :=
  { h with
    old := h.old.trans grows.head
    holds := h.holds.grows counted grows
    seen := fun s mem => (h.seen s mem).grows grows }

/-! ## The writer -/

/-- A step that neither stores nor queues anything. -/
theorem Stored.kept (h : Stored c m) (m' : Machine) (counts : c.cap ≠ 0 → Counts m' m'.writer)
    (written : m'.written = m.written) (head : m.qHead ≤ m'.qHead) (xyz : m'.xyz = m.xyz)
    (changeQ : m'.changeQ = m.changeQ) (count : m.count ≤ m'.count)
    (log : ∀ p < m.count, m'.log p = m.log p) : Stored c m' ∧ Grows m m' := by
  have grows : Grows m m' := ⟨head, written.ge, count, log⟩
  have same : ∀ p < m.written, m'.log p = m.log p :=
    fun p below => log p (Nat.lt_of_lt_of_le below h.counted)
  refine ⟨⟨counts, fun unqueued => written.trans (h.queueless unqueued), ?_, ?_⟩, grows⟩
  · intro p below
    rw [written] at below
    rw [same p below, xyz]
    exact (h.records p below).grows grows
  · intro q below
    rw [written] at below
    obtain ⟨p, low, high, here⟩ := h.ring q below
    refine ⟨p, low, by rw [written]; exact high, ?_⟩
    rw [changeQ, same p high]
    exact here

/-- The writer makes a step of an update. -/
theorem Stored.advance (h : Stored c m) (step : m.advanceWriter c = some m') :
    Stored c m' ∧ Grows m m' ∧ m'.readers = m.readers := by
  have counts := h.counts
  have queueless := h.queueless
  cases stands : m.writer with
  | idle => simp [Machine.advanceWriter, stands] at step
  | ended => simp [Machine.advanceWriter, stands] at step
  | locked id n rev =>
    simp only [Machine.advanceWriter, stands] at step
    obtain rfl := Option.some.inj step
    simp only [stands, Counts, Machine.written] at counts queueless
    have written : m.written = m.qHead := by simp [Machine.written, stands]
    have grows : Grows m { m with
        xyz := Function.update m.xyz id n, writer := .stored id n rev } :=
      ⟨le_refl _, by simp [Machine.written, stands], le_refl _, fun _ _ => rfl⟩
    refine ⟨⟨?_, fun unqueued => queueless unqueued, ?_, ?_⟩, grows, rfl⟩
    · intro queue
      obtain ⟨count, number, here⟩ := counts queue
      exact ⟨count, number, here, Function.update_self ..⟩
    · intro p below
      have below : p < m.qHead := below
      have queue : c.cap ≠ 0 := by
        intro unqueued
        rw [queueless unqueued] at below
        exact Nat.not_lt_zero _ below
      obtain ⟨count, number, here⟩ := counts queue
      show FromUpdate _ p (m.log p) (Function.update m.xyz id n (m.log p))
      by_cases same : m.log p = id
      · rw [same, Function.update_self]
        exact ⟨by omega, by show n < m.count; omega, by show m.log n = id; rw [number, here]⟩
      · rw [Function.update_of_ne same]
        exact (h.records p (by rw [written]; exact below)).grows grows
    · intro q below
      have ring := h.ring q (by rw [written]; exact below)
      rw [written] at ring
      exact ring
  | stored id n rev =>
    simp only [Machine.advanceWriter, stands] at step
    obtain rfl := Option.some.inj step
    simp only [stands, Counts] at counts
    have kept := h.kept
      { m with rev := Function.update m.rev id (nextRev rev), writer := .unlocked id }
      ?_ (by simp [Machine.written, stands]) (le_refl _) rfl rfl (le_refl _) fun _ _ => rfl
    · exact ⟨kept.1, kept.2, rfl⟩
    · intro queue
      obtain ⟨count, rfl, here, number⟩ := counts queue
      exact ⟨count, here, number⟩
  | unlocked id =>
    simp only [Machine.advanceWriter, stands] at step
    simp only [stands, Counts, Machine.written] at counts queueless
    have written : m.written = m.qHead := by simp [Machine.written, stands]
    split at step
    · rename_i unqueued
      obtain rfl := Option.some.inj step
      have kept := h.kept { m with writer := .idle } (fun queue => absurd unqueued queue)
        (by simp [Machine.written, stands]) (le_refl _) rfl rfl (le_refl _) fun _ _ => rfl
      exact ⟨kept.1, kept.2, rfl⟩
    · rename_i queue
      obtain rfl := Option.some.inj step
      obtain ⟨count, here, number⟩ := counts queue
      have grows : Grows m { m with
          changeQ := Function.update m.changeQ (slot c.cap m.qHead) id, writer := .slotted } :=
        ⟨le_refl _, by simp [Machine.written, stands], le_refl _, fun _ _ => rfl⟩
      refine ⟨⟨fun _ => count, fun unqueued => absurd unqueued queue, ?_, ?_⟩, grows, rfl⟩
      · intro p below
        rcases Nat.lt_succ_iff_lt_or_eq.mp below with below | rfl
        · exact (h.records p (by rw [written]; exact below)).grows grows
        · show FromUpdate _ m.qHead (m.log m.qHead) (m.xyz (m.log m.qHead))
          rw [here, number]
          exact ⟨le_refl _, by show m.qHead < m.count; omega, here⟩
      · intro q below
        show ∃ p, q ≤ p ∧ p < m.qHead + 1 ∧
          Function.update m.changeQ (slot c.cap m.qHead) id (slot c.cap q) = m.log p
        by_cases same : slot c.cap q = slot c.cap m.qHead
        · refine ⟨m.qHead, Nat.lt_succ_iff.mp below, Nat.lt_succ_self _, ?_⟩
          rw [same, Function.update_self, here]
        · have below : q < m.qHead := by
            rcases Nat.lt_succ_iff_lt_or_eq.mp below with below | rfl
            · exact below
            · exact absurd rfl same
          obtain ⟨p, low, high, here⟩ := h.ring q (by rw [written]; exact below)
          rw [written] at high
          refine ⟨p, low, by omega, ?_⟩
          rw [Function.update_of_ne same]
          exact here
  | slotted =>
    simp only [Machine.advanceWriter, stands] at step
    obtain rfl := Option.some.inj step
    simp only [stands, Counts] at counts
    have kept := h.kept { m with qHead := m.qHead + 1, writer := .idle }
      (fun queue => counts queue) (by simp [Machine.written, stands]) (Nat.le_succ _) rfl rfl (le_refl _)
      fun _ _ => rfl
    exact ⟨kept.1, kept.2, rfl⟩

theorem Stored.begin (h : Stored c m) (id : Int) (idle : m.writer = .idle) (rev : Int → Int) :
    Stored c { m with
        rev := rev
        writer := .locked id m.count (m.rev id)
        count := m.count + 1
        log := Function.update m.log m.count id } ∧
      Grows m { m with
        rev := rev
        writer := .locked id m.count (m.rev id)
        count := m.count + 1
        log := Function.update m.log m.count id } := by
  refine h.kept _ ?_ (by simp [Machine.written, idle]) (le_refl _) rfl rfl (Nat.le_succ _)
    fun p below => Function.update_of_ne (Nat.ne_of_lt below) ..
  intro queue
  have counts := h.counts queue
  rw [idle] at counts
  have count : m.count = m.qHead := counts
  refine ⟨by show m.count + 1 = _; rw [count], count, ?_⟩
  show Function.update m.log m.count id m.qHead = id
  rw [count, Function.update_self]

/-! ## A reader -/

namespace Follows

variable {i : Nat} {r r' : Reader}

/-- A reader that ends has seen what it has seen. -/
theorem ended {ignores : Bool} (h : Follows m ignores r) (st : Int) :
    Follows m ignores { r with place := .ended st } := by
  refine ⟨h.old, trivial, by simp, h.unskipped, h.seen, h.ascending, by simp [ReaderAt.next], ?_⟩
  intro strict
  obtain ⟨first, range, _⟩ := h.whole strict
  exact ⟨first, range, by simp [ReaderAt.next]⟩

/-- What is read next is the same. -/
theorem stays {ignores : Bool} (h : Follows m ignores r) {p : ReaderAt} (there : p ≠ .opening)
    (same : p.next r.oldHead = r.place.next r.oldHead) (holds : Holds m p) :
    Follows m ignores { r with place := p } := by
  refine ⟨h.old, holds, fun opening => absurd opening there, h.unskipped, h.seen,
    h.ascending, ?_, ?_⟩
  · rw [same]
    exact h.before
  · rw [same]
    exact h.whole

/-- The head is looked at: there is nothing new, or the reader goes on from where it was, or it has
been lapped. -/
theorem polls (h : Follows m (c.ignoreOverrun i) r) (place : r.place = .poll)
    (step : m.advanceReader c i r = some r') : Follows m (c.ignoreOverrun i) r' := by
  simp only [Machine.advanceReader, place] at step
  split at step
  · obtain rfl := Option.some.inj step
    exact h.stays (by simp) (by rw [place]; rfl) trivial
  · split at step
    · rename_i far
      split at step
      · rename_i ignores
        obtain rfl := Option.some.inj step
        refine ⟨Nat.sub_le .., ⟨Nat.sub_le .., le_refl _⟩, by simp, h.unskipped, h.seen, h.ascending,
          ?_, ?_⟩
        · intro q next s among
          obtain rfl : m.qHead - c.cap = q := by simpa [ReaderAt.next] using next
          have before := h.before
          rw [place] at before
          have early := before r.oldHead rfl s among
          omega
        · intro strict
          rw [strict] at ignores
          cases ignores
      · obtain rfl := Option.some.inj step
        exact h.ended _
    · obtain rfl := Option.some.inj step
      exact h.stays (p := .scan r.oldHead m.qHead) (by simp) (by rw [place]; rfl) ⟨h.old, le_refl _⟩

/-- An entry is read, or the scan is over. -/
theorem scans (h : Follows m (c.ignoreOverrun i) r) (stored : Stored c m) {q head : Nat}
    (place : r.place = .scan q head) (step : m.advanceReader c i r = some r') :
    Follows m (c.ignoreOverrun i) r' := by
  simp only [Machine.advanceReader, place] at step
  have holds := h.holds
  have before := h.before
  have whole := h.whole
  rw [place] at holds before whole
  obtain ⟨low, high⟩ := holds
  split at step
  · rename_i below
    split at step
    · obtain rfl := Option.some.inj step
      exact h.ended _
    · obtain rfl := Option.some.inj step
      refine h.stays (p := .fetched q head _) (by simp) (by rw [place]; rfl) ⟨below, high, ?_⟩
      obtain ⟨p, low, high, here⟩ := stored.ring q
        (Nat.lt_of_lt_of_le (Nat.lt_of_lt_of_le below high) m.head_le_written)
      exact ⟨p, low, high, here.symm⟩
  · rename_i past
    obtain rfl := Option.some.inj step
    obtain rfl : q = head := by omega
    exact ⟨high, trivial, by simp, h.unskipped, h.seen, h.ascending, before, whole⟩

/-- The update is seen, unless the record has been locked or written since. -/
theorem takes (h : Follows m (c.ignoreOverrun i) r) {q head : Nat} {id rev : Int} {xyz : Nat}
    (place : r.place = .copied q head id rev xyz) (step : m.advanceReader c i r = some r') :
    Follows m (c.ignoreOverrun i) r' := by
  simp only [Machine.advanceReader, place] at step
  have holds := h.holds
  have before := h.before
  have whole := h.whole
  rw [place] at holds before whole
  obtain ⟨below, high, queued, update⟩ := holds
  split at step
  · obtain rfl := Option.some.inj step
    refine ⟨h.old, ⟨below, high⟩, by simp, ?_, ?_, ?_, ?_, ?_⟩
    · simpa [h.unskipped] using update.1
    · exact List.forall_mem_append.mpr ⟨h.seen, List.forall_mem_singleton.mpr update⟩
    · rw [List.map_append, List.pairwise_append]
      refine ⟨h.ascending, List.pairwise_singleton _ _, ?_⟩
      intro a earlier b last
      obtain ⟨s, among, rfl⟩ := List.mem_map.mp earlier
      rw [List.mem_singleton.mp last]
      exact before q rfl s among
    · intro p next
      obtain rfl : q + 1 = p := by simpa [ReaderAt.next] using next
      refine List.forall_mem_append.mpr ⟨fun s among => ?_, by simp⟩
      exact Nat.lt_succ_of_lt (before q rfl s among)
    · intro strict
      obtain ⟨first, range, next⟩ := whole strict
      have here := next q rfl
      refine ⟨first, ?_, ?_⟩
      · rw [List.map_append, range, List.length_append, List.length_singleton,
          List.range'_1_concat, here]
        rfl
      · intro p next
        obtain rfl : q + 1 = p := by simpa [ReaderAt.next] using next
        rw [here, List.length_append, List.length_singleton]
        omega
  · obtain rfl := Option.some.inj step
    exact h.stays (by simp) (by rw [place]; rfl) ⟨below, high, queued⟩

/-- A reader makes a step. -/
theorem advance (h : Follows m (c.ignoreOverrun i) r) (stored : Stored c m)
    (step : m.advanceReader c i r = some r') : Follows m (c.ignoreOverrun i) r' := by
  have holds := h.holds
  cases place : r.place with
  | opening =>
    simp only [Machine.advanceReader, place] at step
    obtain rfl := Option.some.inj step
    have nothing := h.fresh place
    refine ⟨le_refl _, trivial, by simp, h.unskipped, h.seen, h.ascending, by simp [nothing], fun _ => ?_⟩
    exact ⟨m.qHead, by simp [nothing], by simp [nothing, ReaderAt.next]⟩
  | poll => exact h.polls place step
  | scan q head => exact h.scans stored place step
  | fetched q head id =>
    simp only [Machine.advanceReader, place] at step
    rw [place] at holds
    split at step
    · obtain rfl := Option.some.inj step
      split
      · exact h.stays (by simp) (by rw [place]) holds
      · exact h.stays (by simp) (by rw [place]; rfl) holds
    · obtain rfl := Option.some.inj step
      exact h.ended _
  | locked q head id rev =>
    simp only [Machine.advanceReader, place] at step
    rw [place] at holds
    obtain rfl := Option.some.inj step
    obtain ⟨below, high, p, low, queued, here⟩ := holds
    refine h.stays (p := .copied q head id rev (m.xyz id)) (by simp) (by rw [place]; rfl)
      ⟨below, high, ⟨p, low, queued, here⟩, ?_⟩
    obtain ⟨later, counted, log⟩ := stored.records p queued
    rw [here] at later counted log
    exact ⟨low.trans later, counted, log⟩
  | copied q head id rev xyz => exact h.takes place step
  | checks =>
    simp only [Machine.advanceReader, place] at step
    obtain rfl := Option.some.inj step
    exact h.stays (by simp) (by rw [place]; rfl) trivial
  | ended st => simp [Machine.advanceReader, place] at step

end Follows

/-! ## Runs -/

theorem Inv.start : Inv c .init where
  stored := by
    refine ⟨fun _ => rfl, fun _ => rfl, ?_, ?_⟩
    · exact fun p below => absurd below (Nat.not_lt_zero p)
    · exact fun q below => absurd below (Nat.not_lt_zero q)
  follows := by
    intro i
    refine ⟨le_refl _, trivial, fun _ => rfl, rfl, List.forall_mem_nil _, List.Pairwise.nil, ?_, ?_⟩
    · simp [Machine.init, Reader.start]
    · exact fun _ => ⟨0, rfl, by simp [Machine.init, Reader.start, ReaderAt.next]⟩

theorem Inv.setReader (h : Inv c m) {i : Nat} {r : Reader}
    (follows : Follows m (c.ignoreOverrun i) r) : Inv c (m.setReader i r) := by
  have counts : ∀ p, Counts m p → Counts (m.setReader i r) p := by
    intro p here
    cases p <;> exact here
  obtain ⟨stored, grows⟩ := h.stored.kept (m.setReader i r)
    (fun queue => counts _ (h.stored.counts queue)) rfl (le_refl _) rfl rfl (le_refl _) fun _ _ => rfl
  refine ⟨stored, fun j => ?_⟩
  refine Follows.grows ?_ h.stored.counted grows
  show Follows m (c.ignoreOverrun j) (Function.update m.readers i r j)
  by_cases same : j = i
  · subst same
    rw [Function.update_self]
    exact follows
  · rw [Function.update_of_ne same]
    exact h.follows j

theorem Inv.next (h : Inv c m) {ch : Choice} (step : m.next c ch = some m') : Inv c m' := by
  have counted := h.stored.counted
  cases ch with
  | begin id =>
    obtain ⟨⟨idle, _⟩, ⟨⟩⟩ := Option.ite_none_right_eq_some.mp step
    obtain ⟨stored, grows⟩ :=
      h.stored.begin id idle (Function.update m.rev id (lockedWord (m.rev id)))
    exact ⟨stored, fun i => (h.follows i).grows counted grows⟩
  | write =>
    obtain ⟨stored, grows, same⟩ := h.stored.advance step
    refine ⟨stored, fun i => ?_⟩
    rw [same]
    exact (h.follows i).grows counted grows
  | finish =>
    obtain ⟨idle, ⟨⟩⟩ := Option.ite_none_right_eq_some.mp step
    obtain ⟨stored, grows⟩ := h.stored.kept { m with writer := .ended }
      (fun queue => by simpa [idle, Counts] using h.stored.counts queue)
      (by simp [Machine.written, idle]) (le_refl _) rfl rfl (le_refl _) fun _ _ => rfl
    exact ⟨stored, fun i => (h.follows i).grows counted grows⟩
  | read i =>
    obtain ⟨r, made, rfl⟩ := Option.map_eq_some_iff.mp step
    exact h.setReader ((h.follows i).advance h.stored made)
  | display i =>
    obtain ⟨_, ⟨⟩⟩ := Option.ite_none_right_eq_some.mp step
    exact h.setReader { h.follows i with unskipped := rfl }
  | leave i st =>
    obtain rfl := Option.some.inj step
    obtain ⟨old, _, _, unskipped, seen, ascending, _, whole⟩ := h.follows i
    refine h.setReader
      ⟨old, trivial, by simp, unskipped, seen, ascending, by simp [ReaderAt.next], ?_⟩
    intro strict
    obtain ⟨first, range, _⟩ := whole strict
    exact ⟨first, range, by simp [ReaderAt.next]⟩

theorem Inv.run (h : Inv c m) {chs : List Choice} (ran : Machine.run c chs m = some m') :
    Inv c m' := by
  induction chs generalizing m with
  | nil =>
    obtain rfl := Option.some.inj ran
    exact h
  | cons ch rest ih =>
    obtain ⟨x, step, more⟩ := Option.bind_eq_some_iff.mp ran
    exact ih (h.next step) more

/-- However the writer and the readers take turns behind the writer's `storage_reset`, and however
often the writer laps a reader: no reader ever complains of a skip. What it reads for a queue
position is the number of an update of the very record that it found there, of that position or a
later one; its positions ascend, and a reader that does not ignore overruns leaves none out. -/
theorem never_skipped {chs : List Choice} (ran : Machine.run c chs .init = some m) (i : Nat) :
    (m.readers i).skipped = false ∧
      (∀ s ∈ (m.readers i).seen, s.1 ≤ s.2.2 ∧ s.2.2 < m.count ∧ m.log s.2.2 = s.2.1) ∧
      ((m.readers i).seen.map Prod.fst).Pairwise (· < ·) ∧
      (c.ignoreOverrun i = false → ∃ first,
        (m.readers i).seen.map Prod.fst = List.range' first (m.readers i).seen.length) := by
  have h := (Inv.start.run ran).follows i
  refine ⟨h.unskipped, h.seen, h.ascending, fun strict => ?_⟩
  obtain ⟨first, range, _⟩ := h.whole strict
  exact ⟨first, range⟩

/-- One update: the lock, the number, the revision, the slot and the head. -/
def updates (ids : List Int) : List Choice :=
  ids.flatMap fun id => .begin id :: List.replicate 4 .write

/-- Queue of two; the second reader ignores overruns. -/
def twoSlots : Config := ⟨2, 2, fun i => decide (i = 1)⟩

/-- Both readers open; reader 0 is lapped in the middle of its scan, reader 1 before it. -/
def lapped : List Choice :=
  [.read 0, .read 1] ++ updates [1, 0] ++ [.read 0] ++ updates [0, 1, 0] ++
    List.replicate 8 (.read 0) ++ List.replicate 9 (.read 1)

/-- For position 0 reader 0 finds record 0 with the number 4: the slot was written again. -/
theorem never_skipped_lapped : ∃ m, Machine.run twoSlots lapped .init = some m ∧
    (m.readers 0).seen = [(0, 0, 4), (1, 1, 3)] ∧ (m.readers 1).seen = [(3, 1, 3), (4, 0, 4)] ∧
    (m.readers 1).overrun = true ∧ ∀ i, (m.readers i).skipped = false := by
  have ends : (Machine.run twoSlots lapped .init).any (fun m =>
      decide ((m.readers 0).seen = [(0, 0, 4), (1, 1, 3)] ∧
        (m.readers 1).seen = [(3, 1, 3), (4, 0, 4)] ∧ (m.readers 1).overrun = true)) = true := by
    decide +kernel
  obtain ⟨m, ran, facts⟩ := (Option.any_eq_true _ _).mp ends
  obtain ⟨first, second, overrun⟩ := of_decide_eq_true facts
  exact ⟨m, ran, first, second, overrun, fun i => (never_skipped ran i).1⟩

end Runs

end ReaderWriter

end Lancaster
