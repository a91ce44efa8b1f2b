import Lancaster.RecordAddress
import Lancaster.RecordArray
import Mathlib.Data.List.Sort

/-!
# Searches that lock

`storage_find_next_unused` and `storage_find_prev_used` go from record to record: the size of a
record is added to a pointer, or taken from it, until the pointer has left the array. A caller who
wants the old revision has each record locked before it is looked at, and unlocked again unless it
is the one.

Others may hold locks, and hold them as long as the call lasts. A pointer has 64 bits. Where a
record is larger than the address of the first one, the pointer before the array wraps to the other
end of the address space, and the search goes on outside the segment.
-/

namespace Lancaster

open Bytes

structure SearchOutcome where
  status : Int
  prec : Option Nat
  oldRev : Option Int
  bytes : File

structure MappedStorage where
  mapped : MappedShape
  bytes : File
  isReadOnly : Bool
  length_bytes : bytes.length = mapped.shape.segSz mapped.page

/-! ## The lock -/

namespace SpinLock

/-- `spin_write_lock` on the word at an offset: the old word, or a failure. Each look sets the sign
bit, and later looks find it set. The calls of `clock_sleep` are answered by `sleep`. -/
def spinWriteLock (sleep : Nat → Int) (bytes : File) (off : Nat) : Except Failure Int × File :=
  let rev := ldLong bytes off
  ((spinLoop (fun look => if look = 0 then rev else lockedWord rev) sleep 0 0 0).1,
    stLong bytes off (lockedWord rev))

def spinUnlock (bytes : File) (off : Nat) (newRev : Int) : File := stLong bytes off newRev

variable (sleep : Nat → Int) {bytes : File} {off : Nat}

/-- A free word is taken at the first look. -/
theorem spinWriteLock_free (free : 0 ≤ ldLong bytes off) :
    spinWriteLock sleep bytes off =
      (.ok (ldLong bytes off), stLong bytes off (lockedWord (ldLong bytes off))) := by
  have first := @spinLoop_free (fun look => if look = 0 then ldLong bytes off
    else lockedWord (ldLong bytes off)) sleep 0 0 0 free
  rw [spinWriteLock, first]
  rfl

/-- A word that another holds is left as it is. -/
theorem spinWriteLock_held (fits : off + 8 ≤ bytes.length) (held : ldLong bytes off < 0) :
    ∃ st, spinWriteLock sleep bytes off = (.error st, bytes) := by
  have word : lockedWord (ldLong bytes off) = ldLong bytes off := if_pos held
  simp only [spinWriteLock, word, ite_self, stLong_ldLong fits]
  obtain ⟨st, failed⟩ := @spinLoop_held (fun _ => ldLong bytes off) sleep 0 0 0 fun _ => held
  exact ⟨st, by rw [failed]⟩

/-- Where no sleep fails, a word that is held is reported as a deadlock. -/
theorem spinWriteLock_deadlock (awake : ∀ i, ¬ Status.Failed (sleep i)) {st : Failure}
    (failed : (spinWriteLock sleep bytes off).1 = .error st) :
    st.val = Status.deadlockDetected := by
  rw [spinLoop_deadlock awake failed]

end SpinLock

open SpinLock

namespace MappedShape

variable (m : MappedShape)

/-! ## The searches -/

def Reachable (rec : Nat) : Prop := m.addr ≤ rec ∧ rec + 8 ≤ m.addr + m.shape.segSz m.page

instance (rec : Nat) : Decidable (m.Reachable rec) := inferInstanceAs (Decidable (_ ∧ _))

/-- A direction: the step, the bound of the loop, and the revision that is looked for. -/
structure Course where
  step : Int
  within : Nat → Bool
  wanted : Int → Bool

/-- The loop, with a bound on its passes. Nothing is returned if it leaves the segment. -/
def search (locks : Bool) (sleep : Nat → Int) (c : Course) : Nat → Nat → File → Option SearchOutcome
  | 0, _, _ => none
  | n + 1, prior, bytes =>
    if c.within prior = false then some ⟨Status.false, none, none, bytes⟩
    else if ¬ m.Reachable prior then none
    else
      let off := prior - m.addr
      match if locks then spinWriteLock sleep bytes off else (.ok (ldLong bytes off), bytes) with
      | (.error st, bytes) => some ⟨st.val, none, none, bytes⟩
      | (.ok rev, bytes) =>
        if c.wanted rev then
          some ⟨Status.true, some prior, if locks then some rev else none, bytes⟩
        else
          search locks sleep c n (m.storageRecord prior c.step)
            (if locks then spinUnlock bytes off rev else bytes)

end MappedShape

namespace MappedStorage

variable (store : MappedStorage)

/-- What the two searches have in common. `start` is where a search without a record begins. -/
def find (c : MappedShape.Course) (start : Nat) (sleep : Nat → Int) (prior : Option Nat)
    (prec oldRev : Bool) : Option SearchOutcome :=
  let m := store.mapped
  if prec = false then some ⟨Status.invalidArg, none, none, store.bytes⟩
  else if oldRev && store.isReadOnly then some ⟨Status.storageReadOnly, none, none, store.bytes⟩
  else
    match prior with
    | some rec =>
      if rec < m.first ∨ m.limit ≤ rec then some ⟨Status.invalidArg, none, none, store.bytes⟩
      else m.search oldRev sleep c (m.shape.records + 1) (m.storageRecord rec c.step) store.bytes
    | none => m.search oldRev sleep c (m.shape.records + 1) start store.bytes

def upward : MappedShape.Course where
  step := 1
  within := fun rec => rec < store.mapped.limit
  wanted := fun rev => rev = 0

def downward : MappedShape.Course where
  step := -1
  within := fun rec => store.mapped.first ≤ rec
  wanted := fun rev => rev ≠ 0

def storageFindNextUnused : (Nat → Int) → Option Nat → Bool → Bool → Option SearchOutcome :=
  store.find store.upward store.mapped.first

def storageFindPrevUsed : (Nat → Int) → Option Nat → Bool → Bool → Option SearchOutcome :=
  store.find store.downward (store.mapped.storageRecord store.mapped.limit (-1))

end MappedStorage

/-! ## Records by their number -/

namespace MappedShape

variable (m : MappedShape)

def recordAt (k : Nat) : Nat := m.first + k * m.shape.recSz

def word (bytes : File) (k : Nat) : Int := ldLong bytes (m.recordAt k - m.addr)

theorem recordAt_zero : m.recordAt 0 = m.first := by
  rw [recordAt, Nat.zero_mul, Nat.add_zero]

theorem recordAt_records : m.recordAt m.shape.records = m.limit := m.limit_eq.symm

theorem recordAt_le {k : Nat} (below : k ≤ m.shape.records) : m.recordAt k ≤ m.limit := by
  rw [← m.recordAt_records]
  exact Nat.add_le_add_left (Nat.mul_le_mul_right _ below) _

theorem recordAt_succ (k : Nat) : m.recordAt (k + 1) = m.recordAt k + m.shape.recSz := by
  rw [recordAt, recordAt, Nat.succ_mul, Nat.add_assoc]

theorem limit_lt : m.limit < sizeLimit := by
  have inside := m.array_inside
  rw [m.limit_eq, m.first_eq]
  exact inside

theorem recordAt_lt {k : Nat} (below : k < m.shape.records) : m.recordAt k < m.limit := by
  have next := m.recordAt_le below
  have wide := m.recSz_pos
  rw [recordAt_succ] at next
  omega

theorem first_le_recordAt (k : Nat) : m.first ≤ m.recordAt k := Nat.le_add_right _ _

/-- A step of a pointer that does not wrap. -/
theorem storageRecord_small {base x : Nat} {idx : Int}
    (sum : base + idx * m.shape.recSz = (x : Int))
    (small : x < sizeLimit) : m.storageRecord base idx = x := by
  have range : (x : Int) < (sizeLimit : Int) := Int.ofNat_lt.mpr small
  rw [storageRecord, sum, Int.emod_eq_of_lt (Int.natCast_nonneg x) range, Int.toNat_natCast]

theorem storageRecord_up {k : Nat} (below : k < m.shape.records) :
    m.storageRecord (m.recordAt k) 1 = m.recordAt (k + 1) := by
  have next : m.recordAt (k + 1) ≤ m.limit := m.recordAt_le below
  have small := m.limit_lt
  apply m.storageRecord_small
  · rw [recordAt_succ]
    push_cast
    ring
  · omega

theorem storageRecord_down {k : Nat} (below : k < m.shape.records) :
    m.storageRecord (m.recordAt (k + 1)) (-1) = m.recordAt k := by
  have here := m.recordAt_lt below
  have small := m.limit_lt
  apply m.storageRecord_small
  · rw [recordAt_succ]
    push_cast
    ring
  · omega

/-- The pointer before the first record. -/
theorem storageRecord_below :
    m.storageRecord m.first (-1) =
      if m.shape.recSz ≤ m.first then m.first - m.shape.recSz
      else m.first + sizeLimit - m.shape.recSz := by
  have inside := m.array_inside
  have pos : 0 < m.shape.records := by
    have := m.accepted.1
    unfold Shape.records
    omega
  have one : m.shape.recSz ≤ m.shape.records * m.shape.recSz := Nat.le_mul_of_pos_left _ pos
  have first := m.first_eq
  unfold storageRecord
  rw [Int.neg_mul, Int.one_mul]
  unfold sizeLimit at *
  split <;> omega

/-- Records lie in the segment, and their lock words apart. -/
theorem recordAt_offset {k : Nat} (below : k < m.shape.records) :
    m.addr ≤ m.recordAt k ∧ m.recordAt k - m.addr = m.shape.hdrSz + k * m.shape.recSz ∧
      m.recordAt k - m.addr + 8 ≤ m.shape.segSz m.page := by
  have total := m.fits.total_le m.accepted
  rw [← m.shape.hdrSz_eq m.fits.trueHdrSz_lt, ← m.shape.recSz_eq (m.fits.trueRecSz_lt m.accepted),
    Nat.mul_comm] at total
  have step : (k + 1) * m.shape.recSz ≤ m.shape.records * m.shape.recSz :=
    Nat.mul_le_mul_right _ below
  rw [Nat.succ_mul] at step
  have wide : 16 ≤ m.shape.recSz := by
    rw [m.shape.recSz_eq (m.fits.trueRecSz_lt m.accepted), Shape.trueRecSz]
    omega
  rw [recordAt, m.first_eq]
  omega

theorem reachable_recordAt {k : Nat} (below : k < m.shape.records) :
    m.Reachable (m.recordAt k) := by
  obtain ⟨low, -, high⟩ := m.recordAt_offset below
  unfold Reachable
  omega

theorem word_offset {k : Nat} {bytes : File} (length : bytes.length = m.shape.segSz m.page)
    (below : k < m.shape.records) : m.recordAt k - m.addr + 8 ≤ bytes.length := by
  rw [length]
  exact (m.recordAt_offset below).2.2

/-- Another lock word is not touched. -/
theorem word_other {j k : Nat} {bytes : File} (x : Int)
    (length : bytes.length = m.shape.segSz m.page)
    (hj : j < m.shape.records) (hk : k < m.shape.records) (other : j ≠ k) :
    m.word (stLong bytes (m.recordAt k - m.addr) x) j = m.word bytes j := by
  apply ldLong_stLong_apart x (m.word_offset length hk)
  obtain ⟨-, offj, -⟩ := m.recordAt_offset hj
  obtain ⟨-, offk, -⟩ := m.recordAt_offset hk
  have wide : 8 ≤ m.shape.recSz := by
    rw [m.shape.recSz_eq (m.fits.trueRecSz_lt m.accepted), Shape.trueRecSz]
    omega
  rw [offj, offk]
  rcases Nat.lt_or_gt_of_ne other with less | more
  · have step : (j + 1) * m.shape.recSz ≤ k * m.shape.recSz := Nat.mul_le_mul_right _ less
    rw [Nat.succ_mul] at step
    omega
  · have step : (k + 1) * m.shape.recSz ≤ j * m.shape.recSz := Nat.mul_le_mul_right _ more
    rw [Nat.succ_mul] at step
    omega

theorem lockedWord_isLong {x : Int} (long : IsLong x) : IsLong (lockedWord x) := by
  obtain ⟨low, high⟩ := long
  unfold lockedWord IsLong
  split <;> omega

/-! ## The way of a search -/

variable {m} {c : Course} {bytes : File}

/-- From one pointer to another by these records, each of which is within the bound. -/
inductive Leads (m : MappedShape) (c : Course) : Nat → List Nat → Nat → Prop
  | here (p : Nat) : Leads m c p [] p
  | pass {k q : Nat} {ks : List Nat} (below : k < m.shape.records)
      (within : c.within (m.recordAt k) = true)
      (rest : Leads m c (m.storageRecord (m.recordAt k) c.step) ks q) :
        Leads m c (m.recordAt k) (k :: ks) q

/-- A record that a search goes by: nobody holds it, and it is not wanted. -/
def Passed (m : MappedShape) (wanted : Int → Bool) (bytes : File) (k : Nat) : Prop :=
  0 ≤ m.word bytes k ∧ wanted (m.word bytes k) = false

/-- One pass of the loop over a record. -/
theorem search_step (sleep : Nat → Int) (length : bytes.length = m.shape.segSz m.page) {k : Nat}
    (below : k < m.shape.records) (within : c.within (m.recordAt k) = true) (n : Nat) :
    (m.word bytes k < 0 ∧ ∃ st : Failure,
      (spinWriteLock sleep bytes (m.recordAt k - m.addr)).1 = .error st ∧
      m.search true sleep c (n + 1) (m.recordAt k) bytes = some ⟨st.val, none, none, bytes⟩) ∨
    (0 ≤ m.word bytes k ∧ c.wanted (m.word bytes k) = true ∧
      m.search true sleep c (n + 1) (m.recordAt k) bytes = some ⟨Status.true, some (m.recordAt k),
        some (m.word bytes k), stLong bytes (m.recordAt k - m.addr) (lockedWord (m.word bytes k))⟩) ∨
    (m.Passed c.wanted bytes k ∧ m.search true sleep c (n + 1) (m.recordAt k) bytes =
      m.search true sleep c n (m.storageRecord (m.recordAt k) c.step) bytes) := by
  have fits := m.word_offset length below
  have reach := m.reachable_recordAt below
  rw [search]
  simp only [within, reach, not_true_eq_false, if_false, if_true, Bool.true_eq_false]
  by_cases held : m.word bytes k < 0
  · left
    obtain ⟨st, locked⟩ := spinWriteLock_held sleep fits held
    refine ⟨held, st, ?_, ?_⟩
    · rw [locked]
    · simp only [locked]
  have free : 0 ≤ m.word bytes k := by omega
  have locked := spinWriteLock_free sleep free
  by_cases fine : c.wanted (m.word bytes k) = true
  · right; left
    refine ⟨free, fine, ?_⟩
    have fine' : c.wanted (ldLong bytes (m.recordAt k - m.addr)) = true := fine
    simp only [locked, fine', if_true]
    rfl
  · right; right
    refine ⟨⟨free, by simpa using fine⟩, ?_⟩
    have fine' : ¬ c.wanted (ldLong bytes (m.recordAt k - m.addr)) = true := fine
    simp only [locked, if_neg fine', spinUnlock, stLong_restores _ fits]

/-- Everything a search can come to on its way: it goes all of it, or ends at a record after passing
those before. -/
theorem search_leads (sleep : Nat → Int) (length : bytes.length = m.shape.segSz m.page) {p q : Nat}
    {ks : List Nat} (leads : m.Leads c p ks q) (n : Nat) :
    ((∀ k ∈ ks, m.Passed c.wanted bytes k) ∧
      m.search true sleep c (n + ks.length) p bytes = m.search true sleep c n q bytes) ∨
    ∃ before k after, ks = before ++ k :: after ∧ (∀ j ∈ before, m.Passed c.wanted bytes j) ∧
      ((m.word bytes k < 0 ∧ ∃ st : Failure,
        (spinWriteLock sleep bytes (m.recordAt k - m.addr)).1 = .error st ∧
        m.search true sleep c (n + ks.length) p bytes = some ⟨st.val, none, none, bytes⟩) ∨
       (0 ≤ m.word bytes k ∧ c.wanted (m.word bytes k) = true ∧
        m.search true sleep c (n + ks.length) p bytes = some ⟨Status.true, some (m.recordAt k),
          some (m.word bytes k), stLong bytes (m.recordAt k - m.addr) (lockedWord (m.word bytes k))⟩)) := by
  induction leads with
  | here p => exact Or.inl ⟨fun k here => absurd here List.not_mem_nil, rfl⟩
  | @pass k q ks below within rest ih =>
    have nothing : ∀ j ∈ ([] : List Nat), m.Passed c.wanted bytes j :=
      fun j here => absurd here List.not_mem_nil
    rw [List.length_cons, ← Nat.add_assoc]
    rcases search_step sleep length below within (n + ks.length) with
      held | found | ⟨passed, goesOn⟩
    · exact Or.inr ⟨[], k, ks, rfl, nothing, Or.inl held⟩
    · exact Or.inr ⟨[], k, ks, rfl, nothing, Or.inr found⟩
    · rw [goesOn]
      rcases ih with ⟨all, done⟩ | ⟨before, j, after, rfl, others, ends⟩
      · exact Or.inl ⟨List.forall_mem_cons.mpr ⟨passed, all⟩, done⟩
      · exact Or.inr ⟨k :: before, j, after, rfl, List.forall_mem_cons.mpr ⟨passed, others⟩, ends⟩

end MappedShape

namespace MappedStorage

open MappedShape

variable (store : MappedStorage)

/-- Upwards from a record to the end. -/
theorem leads_upward (n : Nat) {k : Nat} (whole : k + n = store.mapped.shape.records) :
    store.mapped.Leads store.upward (store.mapped.recordAt k) (List.range' k n) store.mapped.limit := by
  induction n generalizing k with
  | zero =>
    rw [← store.mapped.recordAt_records, ← whole]
    exact .here _
  | succ n ih =>
    have below : k < store.mapped.shape.records := by omega
    refine .pass below (decide_eq_true (store.mapped.recordAt_lt below)) ?_
    have step : store.mapped.storageRecord (store.mapped.recordAt k) store.upward.step =
        store.mapped.recordAt (k + 1) := store.mapped.storageRecord_up below
    rw [step]
    exact ih (by omega)

/-- Downwards from before a record to before the first. -/
theorem leads_downward {k : Nat} (inside : k ≤ store.mapped.shape.records) :
    store.mapped.Leads store.downward (store.mapped.storageRecord (store.mapped.recordAt k) (-1))
      (List.range k).reverse (store.mapped.storageRecord store.mapped.first (-1)) := by
  induction k with
  | zero =>
    rw [store.mapped.recordAt_zero]
    exact .here _
  | succ k ih =>
    have below : k < store.mapped.shape.records := inside
    have within : store.downward.within (store.mapped.recordAt k) = true := by
      simp only [downward, decide_eq_true_eq]
      exact store.mapped.first_le_recordAt k
    rw [store.mapped.storageRecord_down below, List.range_succ, List.reverse_append,
      List.reverse_singleton, List.singleton_append]
    exact .pass below within (ih (by omega))

/-! ## What the searches come to -/

/-- The records that are ahead of a search, and which of two it comes to first. -/
structure Order where
  ahead : Nat → Prop
  nearer : Nat → Nat → Prop

def after (prior : Option Nat) : Order := ⟨fun k => ∀ p ∈ prior, p < k, fun j k => j < k⟩

def before (prior : Option Nat) : Order := ⟨fun k => ∀ p ∈ prior, k < p, fun j k => k < j⟩

/-- A record ahead, such that nobody holds a nearer one, and none of these is wanted. -/
structure Reached (wanted : Int → Bool) (order : Order) (k : Nat) : Prop where
  below : k < store.mapped.shape.records
  ahead : order.ahead k
  passed : ∀ j < store.mapped.shape.records, order.ahead j → order.nearer j k →
    store.mapped.Passed wanted store.bytes j

/-- The nearest record that is wanted, with its lock taken. -/
def Takes (wanted : Int → Bool) (order : Order) (result : Option SearchOutcome) : Prop :=
  ∃ k out, store.Reached wanted order k ∧ 0 ≤ store.mapped.word store.bytes k ∧
    wanted (store.mapped.word store.bytes k) = true ∧ result = some out ∧ out.status = Status.true ∧
    out.prec = some (store.mapped.recordAt k) ∧
      out.oldRev = some (store.mapped.word store.bytes k) ∧
    store.mapped.word out.bytes k = lockedWord (store.mapped.word store.bytes k) ∧
    ∀ j < store.mapped.shape.records, j ≠ k → store.mapped.word out.bytes j =
      store.mapped.word store.bytes j

/-- No record ahead is held or wanted. -/
def Misses (wanted : Int → Bool) (order : Order) : Prop :=
  ∀ k < store.mapped.shape.records, order.ahead k → store.mapped.Passed wanted store.bytes k

/-- The failure of the lock of the first record that another holds. -/
def HeldBack (sleep : Nat → Int) (wanted : Int → Bool) (order : Order)
    (result : Option SearchOutcome) : Prop :=
  ∃ (k : Nat) (st : Failure), store.Reached wanted order k ∧ store.mapped.word store.bytes k < 0 ∧
    (spinWriteLock sleep store.bytes (store.mapped.recordAt k - store.mapped.addr)).1 = .error st ∧
    result = some ⟨st.val, none, none, store.bytes⟩

def notFound : SearchOutcome := ⟨Status.false, none, none, store.bytes⟩

/-- A search comes to one of the three. Where it `ends` behind the last record, nothing is found
exactly if there is nothing. -/
def Exact (sleep : Nat → Int) (wanted : Int → Bool) (order : Order) (ends : Prop)
    (result : Option SearchOutcome) : Prop :=
  (store.Takes wanted order result ∨ store.Misses wanted order ∧
    (ends → result = some store.notFound) ∨
    store.HeldBack sleep wanted order result) ∧
  (result = some store.notFound → store.Misses wanted order) ∧
  (store.Misses wanted order → ends → result = some store.notFound)

variable {store} in
theorem exact_of_cases {sleep : Nat → Int} {wanted : Int → Bool} {order : Order} {ends : Prop}
    {result : Option SearchOutcome}
    (outcomes : store.Takes wanted order result ∨
      store.Misses wanted order ∧ (ends → result = some store.notFound) ∨
      store.HeldBack sleep wanted order result) : store.Exact sleep wanted order ends result := by
  refine ⟨outcomes, fun nothing => ?_, fun missed atEnd => ?_⟩
  · rcases outcomes with ⟨k, out, -, -, -, result, isTrue, -⟩ | ⟨missed, -⟩ |
      ⟨k, st, -, -, -, result⟩
    · rw [nothing, Option.some.injEq] at result
      rw [← result] at isTrue
      exact absurd isTrue (by decide : Status.false ≠ Status.true)
    · exact missed
    · rw [nothing, Option.some.injEq] at result
      have same : Status.false = st.val := congrArg SearchOutcome.status result
      exact absurd st.2 (by rw [← same]; decide)
  · rcases outcomes with ⟨k, out, reached, -, fine, -⟩ | ⟨-, result⟩ | ⟨k, st, reached, held, -⟩
    · rw [(missed k reached.below reached.ahead).2] at fine
      cases fine
    · exact result atEnd
    · have free := (missed k reached.below reached.ahead).1
      omega

/-- A way that has the records ahead in their order, with room for one more pass. -/
theorem search_exact (sleep : Nat → Int) {c : Course} {order : Order} {p q : Nat} {ks : List Nat}
    (leads : store.mapped.Leads c p ks q) (short : ks.length ≤ store.mapped.shape.records)
    (members : ∀ k, k ∈ ks ↔ k < store.mapped.shape.records ∧ order.ahead k)
    (sorted : ks.Pairwise order.nearer) (asymm : ∀ j k, order.nearer j k → ¬ order.nearer k j) :
    store.Takes c.wanted order
      (store.mapped.search true sleep c (store.mapped.shape.records + 1) p store.bytes) ∨
    store.Misses c.wanted order ∧ (∃ n, store.mapped.search true sleep c (store.mapped.shape.records + 1) p
      store.bytes = store.mapped.search true sleep c (n + 1) q store.bytes) ∨
    store.HeldBack sleep c.wanted order
      (store.mapped.search true sleep c (store.mapped.shape.records + 1) p store.bytes) := by
  have passes : store.mapped.shape.records + 1 =
      (store.mapped.shape.records - ks.length + 1) + ks.length := by omega
  have reached {before after : List Nat} {k : Nat} (split : ks = before ++ k :: after)
      (others : ∀ j ∈ before, store.mapped.Passed c.wanted store.bytes j) :
      store.Reached c.wanted order k := by
    have here : k ∈ ks := by rw [split]; simp
    obtain ⟨below, ahead⟩ := (members k).mp here
    refine ⟨below, ahead, fun j hj aheadj nearer => ?_⟩
    have listed := (members j).mpr ⟨hj, aheadj⟩
    rw [split, List.mem_append, List.mem_cons] at listed
    rcases listed with listed | rfl | listed
    · exact others j listed
    · exact absurd nearer (asymm _ _ nearer)
    · -- a record behind `k` is not nearer
      rw [split, List.pairwise_append] at sorted
      have behind := (List.pairwise_cons.mp sorted.2.1).1 j listed
      exact absurd nearer (asymm _ _ behind)
  rw [passes]
  rcases search_leads sleep store.length_bytes leads (store.mapped.shape.records - ks.length + 1) with
    ⟨all, done⟩ | ⟨before, k, after, split, others,
      ⟨held, st, locked, result⟩ | ⟨free, fine, result⟩⟩
  · right; left
    exact ⟨fun k below ahead => all k ((members k).mpr ⟨below, ahead⟩), _, done⟩
  · right; right
    exact ⟨k, st, reached split others, held, locked, result⟩
  · left
    have arrived := reached split others
    have fits := store.mapped.word_offset store.length_bytes arrived.below
    refine ⟨k, _, arrived, free, fine, result, rfl, rfl, rfl, ?_, ?_⟩
    · exact ldLong_stLong (lockedWord_isLong (toLong_isLong _)) (by omega)
    · exact fun j hj other => store.mapped.word_other _ store.length_bytes hj arrived.below other

def handle (prior : Option (Fin store.mapped.shape.records)) : Option Nat :=
  prior.map fun k => store.mapped.recordAt k.val

def begins (c : Course) (start : Nat) : Option (Fin store.mapped.shape.records) → Nat
  | some k => store.mapped.storageRecord (store.mapped.recordAt k.val) c.step
  | none => start

/-- A search of a handle that may write. -/
theorem find_eq (writable : store.isReadOnly = false) (c : Course) (start : Nat) (sleep : Nat → Int)
    (prior : Option (Fin store.mapped.shape.records)) :
    store.find c start sleep (store.handle prior) true true =
      store.mapped.search true sleep c (store.mapped.shape.records + 1) (store.begins c start prior)
        store.bytes := by
  unfold find handle
  simp only [writable, Bool.and_false, Bool.true_eq_false, Bool.false_eq_true, if_false]
  cases prior with
  | none => rfl
  | some k =>
    have low := store.mapped.first_le_recordAt k
    have high := store.mapped.recordAt_lt k.isLt
    have inside : ¬ (store.mapped.recordAt k < store.mapped.first ∨
        store.mapped.limit ≤ store.mapped.recordAt k) := by omega
    simp only [Option.map_some, if_neg inside, begins]

/-- The number of the record that comes first upwards. -/
theorem begins_upward (prior : Option (Fin store.mapped.shape.records)) :
    ∃ k ≤ store.mapped.shape.records,
      store.begins store.upward store.mapped.first prior = store.mapped.recordAt k ∧
      ∀ j, (after (prior.map Fin.val)).ahead j ↔ k ≤ j := by
  cases prior with
  | none => exact ⟨0, Nat.zero_le _, store.mapped.recordAt_zero.symm, fun j => by simp [after]⟩
  | some i =>
    refine ⟨i + 1, i.isLt, store.mapped.storageRecord_up i.isLt, fun j => ?_⟩
    simp only [after, Option.map_some, Option.mem_def, Option.some.injEq, forall_eq']
    exact Iff.rfl

/-- The number behind the record that comes first downwards. -/
theorem begins_downward (prior : Option (Fin store.mapped.shape.records)) :
    ∃ k ≤ store.mapped.shape.records,
      store.begins store.downward (store.mapped.storageRecord store.mapped.limit (-1)) prior =
        store.mapped.storageRecord (store.mapped.recordAt k) (-1) ∧
      ∀ j < store.mapped.shape.records, (before (prior.map Fin.val)).ahead j ↔ j < k := by
  cases prior with
  | none =>
    refine ⟨_, le_refl _, ?_, fun j below => ?_⟩
    · rw [store.mapped.recordAt_records]
      rfl
    · simp [before, below]
  | some i => exact ⟨i, le_of_lt i.isLt, rfl, fun j _ => by simp [before]⟩

theorem search_limit (sleep : Nat → Int) (n : Nat) :
    store.mapped.search true sleep store.upward (n + 1) store.mapped.limit store.bytes =
      some store.notFound := by
  have out : store.upward.within store.mapped.limit = false :=
    decide_eq_false (Nat.lt_irrefl store.mapped.limit)
  rw [search, if_pos out]
  rfl

/-- The pointer before the first record ends the search unless it has wrapped. -/
theorem search_below (narrow : store.mapped.shape.recSz ≤ store.mapped.first)
    (sleep : Nat → Int) (n : Nat) :
    store.mapped.search true sleep store.downward (n + 1)
      (store.mapped.storageRecord store.mapped.first (-1)) store.bytes = some store.notFound := by
  have wide := store.mapped.recSz_pos
  have out : store.downward.within (store.mapped.storageRecord store.mapped.first (-1)) = false := by
    simp only [downward, decide_eq_false_iff_not, store.mapped.storageRecord_below, if_pos narrow]
    omega
  rw [search, if_pos out]
  rfl

theorem next_exact (writable : store.isReadOnly = false) (sleep : Nat → Int)
    (prior : Option (Fin store.mapped.shape.records)) :
    store.Exact sleep (fun rev => rev = 0) (after (prior.map Fin.val)) True
      (store.storageFindNextUnused sleep (store.handle prior) true true) := by
  obtain ⟨k, inside, starts, ahead⟩ := store.begins_upward prior
  have leads := store.leads_upward (store.mapped.shape.records - k) (show k + _ = _ by omega)
  have members (j : Nat) : j ∈ List.range' k (store.mapped.shape.records - k) ↔
      j < store.mapped.shape.records ∧ (after (prior.map Fin.val)).ahead j := by
    rw [List.mem_range'_1, ahead]
    omega
  have short : (List.range' k (store.mapped.shape.records - k)).length ≤
    store.mapped.shape.records := by
    rw [List.length_range']
    omega
  rw [storageFindNextUnused, store.find_eq writable, starts]
  apply exact_of_cases
  rcases store.search_exact sleep leads short members List.pairwise_lt_range' fun _ _ => Nat.lt_asymm with
    taken | ⟨missed, n, done⟩ | held
  · exact Or.inl taken
  · exact Or.inr (Or.inl ⟨missed, fun _ => done.trans (store.search_limit sleep n)⟩)
  · exact Or.inr (Or.inr held)

theorem prev_exact (writable : store.isReadOnly = false) (sleep : Nat → Int)
    (prior : Option (Fin store.mapped.shape.records)) :
    store.Exact sleep (fun rev => rev ≠ 0) (before (prior.map Fin.val))
      (store.mapped.shape.recSz ≤ store.mapped.first)
      (store.storageFindPrevUsed sleep (store.handle prior) true true) := by
  obtain ⟨k, inside, starts, ahead⟩ := store.begins_downward prior
  have leads := store.leads_downward inside
  have members (j : Nat) : j ∈ (List.range k).reverse ↔
      j < store.mapped.shape.records ∧ (before (prior.map Fin.val)).ahead j := by
    rw [List.mem_reverse, List.mem_range]
    constructor
    · intro less
      exact ⟨by omega, (ahead j (by omega)).mpr less⟩
    · exact fun ⟨below, there⟩ => (ahead j below).mp there
  have short : (List.range k).reverse.length ≤ store.mapped.shape.records := by
    rw [List.length_reverse, List.length_range]
    exact inside
  have sorted : (List.range k).reverse.Pairwise (before (prior.map Fin.val)).nearer :=
    List.pairwise_reverse.mpr List.pairwise_lt_range
  rw [storageFindPrevUsed, store.find_eq writable, starts]
  apply exact_of_cases
  rcases store.search_exact sleep leads short members sorted fun _ _ => Nat.lt_asymm with
    taken | ⟨missed, n, done⟩ | held
  · exact Or.inl taken
  · exact Or.inr (Or.inl ⟨missed, fun narrow => done.trans (store.search_below narrow sleep n)⟩)
  · exact Or.inr (Or.inr held)

theorem find_readOnly (readOnly : store.isReadOnly = true) (c : Course) (start : Nat)
    (sleep : Nat → Int) (prior : Option Nat) :
    store.find c start sleep prior true true = some ⟨Status.storageReadOnly, none, none,
      store.bytes⟩ := by
  unfold find
  rw [readOnly]
  rfl

/-- With a handle that may write, both searches are exact, whatever others hold, but for the end of
the search downwards: that is the last record only where a record is not larger than the address of
the first. With a handle that is read-only nothing is searched. -/
theorem locked_searches (sleep : Nat → Int) (prior : Option (Fin store.mapped.shape.records)) :
    if store.isReadOnly then
      store.storageFindNextUnused sleep (store.handle prior) true true =
        some ⟨Status.storageReadOnly, none, none, store.bytes⟩ ∧
      store.storageFindPrevUsed sleep (store.handle prior) true true =
        some ⟨Status.storageReadOnly, none, none, store.bytes⟩
    else
      store.Exact sleep (fun rev => rev = 0) (after (prior.map Fin.val)) True
        (store.storageFindNextUnused sleep (store.handle prior) true true) ∧
      store.Exact sleep (fun rev => rev ≠ 0) (before (prior.map Fin.val))
        (store.mapped.shape.recSz ≤ store.mapped.first)
        (store.storageFindPrevUsed sleep (store.handle prior) true true) := by
  split
  · next readOnly => exact ⟨store.find_readOnly readOnly .., store.find_readOnly readOnly ..⟩
  · next writable =>
    rw [Bool.not_eq_true] at writable
    exact ⟨store.next_exact writable sleep prior, store.prev_exact writable sleep prior⟩

/-! ## The record array

The eraser and the copier are modelled on an array of records. Its searches are those of the
segment. -/

def attributes : Attributes :=
  ⟨store.mapped.shape.baseId, store.mapped.shape.maxId, store.mapped.shape.valueSize,
    store.mapped.shape.propertySize, store.mapped.shape.qCapacity, store.mapped.accepted.1⟩

structure Mirrors (s : RecordStore store.attributes) : Prop where
  readOnly : s.isReadOnly = store.isReadOnly
  words : ∀ r : Handle store.attributes, (s.record r).rev = store.mapped.word store.bytes r.val

/-- Both searches return the same, and leave the same lock words. -/
def Agrees (result : Option SearchOutcome)
    (found : Int × Option (Handle store.attributes × Int) × RecordStore store.attributes) : Prop :=
  ∃ out, result = some out ∧ out.status = found.1 ∧
    out.prec = found.2.1.map (fun x => store.mapped.recordAt x.1.val) ∧
    out.oldRev = found.2.1.map (·.2) ∧
    ∀ r : Handle store.attributes, (found.2.2.record r).rev = store.mapped.word out.bytes r.val

variable {store} in
theorem search_seek {s : RecordStore store.attributes} (mirrors : store.Mirrors s)
    {sleep : Nat → Int}
    (awake : ∀ i, ¬ Status.Failed (sleep i)) {c : Course} {l : List (Handle store.attributes)}
    {p q : Nat} {ks : List Nat} (leads : store.mapped.Leads c p ks q)
    (same : l.map Fin.val = ks) (n : Nat) :
    store.Agrees (store.mapped.search true sleep c (n + ks.length) p store.bytes)
      (RecordStore.seek true c.wanted s l) ∨
    RecordStore.seek true c.wanted s l = (Status.false, none, s) ∧
      store.mapped.search true sleep c (n + ks.length) p store.bytes =
        store.mapped.search true sleep c n q store.bytes := by
  induction leads generalizing l with
  | here p =>
    obtain rfl := List.map_eq_nil_iff.mp same
    exact Or.inr ⟨rfl, rfl⟩
  | @pass k q ks below within rest ih =>
    obtain ⟨r, l, rfl, rfl, tail⟩ := List.map_eq_cons_iff.mp same
    have word := mirrors.words r
    rw [List.length_cons, ← Nat.add_assoc]
    rcases search_step sleep store.length_bytes below within (n + ks.length) with
      ⟨held, st, failed, result⟩ | ⟨free, fine, result⟩ | ⟨⟨free, other⟩, result⟩
    · left
      have deadlock := spinWriteLock_deadlock sleep awake failed
      have locked : (s.record r).rev < 0 := by omega
      rcases s.recordWriteLock_cases r with ⟨-, taken⟩ | ⟨free, -⟩
      · have found : RecordStore.seek true c.wanted s (r :: l) =
          (Status.deadlockDetected, none, s) := by
          simp only [RecordStore.seek, if_true, taken]
        rw [found]
        exact ⟨_, result, deadlock, rfl, rfl, mirrors.words⟩
      · omega
    · left
      have fine' : c.wanted (s.record r).rev = true := by rw [word]; exact fine
      rcases s.recordWriteLock_cases r with ⟨locked, -⟩ | ⟨-, taken⟩
      · omega
      · have found : RecordStore.seek true c.wanted s (r :: l) =
          (Status.true, some (r, (s.record r).rev),
            s.recordSetRevision r (lockedWord (s.record r).rev)) := by
          simp only [RecordStore.seek, if_true, taken, fine']
        rw [found]
        refine ⟨_, result, rfl, rfl, by rw [Option.map_some, word], fun r' => ?_⟩
        by_cases here : r' = r
        · subst here
          have fits := store.mapped.word_offset store.length_bytes below
          rw [RecordStore.setRevision_same, word]
          exact (ldLong_stLong (lockedWord_isLong (toLong_isLong _)) (by omega)).symm
        · rw [RecordStore.setRevision_other _ _ here, mirrors.words r']
          exact (store.mapped.word_other _ store.length_bytes r'.isLt below
            fun same => here (Fin.ext same)).symm
    · have other' : c.wanted (s.record r).rev = false := by rw [word]; exact other
      rcases s.recordWriteLock_cases r with ⟨locked, -⟩ | ⟨-, taken⟩
      · omega
      · have found : RecordStore.seek true c.wanted s (r :: l) =
          RecordStore.seek true c.wanted s l := by
          simp only [RecordStore.seek, if_true, taken, other', RecordStore.unlock_lock]
          simp
        rw [found, result]
        exact ih tail

/-- The numbers of the records behind one, in their order. -/
theorem onward_val (prior : Option (Handle store.attributes)) {k : Nat}
    (ahead : ∀ j, (after (prior.map Fin.val)).ahead j ↔ k ≤ j) :
    (RecordStore.onward prior).map Fin.val = List.range' k (store.mapped.shape.records - k) := by
  have sorted : ((RecordStore.onward prior).map Fin.val).Pairwise (· < ·) :=
    List.pairwise_map.mpr (RecordStore.onward_sorted prior)
  apply sorted.eq_of_mem_iff List.pairwise_lt_range'
  intro j
  have same (below : j < store.attributes.count) :
      (∀ p ∈ prior, p < (⟨j, below⟩ : Handle store.attributes)) ↔ k ≤ j := by
    rw [← ahead j]
    cases prior <;> simp [after, Fin.lt_def]
  rw [List.mem_range'_1, List.mem_map]
  constructor
  · rintro ⟨r, here, rfl⟩
    have below : r.val < store.mapped.shape.records := r.isLt
    have low := (same r.isLt).mp (RecordStore.mem_onward.mp here)
    omega
  · rintro ⟨low, high⟩
    have below : j < store.attributes.count := show j < store.mapped.shape.records by omega
    exact ⟨⟨j, below⟩, RecordStore.mem_onward.mpr ((same below).mpr low), rfl⟩

/-- The numbers of the records before one, the nearest first. -/
theorem backward_val (prior : Option (Handle store.attributes)) {k : Nat}
    (inside : k ≤ store.mapped.shape.records)
    (ahead : ∀ j < store.mapped.shape.records, (before (prior.map Fin.val)).ahead j ↔ j < k) :
    (RecordStore.backward prior).map Fin.val = (List.range k).reverse := by
  have sorted : ((RecordStore.backward prior).map Fin.val).Pairwise (· > ·) :=
    List.pairwise_map.mpr (RecordStore.backward_sorted prior)
  apply sorted.eq_of_mem_iff (List.pairwise_reverse.mpr List.pairwise_lt_range)
  intro j
  have same (below : j < store.attributes.count) :
      (∀ p ∈ prior, (⟨j, below⟩ : Handle store.attributes) < p) ↔ j < k := by
    rw [← ahead j below]
    cases prior <;> simp [before, Fin.lt_def]
  rw [List.mem_reverse, List.mem_range, List.mem_map]
  constructor
  · rintro ⟨r, here, rfl⟩
    exact (same r.isLt).mp (RecordStore.mem_backward.mp here)
  · intro less
    have below : j < store.attributes.count := show j < store.mapped.shape.records by omega
    exact ⟨⟨j, below⟩, RecordStore.mem_backward.mpr ((same below).mpr less), rfl⟩

section Mirrored

variable {store} {s : RecordStore store.attributes} (mirrors : store.Mirrors s) {sleep : Nat → Int}
  (awake : ∀ i, ¬ Status.Failed (sleep i)) (prior : Option (Handle store.attributes))
include mirrors

/-- A search that finds nothing or is refused. -/
theorem agrees_empty (st : Int) : store.Agrees (some ⟨st, none, none, store.bytes⟩) (st, none, s) :=
  ⟨_, rfl, rfl, rfl, rfl, mirrors.words⟩

include awake

/-- A way with the records of a list, and nothing behind it. -/
theorem search_agrees {c : Course} {l : List (Handle store.attributes)} {p q : Nat} {ks : List Nat}
    (leads : store.mapped.Leads c p ks q) (same : l.map Fin.val = ks)
    (short : ks.length ≤ store.mapped.shape.records)
    (ended : ∀ n, store.mapped.search true sleep c (n + 1) q store.bytes = some store.notFound) :
    store.Agrees (store.mapped.search true sleep c (store.mapped.shape.records + 1) p store.bytes)
      (RecordStore.seek true c.wanted s l) := by
  have passes : store.mapped.shape.records + 1 =
      (store.mapped.shape.records - ks.length + 1) + ks.length := by omega
  rw [passes]
  rcases search_seek mirrors awake leads same (store.mapped.shape.records - ks.length + 1) with
    agrees | ⟨exhausted, done⟩
  · exact agrees
  · rw [done, ended, exhausted]
    exact agrees_empty mirrors Status.false

/-- The search upwards of the record array is that of the segment. -/
theorem next_agrees :
    store.Agrees (store.storageFindNextUnused sleep (store.handle prior) true true)
      (s.storageFindNextUnused true prior) := by
  unfold storageFindNextUnused RecordStore.storageFindNextUnused
  rw [mirrors.readOnly]
  cases access : store.isReadOnly with
  | true =>
    rw [store.find_readOnly access]
    exact agrees_empty mirrors Status.storageReadOnly
  | false =>
    obtain ⟨k, inside, starts, ahead⟩ := store.begins_upward prior
    have leads := store.leads_upward (store.mapped.shape.records - k) (show k + _ = _ by omega)
    have short : (List.range' k (store.mapped.shape.records - k)).length ≤
      store.mapped.shape.records := by
      rw [List.length_range']
      omega
    rw [← starts] at leads
    rw [if_neg (by simp)]
    obtain ⟨out, result, same⟩ := search_agrees mirrors awake leads (store.onward_val prior ahead) short
      (store.search_limit sleep)
    exact ⟨out, (store.find_eq access store.upward _ sleep prior).trans result, same⟩

/-- And so is the search downwards, where the pointer before the first record does not wrap. -/
theorem prev_agrees (narrow : store.mapped.shape.recSz ≤ store.mapped.first) :
    store.Agrees (store.storageFindPrevUsed sleep (store.handle prior) true true)
      (s.storageFindPrevUsed true prior) := by
  unfold storageFindPrevUsed RecordStore.storageFindPrevUsed
  rw [mirrors.readOnly]
  cases access : store.isReadOnly with
  | true =>
    rw [store.find_readOnly access]
    exact agrees_empty mirrors Status.storageReadOnly
  | false =>
    obtain ⟨k, inside, starts, ahead⟩ := store.begins_downward prior
    have leads := store.leads_downward inside
    have short : (List.range k).reverse.length ≤ store.mapped.shape.records := by
      rw [List.length_reverse, List.length_range]
      exact inside
    rw [← starts] at leads
    rw [if_neg (by simp)]
    obtain ⟨out, result, same⟩ := search_agrees mirrors awake leads (store.backward_val prior inside ahead)
      short (store.search_below narrow sleep)
    exact ⟨out, (store.find_eq access store.downward _ sleep prior).trans result, same⟩

end Mirrored

/-! ## A handle that is read-only, and a large record -/

def zeroed (m : MappedShape) (isReadOnly : Bool) : MappedStorage :=
  ⟨m, List.replicate (m.shape.segSz m.page) 0, isReadOnly, List.length_replicate⟩

theorem value_replicate (n : Nat) : value (List.replicate n 0) = 0 := by
  induction n with
  | zero => rfl
  | succ n ih => rw [List.replicate_succ, value, ih]; rfl

theorem word_zeroed (m : MappedShape) (isReadOnly : Bool) (k : Nat) :
    (zeroed m isReadOnly).mapped.word (zeroed m isReadOnly).bytes k = 0 := by
  unfold MappedShape.word zeroed ldLong peek
  rw [List.drop_replicate, List.take_replicate, toLong, value_replicate]
  rfl

def oneRecord : MappedShape where
  shape := ⟨0, 1, 8, 0, 0, isLong_zero, isLong_one, eight_lt_sizeLimit, zero_lt_sizeLimit,
    zero_lt_sizeLimit⟩
  page := smallPage
  addr := 65536
  accepted := by decide
  fits := show _ < sizeLimit by decide
  room := by decide

/-- One record of 80 TiB, mapped below the end of an address space of 47 bits. -/
def largeRecord : MappedShape where
  shape := ⟨0, 1, 87960930222080, 0, 0, isLong_zero,
    isLong_one, by decide, zero_lt_sizeLimit, zero_lt_sizeLimit⟩
  page := smallPage
  addr := 52776558125056
  accepted := by decide
  fits := show _ < sizeLimit by decide
  room := by decide

/-- The search for a used record passes the only one, and leaves the segment. -/
theorem largeRecord_leaves (sleep : Nat → Int) :
    (zeroed largeRecord false).storageFindPrevUsed sleep none true true = none := by
  have below : 0 < largeRecord.shape.records := by decide
  have starts : largeRecord.storageRecord largeRecord.limit (-1) = largeRecord.recordAt 0 := by
    have one : largeRecord.limit = largeRecord.recordAt (0 + 1) := by decide
    rw [one, largeRecord.storageRecord_down below]
  have result := (zeroed largeRecord false).find_eq rfl (zeroed largeRecord false).downward
    (largeRecord.storageRecord largeRecord.limit (-1)) sleep none
  have within : (zeroed largeRecord false).downward.within (largeRecord.recordAt 0) = true := by
    simp only [downward, decide_eq_true_eq]
    exact largeRecord.first_le_recordAt 0
  have length := (zeroed largeRecord false).length_bytes
  unfold storageFindPrevUsed
  refine result.trans ?_
  show largeRecord.search true sleep _ 2 (largeRecord.storageRecord largeRecord.limit (-1)) _ = none
  rw [starts]
  rcases search_step sleep length below within 1 with ⟨held, -⟩ | ⟨-, used, -⟩ | ⟨-, goesOn⟩
  · rw [word_zeroed] at held
    exact absurd held (by decide)
  · rw [word_zeroed] at used
    exact absurd used (by decide)
  · refine goesOn.trans ?_
    have wrapped : largeRecord.storageRecord (largeRecord.recordAt 0) (-1) =
      18446708889337455992 := by decide
    have inside : (zeroed largeRecord false).downward.within 18446708889337455992 = true := by
      simp only [downward, decide_eq_true_eq]
      decide
    have unmapped : ¬ largeRecord.Reachable 18446708889337455992 := by decide
    show largeRecord.search true sleep _ 1 (largeRecord.storageRecord (largeRecord.recordAt 0) (-1)) _ = none
    rw [wrapped, search]
    simp only [inside, unmapped, Bool.true_eq_false, if_false, not_false_eq_true, if_true]

/-- What is said of a handle that may write does not hold of one that is read-only, and not where
the pointer before the first record wraps. -/
theorem read_only_and_large_record :
    (¬ (zeroed oneRecord true).Exact (fun _ => 0) (fun rev => rev = 0) (after none) True
      ((zeroed oneRecord true).storageFindNextUnused (fun _ => 0) none true true)) ∧
    ¬ (zeroed largeRecord false).Exact (fun _ => 0) (fun rev => rev ≠ 0) (before none) True
      ((zeroed largeRecord false).storageFindPrevUsed (fun _ => 0) none true true) := by
  constructor
  · rintro ⟨⟨k, out, -, -, -, result, isTrue, -⟩ | ⟨missed, -⟩ | ⟨k, st, -, held, -⟩, -, -⟩
    · have refused := (zeroed oneRecord true).find_readOnly rfl (zeroed oneRecord true).upward
        oneRecord.first (fun _ => 0) none
      have same := Option.some.inj (refused.symm.trans result)
      rw [← same] at isTrue
      exact absurd isTrue (by decide : Status.storageReadOnly ≠ Status.true)
    · have passed := (missed 0 (by decide) nofun).2
      rw [word_zeroed] at passed
      exact absurd passed (by decide)
    · rw [word_zeroed] at held
      exact absurd held (by decide)
  · rintro ⟨⟨k, out, -, -, used, -⟩ | ⟨-, ends⟩ | ⟨k, st, -, held, -⟩, -, -⟩
    · rw [word_zeroed] at used
      exact absurd used (by decide)
    · have found := ends trivial
      rw [largeRecord_leaves] at found
      cases found
    · rw [word_zeroed] at held
      exact absurd held (by decide)

end MappedStorage

end Lancaster
