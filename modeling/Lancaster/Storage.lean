import Lancaster.Base.Bytes

/-!
# Status codes, sequence ranges and the record storage

A status is an integer, negative exactly when the call failed. Identifiers,
sequences, revisions and times in microseconds are C longs and appear as integers;
positions of the change queue count up from zero and appear as naturals. The
storage is the memory-mapped segment: an array of records, each with its lock word, timestamp
and value, and a ring of recently changed identifiers. A record's lock word is its
revision while it is free; a writer that holds it has set the sign bit.
-/

namespace Lancaster

namespace Status

def ok : Int := 0
def true : Int := 1
def false : Int := 0
def invalidArg : Int := -22
def eof : Int := -221
def blocked : Int := -223
def notFound : Int := -224
def noMemory : Int := -225
def protocolError : Int := -227
def protocolTimeout : Int := -228
def sequenceOverflow : Int := -232
def unexpectedSource : Int := -233
def changeQueueOverrun : Int := -234
def mtuTooSmall : Int := -236
def deadlockDetected : Int := -238
def noChangeQueue : Int := -239
def storageReadOnly : Int := -240
def invalidCapacity : Int := -246
def invalidRecord : Int := -248

/-- The `FAILED` test of the source. -/
abbrev Failed (st : Int) : Prop := st < 0

theorem failed_deadlockDetected : Failed deadlockDetected := by decide

theorem failed_invalidRecord : Failed invalidRecord := by decide

end Status

abbrev Failure := { st : Int // Status.Failed st }

namespace Failure

def eof : Failure := ⟨Status.eof, by decide⟩
def blocked : Failure := ⟨Status.blocked, by decide⟩
def noChangeQueue : Failure := ⟨Status.noChangeQueue, by decide⟩
def storageReadOnly : Failure := ⟨Status.storageReadOnly, by decide⟩

end Failure

def sequenceMax : Int := 9223372036854775807
def sequenceMin : Int := -9223372036854775808
def heartbeatSeq : Int := -1
def willQuitSeq : Int := -2

/-- The open range from `low` up to but not including `high`. -/
structure SequenceRange where
  low : Int
  high : Int
  deriving DecidableEq, Repr

namespace SequenceRange

def IsValid (r : SequenceRange) : Prop := r.low < r.high

def IsWithin (r : SequenceRange) (n : Int) : Prop := r.low ≤ n ∧ n < r.high

instance (r : SequenceRange) : Decidable r.IsValid := inferInstanceAs (Decidable (_ < _))

instance (r : SequenceRange) (n : Int) : Decidable (r.IsWithin n) :=
  inferInstanceAs (Decidable (_ ∧ _))

/-- What `INVALIDATE_RANGE` leaves behind. -/
def invalid : SequenceRange := ⟨sequenceMax, sequenceMin⟩

/-- The smallest range that holds both, as two comparisons widen it. -/
def hull (u r : SequenceRange) : SequenceRange :=
  ⟨if r.low < u.low then r.low else u.low, if u.high < r.high then r.high else u.high⟩

end SequenceRange

/-- On a little-endian host both conversions reverse the bytes of a long. -/
abbrev htonll (x : Int) : Int := Bytes.bswap64 x
abbrev ntohll (x : Int) : Int := Bytes.bswap64 x

/-- The eight bytes of a long as they travel: most significant first. -/
def netLong (x : Int) : List UInt8 := Bytes.ofLong (htonll x)

@[simp] theorem length_netLong (x : Int) : (netLong x).length = 8 := by simp [netLong]

theorem stLong_htonll (buf : List UInt8) (off : Nat) (x : Int) :
    Bytes.stLong buf off (htonll x) = Bytes.poke buf off (netLong x) := rfl

/-- A long that travelled is read back. -/
theorem ntohll_netLong {x : Int} (hx : Bytes.IsLong x) (pre post : List UInt8) :
    ntohll (Bytes.ldLong (pre ++ (netLong x ++ post)) pre.length) = x := by
  rw [netLong, Bytes.ldLong_append (Bytes.bswap64_isLong x)]
  exact Bytes.bswap64_bswap64 hx

/-- The shape of a storage that is mapped into memory. Everything the record and
queue areas hold has to fit in the address space, and a queue has a power of two
of entries (or none). -/
structure Geometry where
  baseId : Int
  maxId : Int
  valSize : Nat
  qCapacity : Nat
  base_lt_max : baseId < maxId
  base_isLong : -9223372036854775808 ≤ baseId
  max_isLong : maxId < 9223372036854775808
  valSize_pos : 0 < valSize
  valSize_lt : valSize < 4611686018427387904
  qCapacity_lt : qCapacity < 4611686018427387904
  qCapacity_pow : qCapacity = 0 ∨ ∃ k, qCapacity = 2 ^ (k + 1)

namespace Geometry

variable (g : Geometry)

/-- The test of `storage_get_record`. -/
def Holds (id : Int) : Prop := g.baseId ≤ id ∧ id < g.maxId

instance (id : Int) : Decidable (g.Holds id) := inferInstanceAs (Decidable (_ ∧ _))

theorem Holds.isLong {g : Geometry} {id : Int} (h : g.Holds id) : Bytes.IsLong id := by
  have low := g.base_isLong
  have high := g.max_isLong
  obtain ⟨hl, hh⟩ := h
  constructor <;> omega

end Geometry

/-- Two records of one byte and a queue of two entries. -/
def small : Geometry where
  baseId := 0
  maxId := 2
  valSize := 1
  qCapacity := 2
  base_lt_max := by decide
  base_isLong := by decide
  max_isLong := by decide
  valSize_pos := by decide
  valSize_lt := by decide
  qCapacity_lt := by decide
  qCapacity_pow := Or.inr ⟨0, rfl⟩

abbrev Value (g : Geometry) := Vector UInt8 g.valSize

def Value.load (g : Geometry) (buf : List UInt8) (off : Nat) : Value g :=
  Vector.ofFn fun i => buf.getD (off + i) 0

def spinMax : Int := 9223372036854775807

/-- `NEXT_REV`: the sign bit is never set by counting. -/
def nextRev (v : Int) : Int := (v + 1) % 9223372036854775808

/-- The lock word with its sign bit set by `SYNC_FETCH_AND_OR`. -/
def lockedWord (v : Int) : Int := if v < 0 then v else v - 9223372036854775808

theorem lockedWord_neg {v : Int} (high : v ≤ spinMax) : lockedWord v < 0 := by
  simp only [spinMax] at high
  rw [lockedWord]
  split <;> omega

structure Record (g : Geometry) where
  rev : Int
  ts : Int
  val : Value g
  deriving DecidableEq

/-- The part of the segment that the publishing and receiving code uses. -/
structure Storage (g : Geometry) where
  record : Int → Record g
  qHead : Nat
  changeQ : Nat → Int

namespace Storage

variable {g : Geometry}

def setRecord (st : Storage g) (id : Int) (r : Record g) : Storage g :=
  { st with record := fun i => if i = id then r else st.record i }

@[simp] theorem setRecord_same (st : Storage g) (id : Int) (r : Record g) :
    (st.setRecord id r).record id = r := by simp [setRecord]

theorem setRecord_other (st : Storage g) {id i : Int} (r : Record g) (h : i ≠ id) :
    (st.setRecord id r).record i = st.record i := by simp [setRecord, h]

@[simp] theorem setRecord_qHead (st : Storage g) (id : Int) (r : Record g) :
    (st.setRecord id r).qHead = st.qHead := rfl

@[simp] theorem setRecord_changeQ (st : Storage g) (id : Int) (r : Record g) :
    (st.setRecord id r).changeQ = st.changeQ := rfl

/-- `q_index & q_mask`: the ring slot of a queue position, for a queue of a power of
two of entries. -/
def slot (cap q : Nat) : Nat := q % cap

/-- Two positions less than a round apart have different slots. -/
theorem slot_ne {cap p q : Nat} (lt : p < q) (near : q < p + cap) : slot cap p ≠ slot cap q := by
  intro same
  have zero := Nat.sub_mod_eq_zero_of_mod_eq same.symm
  rw [Nat.mod_eq_of_lt (by omega)] at zero
  omega

/-- `storage_write_queue` on a queue of `cap` entries. -/
def storageWriteQueue (cap : Nat) (st : Storage g) (id : Int) : Except Failure (Storage g) :=
  if cap = 0 then .error .noChangeQueue
  else .ok { st with
    changeQ := fun j => if j = slot cap st.qHead then id else st.changeQ j
    qHead := st.qHead + 1 }

def storageReadQueue (cap : Nat) (st : Storage g) (q : Nat) : Except Failure Int :=
  if cap = 0 then .error .noChangeQueue else .ok (st.changeQ (slot cap q))

/-- `storage_reset`: zeros over all records and slots, and the head back at zero. -/
def storageReset (isReadOnly : Bool) (_ : Storage g) : Except Failure (Storage g) :=
  if isReadOnly then .error .storageReadOnly
  else .ok {
    record := fun _ => ⟨0, 0, Vector.replicate g.valSize 0⟩
    qHead := 0
    changeQ := fun _ => 0 }

end Storage

def smallValue (b : UInt8) : Value small := #v[b]

def smallStore : Storage small where
  record := fun _ => ⟨0, 0, smallValue 0⟩
  qHead := 0
  changeQ := fun _ => 0

end Lancaster
