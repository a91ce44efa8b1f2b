import Lancaster.StorageCreate

/-!
# Record handles and identifiers

A record handle is the address of a record in the mapped segment. `storage_get_record` counts the
records of the array from the lowest identifier on; `storage_get_id` counts them from zero. The two
are each other's inverse exactly in a storage whose identifiers begin with zero.
-/

namespace Lancaster

/-- A segment that is mapped at an address and holds everything that its header promises. -/
structure MappedShape where
  shape : Shape
  page : PageSize
  addr : Nat
  accepted : shape.Accepted
  fits : shape.Fits page
  room : addr + shape.segSz page < sizeLimit

namespace MappedShape

variable (m : MappedShape)

def first : Nat := m.shape.first m.addr

def limit : Nat := m.shape.limit m.addr

/-- `STORAGE_RECORD`, in the arithmetic of `size_t`. -/
def storageRecord (base : Nat) (idx : Int) : Nat :=
  ((base + idx * m.shape.recSz) % sizeLimit).toNat

def storageGetRecord (id : Int) : Except Failure Nat :=
  if id < m.shape.baseId ∨ m.shape.maxId ≤ id then .error ⟨Status.invalidRecord,
    Status.failed_invalidRecord⟩
  else .ok (m.storageRecord m.first (id - m.shape.baseId))

def storageGetId (rec : Nat) : Except Failure Int :=
  if rec < m.first ∨ m.limit ≤ rec then .error ⟨Status.invalidRecord, Status.failed_invalidRecord⟩
  else .ok ((rec - m.first) / m.shape.recSz : Nat)

def IsRecordStart (rec : Nat) : Prop := ∃ k < m.shape.records, rec = m.storageRecord m.first k

/-! ## The array in the address space -/

theorem recSz_pos : 0 < m.shape.recSz := by
  rw [m.shape.recSz_eq (m.fits.trueRecSz_lt m.accepted), Shape.trueRecSz]
  omega

theorem array_inside : m.addr + m.shape.hdrSz + m.shape.records * m.shape.recSz < sizeLimit := by
  have total := m.fits.total_le m.accepted
  have room := m.room
  rw [← m.shape.hdrSz_eq m.fits.trueHdrSz_lt, ← m.shape.recSz_eq (m.fits.trueRecSz_lt m.accepted),
    Nat.mul_comm] at total
  omega

theorem first_eq : m.first = m.addr + m.shape.hdrSz := by
  have := m.array_inside
  exact Nat.mod_eq_of_lt (by omega)

theorem limit_eq : m.limit = m.first + m.shape.records * m.shape.recSz := by
  have inside := m.array_inside
  rw [← m.first_eq] at inside
  exact Nat.mod_eq_of_lt inside

/-- A record of the array lies where the product puts it, without a carry. -/
theorem storageRecord_eq {k : Nat} (below : k < m.shape.records) :
    m.storageRecord m.first k = m.first + k * m.shape.recSz ∧
      m.first + k * m.shape.recSz < m.limit := by
  have inside := m.array_inside
  have step : (k + 1) * m.shape.recSz ≤ m.shape.records * m.shape.recSz :=
    Nat.mul_le_mul_right _ below
  have wide := m.recSz_pos
  rw [Nat.succ_mul] at step
  rw [← m.first_eq] at inside
  constructor
  · have small : m.first + k * m.shape.recSz < sizeLimit := by omega
    unfold storageRecord
    have cast : ((m.first : Int) + (k : Int) * m.shape.recSz) % (sizeLimit : Int) =
        ((m.first + k * m.shape.recSz) % sizeLimit : Nat) := by push_cast; rfl
    rw [cast, Int.toNat_natCast, Nat.mod_eq_of_lt small]
  · rw [m.limit_eq]
    omega

/-! ## There and back -/

theorem getRecord_of_index {k : Nat} (below : k < m.shape.records) :
    m.storageGetRecord (m.shape.baseId + k) = .ok (m.storageRecord m.first k) := by
  have inside : ¬ (m.shape.baseId + k < m.shape.baseId ∨ m.shape.maxId ≤ m.shape.baseId + k) := by
    unfold Shape.records at below
    omega
  rw [storageGetRecord, if_neg inside, add_sub_cancel_left]

/-- The identifier that comes back is the position in the array. -/
theorem getId_of_index {k : Nat} (below : k < m.shape.records) :
    m.storageGetId (m.storageRecord m.first k) = .ok (k : Int) := by
  obtain ⟨place, inside⟩ := m.storageRecord_eq below
  rw [storageGetId, place, if_neg (by omega), Nat.add_sub_cancel_left,
    Nat.mul_div_cancel _ m.recSz_pos]

theorem storageRecord_inj {j k : Nat} (hj : j < m.shape.records) (hk : k < m.shape.records)
    (same : m.storageRecord m.first j = m.storageRecord m.first k) : j = k := by
  have left := m.getId_of_index hj
  rw [same, m.getId_of_index hk] at left
  exact (Int.ofNat.inj (Except.ok.inj left)).symm

theorem index_of_id {id : Int} (low : m.shape.baseId ≤ id) (high : id < m.shape.maxId) :
    ∃ k < m.shape.records, id = m.shape.baseId + k := by
  refine ⟨(id - m.shape.baseId).toNat, ?_, by omega⟩
  unfold Shape.records
  omega

/-- Whatever the geometry, the identifier of a record's handle is the identifier of the record, and
the record of a handle's identifier is at the handle, exactly if the identifiers begin with zero. -/
theorem record_address_inverse :
    (∀ id, m.shape.baseId ≤ id → id < m.shape.maxId → ∃ r, m.storageGetRecord id = .ok r ∧
      (m.storageGetId r = .ok id ↔ m.shape.baseId = 0)) ∧
    (∀ r, m.IsRecordStart r → ∃ id, m.storageGetId r = .ok id ∧
      (m.storageGetRecord id = .ok r ↔ m.shape.baseId = 0)) := by
  constructor
  · intro id low high
    obtain ⟨k, below, rfl⟩ := m.index_of_id low high
    refine ⟨_, m.getRecord_of_index below, ?_⟩
    rw [m.getId_of_index below, Except.ok.injEq]
    omega
  · rintro r ⟨k, below, rfl⟩
    refine ⟨k, m.getId_of_index below, ?_⟩
    constructor
    · intro back
      by_cases held : (k : Int) < m.shape.baseId ∨ m.shape.maxId ≤ k
      · rw [storageGetRecord, if_pos held] at back
        exact absurd back (by simp)
      · -- the identifier `k` is the one of the record `k - baseId`
        obtain ⟨j, hj, same⟩ := m.index_of_id (show m.shape.baseId ≤ (k : Int) by omega) (by omega)
        have moved := m.getRecord_of_index hj
        rw [← same, back] at moved
        have := m.storageRecord_inj below hj (Except.ok.inj moved)
        omega
    · intro zero
      have here := m.getRecord_of_index below
      rwa [zero, Int.zero_add] at here

/-- Two records in a segment of one page, with identifiers from 0 on. -/
def pairFromZero : MappedShape where
  shape := ⟨0, 2, 8, 0, 0, isLong_zero, isLong_two, eight_lt_sizeLimit, zero_lt_sizeLimit,
    zero_lt_sizeLimit⟩
  page := smallPage
  addr := 65536
  accepted := by decide
  fits := show _ < sizeLimit by decide
  room := by decide

theorem record_address_inverse_small :
    ∃ r, pairFromZero.storageGetRecord 1 = .ok r ∧ pairFromZero.storageGetId r = .ok 1 := by
  obtain ⟨r, found, back⟩ := (record_address_inverse pairFromZero).1 1 (by decide) (by decide)
  exact ⟨r, found, back.mpr rfl⟩

def pairFromFive : MappedShape where
  shape := ⟨5, 7, 8, 0, 0, by decide, by decide, eight_lt_sizeLimit, zero_lt_sizeLimit, zero_lt_sizeLimit⟩
  page := smallPage
  addr := 65536
  accepted := by decide
  fits := show _ < sizeLimit by decide
  room := by decide

/-- The record of identifier 6 says that its identifier is 1, which is no identifier at all. -/
theorem record_address_drifts :
    ∃ r, pairFromFive.storageGetRecord 6 = .ok r ∧ pairFromFive.storageGetId r = .ok 1 ∧
      pairFromFive.storageGetRecord 1 = .error ⟨Status.invalidRecord,
        Status.failed_invalidRecord⟩ := by
  have below : 1 < pairFromFive.shape.records := by decide
  exact ⟨_, pairFromFive.getRecord_of_index below, pairFromFive.getId_of_index below, rfl⟩

end MappedShape

end Lancaster
