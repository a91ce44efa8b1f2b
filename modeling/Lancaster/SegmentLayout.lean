import Mathlib.Data.Nat.Bitwise
import Lancaster.Base.Bytes

/-!
# The layout of a segment

`init_create` computes the size of a record, of the header with its change queue and of
the whole segment from the sizes it is asked for. All of this is arithmetic of `size_t`,
modulo 2^64, and nothing checks for a carry.
-/

namespace Lancaster

def sizeLimit : Nat := 18446744073709551616

/-- `ALIGNED_SIZE`, for an alignment that is a power of two. -/
def alignedSize (sz aln : Nat) : Nat :=
  let x := (sz + (sizeLimit - 1) + aln) % sizeLimit
  x - x % aln

/-- `sysconf(_SC_PAGESIZE)`: a power of two from 4096 on. -/
structure PageSize where
  val : Nat
  pow : ∃ k, 12 ≤ k ∧ k < 64 ∧ val = 2 ^ k

structure Shape where
  baseId : Int
  maxId : Int
  valueSize : Nat
  propertySize : Nat
  qCapacity : Nat
  base_isLong : Bytes.IsLong baseId
  max_isLong : Bytes.IsLong maxId
  value_lt : valueSize < sizeLimit
  property_lt : propertySize < sizeLimit
  queue_lt : qCapacity < sizeLimit

namespace Shape

variable (a : Shape)

/-- The checks of `storage_create`. -/
def Accepted : Prop :=
  a.baseId < a.maxId ∧ a.valueSize ≠ 0 ∧ a.qCapacity ≠ 1 ∧ a.qCapacity &&& (a.qCapacity - 1) = 0

instance : Decidable a.Accepted := inferInstanceAs (Decidable (_ ∧ _ ∧ _ ∧ _))

/-- `max_id - base_id` as a `size_t`. -/
def records : Nat := (a.maxId - a.baseId).toNat

/-- `offsetof(struct record, val)` and the value. -/
def valueEnd : Nat := (16 + alignedSize a.valueSize 8) % sizeLimit

def propOffset : Nat := if 0 < a.propertySize then a.valueEnd else 0

def recSz : Nat :=
  if 0 < a.propertySize then (a.valueEnd + alignedSize a.propertySize 8) % sizeLimit else a.valueEnd

/-- `offsetof(struct segment, change_q)` is 1408. -/
def hdrSz : Nat :=
  (1408 + alignedSize (8 * (if 0 < a.qCapacity then a.qCapacity else 1) % sizeLimit) 8) % sizeLimit

def segSz (page : PageSize) : Nat :=
  let x := (a.hdrSz + a.recSz * a.records % sizeLimit + (page.val - 1)) % sizeLimit
  x - x % page.val

/-- `storage_get_record`: where the record lies in the segment. -/
def storageGetRecord (id : Int) : Option Nat :=
  if id < a.baseId ∨ a.maxId ≤ id then none
  else some ((a.hdrSz + (id - a.baseId).toNat * a.recSz) % sizeLimit)

end Shape

inductive Field where
  | rev
  | ts
  | val
  | prop
  deriving DecidableEq

namespace Shape

variable (a : Shape)

def fieldOffset : Field → Nat
  | .rev => 0
  | .ts => 8
  | .val => 16
  | .prop => a.propOffset

def fieldSize : Field → Nat
  | .rev => 8
  | .ts => 8
  | .val => a.valueSize
  | .prop => a.propertySize

/-- Where a part of the record at `off` begins in the segment. -/
def fieldStart (off : Nat) (f : Field) : Nat := (off + a.fieldOffset f) % sizeLimit

/-- Byte `i` of the segment belongs to part `f` of record `id`. -/
def Covers (id : Int) (f : Field) (i : Nat) : Prop :=
  ∃ off ∈ a.storageGetRecord id, a.fieldStart off f ≤ i ∧ i < a.fieldStart off f + a.fieldSize f

structure InBounds (page : PageSize) : Prop where
  queue : 1408 + 8 * a.qCapacity ≤ a.hdrSz
  total : a.hdrSz + a.recSz * a.records ≤ a.segSz page
  inside : ∀ id, a.baseId ≤ id → id < a.maxId → ∃ off ∈ a.storageGetRecord id,
    ∀ f, a.fieldStart off f + a.fieldSize f ≤ a.segSz page ∧ a.fieldStart off f % 8 = 0
  apart : ∀ id f id' f' i, a.Covers id f i → a.Covers id' f' i → id = id' ∧ f = f'

/-- The least multiple of eight from `n` on. -/
def up8 (n : Nat) : Nat := (n + 7) / 8 * 8

def trueRecSz : Nat := 16 + up8 a.valueSize + up8 a.propertySize

def trueHdrSz : Nat := 1408 + 8 * max a.qCapacity 1

/-- The sum from which the size of the segment is taken is a `size_t`. -/
def Fits (page : PageSize) : Prop :=
  a.trueHdrSz + a.trueRecSz * a.records + (page.val - 1) < sizeLimit

/-! ## Rounding up -/

theorem up8_spec (n : Nat) : n ≤ up8 n ∧ up8 n ≤ n + 7 ∧ up8 n % 8 = 0 := by
  unfold up8
  omega

/-- A multiple of eight that is not less than `n` is not less than `up8 n` either. -/
theorem up8_le {n m k : Nat} (h : k + n ≤ m) (hk : k % 8 = 0) (hm : m % 8 = 0) : k + up8 n ≤ m := by
  unfold up8
  omega

theorem alignedSize_eq {n : Nat} (h : n + 7 < sizeLimit) : alignedSize n 8 = up8 n := by
  unfold alignedSize up8 sizeLimit at *
  dsimp only
  omega

theorem alignedSize_mod (n : Nat) : alignedSize n 8 % 8 = 0 := by
  unfold alignedSize
  dsimp only
  omega

theorem hdrSz_lt : a.hdrSz < sizeLimit := Nat.mod_lt _ (by decide)

theorem hdrSz_mod : a.hdrSz % 8 = 0 := by
  have h := alignedSize_mod (8 * (if 0 < a.qCapacity then a.qCapacity else 1) % sizeLimit)
  unfold hdrSz
  generalize alignedSize _ 8 = x at h
  unfold sizeLimit
  omega

theorem records_pos {a : Shape} (ok : a.Accepted) : 0 < a.records := by
  have := ok.1
  unfold records
  omega

variable (page : PageSize)

theorem page_spec : 4096 ≤ page.val ∧ page.val % 8 = 0 ∧ page.val ≤ sizeLimit := by
  obtain ⟨k, low, high, eq⟩ := page.pow
  have split : page.val = 4096 * 2 ^ (k - 12) := by
    rw [eq]
    have : k = 12 + (k - 12) := by omega
    rw [this, pow_add]
    simp
  have pos : 0 < 2 ^ (k - 12) := Nat.two_pow_pos _
  have le : (2 : Nat) ^ k ≤ 2 ^ 64 := Nat.pow_le_pow_right (by decide) (by omega)
  have limit : sizeLimit = 2 ^ 64 := by decide
  refine ⟨by omega, by omega, ?_⟩
  rw [eq, limit]
  exact le

/-- Taking the remainder away leaves a multiple of the page size. -/
theorem segSz_spec : a.segSz page < sizeLimit ∧ a.segSz page % 8 = 0 := by
  obtain ⟨_, eight, _⟩ := page_spec page
  unfold segSz
  dsimp only
  have low : (a.hdrSz + a.recSz * a.records % sizeLimit + (page.val - 1)) % sizeLimit < sizeLimit :=
    Nat.mod_lt _ (by decide)
  generalize (a.hdrSz + a.recSz * a.records % sizeLimit + (page.val - 1)) % sizeLimit = x at low
  refine ⟨by omega, ?_⟩
  have multiple : page.val ∣ x - x % page.val := Nat.dvd_sub_mod x
  exact Nat.mod_eq_zero_of_dvd (dvd_trans (Nat.dvd_of_mod_eq_zero eight) multiple)

/-- Without a carry, the segment holds the header and the records. -/
theorem segSz_ge {total : Nat} (sum : a.hdrSz + a.recSz * a.records = total)
    (fits : total + (page.val - 1) < sizeLimit) : total ≤ a.segSz page := by
  obtain ⟨pos, _, _⟩ := page_spec page
  have small : a.recSz * a.records % sizeLimit = a.recSz * a.records := Nat.mod_eq_of_lt (by omega)
  unfold segSz
  dsimp only
  rw [small, sum, Nat.mod_eq_of_lt fits]
  have := Nat.mod_lt (total + (page.val - 1)) (show 0 < page.val by omega)
  omega

/-- With a carry in the last sum, nothing is left of the segment. -/
theorem segSz_carry {total : Nat} (sum : a.hdrSz + a.recSz * a.records = total)
    (low : total < sizeLimit) (carry : sizeLimit ≤ total + (page.val - 1)) : a.segSz page = 0 := by
  obtain ⟨pos, _, high⟩ := page_spec page
  have small : a.recSz * a.records % sizeLimit = a.recSz * a.records := Nat.mod_eq_of_lt (by omega)
  have rest : (total + (page.val - 1)) % sizeLimit = total + (page.val - 1) - sizeLimit := by
    rw [Nat.mod_eq_sub_mod carry, Nat.mod_eq_of_lt (by omega)]
  unfold segSz
  dsimp only
  rw [small, sum, rest, Nat.mod_eq_of_lt (by omega)]
  omega

theorem hdrSz_eq (fits : a.trueHdrSz < sizeLimit) : a.hdrSz = a.trueHdrSz := by
  unfold trueHdrSz at *
  have count : (if 0 < a.qCapacity then a.qCapacity else 1) = max a.qCapacity 1 := by
    split <;> omega
  have small : 8 * max a.qCapacity 1 % sizeLimit = 8 * max a.qCapacity 1 :=
    Nat.mod_eq_of_lt (by omega)
  have even : up8 (8 * max a.qCapacity 1) = 8 * max a.qCapacity 1 := by
    unfold up8
    omega
  unfold hdrSz
  rw [count, small, alignedSize_eq, even, Nat.mod_eq_of_lt fits]
  unfold sizeLimit at *
  omega

theorem valueEnd_eq (fits : 16 + up8 a.valueSize < sizeLimit) :
    a.valueEnd = 16 + up8 a.valueSize := by
  have low := (up8_spec a.valueSize).1
  unfold valueEnd
  rw [alignedSize_eq, Nat.mod_eq_of_lt fits]
  omega

theorem recSz_eq (fits : a.trueRecSz < sizeLimit) : a.recSz = a.trueRecSz := by
  unfold trueRecSz at *
  have low := (up8_spec a.propertySize).1
  have low' := (up8_spec a.valueSize).1
  unfold recSz
  rw [valueEnd_eq a (by omega)]
  split
  · rw [alignedSize_eq, Nat.mod_eq_of_lt fits]
    omega
  · have zero : a.propertySize = 0 := by omega
    rw [zero]
    rfl

/-! ## What a layout in bounds tells of the sizes -/

/-- The parts of the first record force the size of a record. -/
theorem InBounds.recSz_fits {a : Shape} {page : PageSize} (ok : a.Accepted) (h : a.InBounds page) :
    a.trueRecSz < sizeLimit := by
  obtain ⟨off, here, parts⟩ := h.inside a.baseId (le_refl _) ok.1
  have first : off = a.hdrSz := by
    have := ok.1
    simp only [storageGetRecord] at here
    rw [if_neg (by omega)] at here
    simp only [Option.mem_def, Option.some.injEq, sub_self, Int.toNat_zero, zero_mul, add_zero,
      Nat.mod_eq_of_lt a.hdrSz_lt] at here
    exact here.symm
  obtain ⟨limit, seg8⟩ := a.segSz_spec page
  have hdr8 := a.hdrSz_mod
  have hdr := a.hdrSz_lt
  rw [← first] at hdr8 hdr
  have start : ∀ k, off + k < sizeLimit → (off + k) % sizeLimit = off + k :=
    fun k low => Nat.mod_eq_of_lt low
  have rev : (off + 0) % sizeLimit + 8 ≤ a.segSz page := (parts .rev).1
  rw [start 0 (by omega)] at rev
  have ts : (off + 8) % sizeLimit + 8 ≤ a.segSz page := (parts .ts).1
  rw [start 8 (by omega)] at ts
  have val : (off + 16) % sizeLimit + a.valueSize ≤ a.segSz page := (parts .val).1
  rw [start 16 (by omega)] at val
  have val' : off + 16 + up8 a.valueSize ≤ a.segSz page := up8_le val (by omega) seg8
  unfold trueRecSz
  by_cases properties : 0 < a.propertySize
  · have prop : (off + a.propOffset) % sizeLimit + a.propertySize ≤ a.segSz page := (parts .prop).1
    have eight := (up8_spec a.valueSize).2.2
    rw [propOffset, if_pos properties, valueEnd_eq a (by omega), start _ (by omega)] at prop
    have := up8_le prop (by omega) seg8
    omega
  · have zero : up8 a.propertySize = 0 := by
      unfold up8
      omega
    omega

theorem InBounds.fits {a : Shape} {page : PageSize} (ok : a.Accepted) (h : a.InBounds page) :
    a.Fits page := by
  have hdr := a.hdrSz_lt
  have limit := (a.segSz_spec page).1
  have queue := h.queue
  have total := h.total
  have hdrEq : a.hdrSz = a.trueHdrSz := by
    apply hdrSz_eq
    unfold trueHdrSz sizeLimit at *
    omega
  have recEq := a.recSz_eq (h.recSz_fits ok)
  unfold Fits
  rw [← hdrEq, ← recEq]
  by_contra carry
  have zero := a.segSz_carry page rfl (by omega) (by omega)
  omega

/-! ## What sizes without a carry tell of the layout -/

/-- The parts of a record, one after the other. -/
theorem fieldOffset_spec (fits : a.trueRecSz < sizeLimit) (f : Field) :
    a.fieldOffset f + a.fieldSize f ≤ a.trueRecSz ∧ a.fieldOffset f % 8 = 0 := by
  obtain ⟨low, _, even⟩ := up8_spec a.valueSize
  obtain ⟨low', _, _⟩ := up8_spec a.propertySize
  unfold trueRecSz at *
  cases f with
  | rev => exact ⟨show 0 + 8 ≤ _ by omega, show 0 % 8 = 0 by decide⟩
  | ts => exact ⟨show 8 + 8 ≤ _ by omega, show 8 % 8 = 0 by decide⟩
  | val => exact ⟨show 16 + a.valueSize ≤ _ by omega, show 16 % 8 = 0 by decide⟩
  | prop =>
    simp only [fieldOffset, fieldSize, propOffset]
    rw [valueEnd_eq a (by omega)]
    split <;> omega

theorem field_eq (fits : a.trueRecSz < sizeLimit) {f f' : Field} {j : Nat}
    (h : a.fieldOffset f ≤ j ∧ j < a.fieldOffset f + a.fieldSize f)
    (h' : a.fieldOffset f' ≤ j ∧ j < a.fieldOffset f' + a.fieldSize f') : f = f' := by
  have low := (up8_spec a.valueSize).1
  have valueEnd : 0 < a.propertySize → a.fieldOffset .prop = 16 + up8 a.valueSize := by
    intro properties
    unfold trueRecSz at fits
    rw [fieldOffset, propOffset, if_pos properties, valueEnd_eq a (by omega)]
  have rev : a.fieldOffset .rev = 0 ∧ a.fieldSize .rev = 8 := ⟨rfl, rfl⟩
  have ts : a.fieldOffset .ts = 8 ∧ a.fieldSize .ts = 8 := ⟨rfl, rfl⟩
  have val : a.fieldOffset .val = 16 ∧ a.fieldSize .val = a.valueSize := ⟨rfl, rfl⟩
  have prop : a.fieldSize .prop = a.propertySize := rfl
  cases f <;> cases f' <;> first | rfl | (exfalso; omega)

section Fitting

variable {a page} (fits : a.Fits page)

include fits

theorem Fits.trueHdrSz_lt : a.trueHdrSz < sizeLimit := by
  unfold Fits at fits
  omega

theorem Fits.trueRecSz_lt (ok : a.Accepted) : a.trueRecSz < sizeLimit := by
  have le := Nat.le_mul_of_pos_right a.trueRecSz (records_pos ok)
  unfold Fits at fits
  omega

theorem Fits.total_le (ok : a.Accepted) :
    a.trueHdrSz + a.trueRecSz * a.records ≤ a.segSz page := by
  apply a.segSz_ge page
  · rw [a.hdrSz_eq fits.trueHdrSz_lt, a.recSz_eq (fits.trueRecSz_lt ok)]
  · exact fits

/-- The record of an identifier lies behind the header and before the end. -/
theorem Fits.record (ok : a.Accepted) {id : Int} (low : a.baseId ≤ id) (high : id < a.maxId) :
    ∃ k : Nat, id = a.baseId + k ∧
      a.storageGetRecord id = some (a.trueHdrSz + k * a.trueRecSz) ∧
      a.trueHdrSz + k * a.trueRecSz + a.trueRecSz ≤ a.segSz page := by
  have total := fits.total_le ok
  have limit := (a.segSz_spec page).1
  refine ⟨(id - a.baseId).toNat, by omega, ?_⟩
  have below : (id - a.baseId).toNat + 1 ≤ a.records := by
    unfold records
    omega
  have within : ((id - a.baseId).toNat + 1) * a.trueRecSz ≤ a.trueRecSz * a.records := by
    rw [Nat.mul_comm a.trueRecSz]
    exact Nat.mul_le_mul_right _ below
  rw [Nat.succ_mul] at within
  constructor
  · unfold storageGetRecord
    rw [if_neg (by omega), a.hdrSz_eq fits.trueHdrSz_lt, a.recSz_eq (fits.trueRecSz_lt ok),
      Nat.mod_eq_of_lt (by omega)]
  · omega

/-- A byte of a part of a record, counted from the first record on. -/
theorem Fits.covers (ok : a.Accepted) {id : Int} {f : Field} {i : Nat} (h : a.Covers id f i) :
    ∃ k j : Nat, id = a.baseId + k ∧ i = a.trueHdrSz + k * a.trueRecSz + j ∧
      a.fieldOffset f ≤ j ∧ j < a.fieldOffset f + a.fieldSize f := by
  obtain ⟨off, here, above, below⟩ := h
  have held : a.baseId ≤ id ∧ id < a.maxId := by
    simp only [storageGetRecord] at here
    split at here
    · cases here
    · omega
  obtain ⟨k, eq, record, inside⟩ := fits.record ok held.1 held.2
  obtain rfl : a.trueHdrSz + k * a.trueRecSz = off := by
    rw [record] at here
    exact Option.some.inj here
  have limit := (a.segSz_spec page).1
  have within := (a.fieldOffset_spec (fits.trueRecSz_lt ok) f).1
  have start : a.fieldStart (a.trueHdrSz + k * a.trueRecSz) f =
      a.trueHdrSz + k * a.trueRecSz + a.fieldOffset f := Nat.mod_eq_of_lt (by omega)
  rw [start] at above below
  exact ⟨k, i - (a.trueHdrSz + k * a.trueRecSz), eq, by omega, by omega, by omega⟩

theorem Fits.inBounds (ok : a.Accepted) : a.InBounds page := by
  have total := fits.total_le ok
  have limit := (a.segSz_spec page).1
  have recLt := fits.trueRecSz_lt ok
  refine ⟨?_, ?_, ?_, ?_⟩
  · rw [a.hdrSz_eq fits.trueHdrSz_lt]
    unfold trueHdrSz
    omega
  · rw [a.hdrSz_eq fits.trueHdrSz_lt, a.recSz_eq recLt]
    exact total
  · intro id low high
    obtain ⟨k, _, record, inside⟩ := fits.record ok low high
    refine ⟨_, record, fun f => ?_⟩
    obtain ⟨within, even⟩ := a.fieldOffset_spec recLt f
    have start : a.fieldStart (a.trueHdrSz + k * a.trueRecSz) f =
        a.trueHdrSz + k * a.trueRecSz + a.fieldOffset f := by
      apply Nat.mod_eq_of_lt
      omega
    have aligned : (k * a.trueRecSz) % 8 = 0 := by
      have eight : a.trueRecSz % 8 = 0 := by
        have := (up8_spec a.valueSize).2.2
        have := (up8_spec a.propertySize).2.2
        unfold trueRecSz
        omega
      exact Nat.mod_eq_zero_of_dvd ((Nat.dvd_of_mod_eq_zero eight).mul_left k)
    have header : a.trueHdrSz % 8 = 0 := by
      unfold trueHdrSz
      omega
    rw [start]
    constructor <;> omega
  · intro id f id' f' i here there
    obtain ⟨k, j, rfl, eq, part⟩ := fits.covers ok here
    obtain ⟨k', j', rfl, eq', part'⟩ := fits.covers ok there
    have small := (a.fieldOffset_spec recLt f).1
    have small' := (a.fieldOffset_spec recLt f').1
    -- both divide the same distance by the size of a record
    have same : k = k' := by
      have first : (i - a.trueHdrSz) / a.trueRecSz = k := by
        apply Nat.div_eq_of_lt_le
        · omega
        · rw [Nat.succ_mul]
          omega
      have second : (i - a.trueHdrSz) / a.trueRecSz = k' := by
        apply Nat.div_eq_of_lt_le
        · omega
        · rw [Nat.succ_mul]
          omega
      exact first.symm.trans second
    subst same
    refine ⟨rfl, a.field_eq recLt part ?_⟩
    have : j = j' := by omega
    rw [this]
    exact part'

end Fitting

end Shape

/-- The layout of an accepted shape is in bounds exactly if its sizes add up to a `size_t`. -/
theorem layout_inBounds (a : Shape) (page : PageSize) (ok : a.Accepted) :
    a.InBounds page ↔ a.Fits page := by
  constructor
  · exact fun h => h.fits ok
  · exact fun h => h.inBounds ok

def smallPage : PageSize := ⟨4096, 12, by decide⟩

theorem isLong_zero : Bytes.IsLong 0 := by decide

theorem isLong_one : Bytes.IsLong 1 := by decide

theorem isLong_two : Bytes.IsLong 2 := by decide

theorem zero_lt_sizeLimit : 0 < sizeLimit := by decide

theorem one_lt_sizeLimit : 1 < sizeLimit := by decide

theorem two_lt_sizeLimit : 2 < sizeLimit := by decide

theorem eight_lt_sizeLimit : 8 < sizeLimit := by decide

/-- Two records with values of one byte and properties of `p` bytes, and a queue of `q` entries. -/
def smallShape (p q : Nat) (hp : p < sizeLimit) (hq : q < sizeLimit) : Shape where
  baseId := 0
  maxId := 2
  valueSize := 1
  propertySize := p
  qCapacity := q
  base_isLong := isLong_zero
  max_isLong := isLong_two
  value_lt := one_lt_sizeLimit
  property_lt := hp
  queue_lt := hq

theorem layout_inBounds_small :
    (smallShape 5 2 (by decide) (by decide)).InBounds smallPage ∧
      (smallShape 5 2 (by decide) (by decide)).segSz smallPage = 4096 := by
  refine ⟨(layout_inBounds _ smallPage (by decide)).mpr ?_, by decide⟩
  show _ < sizeLimit
  decide

/-- A queue of 2^61 entries has no room at all in a segment of one page. -/
theorem queue_wraps : ∃ a : Shape, a.Accepted ∧ a.segSz smallPage = 4096 ∧ ¬ a.InBounds smallPage := by
  refine ⟨smallShape 0 2305843009213693952 (by decide) (by decide), by decide, by decide, ?_⟩
  intro h
  exact absurd h.queue (by decide)

end Lancaster
