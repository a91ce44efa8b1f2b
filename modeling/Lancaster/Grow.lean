import Mathlib.Data.List.TakeWhile
import Lancaster.LockRecovery
import Lancaster.Reopen

/-!
# Growing a storage

`storage_grow` creates a new storage with the description of an old one and copies the records
from the beginning of one array to the beginning of the other, for as long as there are
records in both. A record keeps its place in the array, not its identifier.

Nobody else writes to the old storage, though a dead writer may have left locks in it.
-/

namespace Lancaster

open Bytes

/-! ## The old storage -/

namespace Shape

variable (a : Shape)

/-- The sum of the header and the records, rounded up to pages, is a `size_t`. -/
def RecordsFit (page : PageSize) : Prop :=
  a.hdrSz + a.trueRecSz * a.records + (page.val - 1) < sizeLimit

instance (page : PageSize) : Decidable (a.RecordsFit page) := inferInstanceAs (Decidable (_ < _))

def recordOff (k : Nat) : Nat := a.hdrSz + k * a.recSz

end Shape

/-- A storage and its handle. The segment is mapped at `addr`; the address behind it is one. -/
structure StoreHandle (page : PageSize) where
  shape : Shape
  accepted : shape.Accepted
  fits : shape.RecordsFit page
  file : File
  length : file.length = shape.segSz page
  header : ∀ p ∈ headerPatches shape page, p.Found file
  described : 0 ∈ peek file 8 256
  addr : Nat
  room : addr + shape.segSz page < sizeLimit
  mmapFile : List UInt8
  isPersistent : Bool

def storageGetDescription (file : File) : { bs : List UInt8 // 0 ∉ bs } :=
  ⟨(file.drop 8).takeWhile (· ≠ 0), fun here => by simpa using List.mem_takeWhile_imp here⟩

/-! ## The copy loop -/

/-- Where the two segments are mapped, and what is copied from a record. -/
structure Copying where
  seg : Nat
  mmapSize : Nat
  seg' : Nat
  mmapSize' : Nat
  valCopySz : Nat
  propCopySz : Nat
  propOffset : Nat
  propOffset' : Nat
  /-- `new_property_size > 0`. -/
  withProp : Bool

def Inside (addr size r n : Nat) : Prop := n = 0 ∨ addr ≤ r ∧ r + n ≤ addr + size

instance (addr size r n : Nat) : Decidable (Inside addr size r n) :=
  inferInstanceAs (Decidable (_ ∨ _))

namespace Copying

variable (c : Copying)

/-- The address of the property of the old record, and of the new one. -/
def prop (r : Nat) : Nat := (r + c.propOffset) % sizeLimit

def prop' (r' : Nat) : Nat := (r' + c.propOffset') % sizeLimit

/-- Everything that is read and written lies in its segment. -/
def InMaps (r r' : Nat) : Prop :=
  Inside c.seg c.mmapSize r c.valCopySz ∧ Inside c.seg' c.mmapSize' r' c.valCopySz ∧
    (c.withProp → Inside c.seg c.mmapSize (c.prop r) c.propCopySz ∧
      Inside c.seg' c.mmapSize' (c.prop' r') c.propCopySz)

instance (r r' : Nat) : Decidable (c.InMaps r r') := inferInstanceAs (Decidable (_ ∧ _ ∧ _))

/-- The two `memcpy` into the new record. -/
def writes (old : File) (r r' : Nat) : List Patch :=
  ⟨r' - c.seg', peek old (r - c.seg) c.valCopySz⟩ ::
    if c.withProp then [⟨c.prop' r' - c.seg', peek old (c.prop r - c.seg) c.propCopySz⟩] else []

end Copying

/-- The copy of a record, or the failure to lock it. The revision is the same before and after
the copy, since nobody writes. -/
def growRecord (c : Copying) (old : File) (r r' : Nat) (new : File) :
    Option (Option Failure × File) :=
  if ¬ InMap c.seg c.mmapSize r then none
  else
    match recordReadLock old (r - c.seg) with
    | .error e => some (some e, new)
    | .ok _ => if c.InMaps r r' then some (none, patch new (c.writes old r r')) else none

def growRecords (c : Copying) (old : File) :
    List (Nat × Nat) → File → Option (Option Failure × File)
  | [], new => some (none, new)
  | (r, r') :: rest, new =>
    match growRecord c old r r' new with
    | none => none
    | some (some e, new) => some (some e, new)
    | some (none, new) => growRecords c old rest new

/-! ## The call -/

structure GrowArgs where
  /-- `pnewstore` is not `NULL`. -/
  pnewstore : Bool
  newMmapFile : Option (List UInt8)
  flags : OpenFlags
  shape : Shape

/-- What the system answers. A segment is mapped in the lower half of the address space. -/
structure GrowCalls where
  fstat : Option Failure
  create : SysCalls
  mmap_low : ∀ addr, create.mmap = .ok addr → addr ≤ 9223372036854775808
  clockTime : Except Failure Int

structure GrowCall where
  page : PageSize
  store : StoreHandle page
  args : GrowArgs
  sys : GrowCalls

/-- What a call leaves: its status, the old file and the new one, and the handle in
`*pnewstore` with its `is_persistent`. -/
structure Grown where
  status : Int
  old : File
  disk : Option File
  handle : Option Bool

namespace GrowCall

variable (t : GrowCall)

def fresh : FreshCall where
  page := t.page
  args := {
    flags := { t.args.flags with accMode := OpenFlags.readWrite }
    persist := false
    shape := t.args.shape
    desc := some (storageGetDescription t.store.file) }
  sys := t.sys.create

/-- What is copied, into a segment at `addr` whose header is in `new`. -/
def copying (addr : Nat) (new : File) : Copying where
  seg := t.store.addr
  mmapSize := t.store.shape.segSz t.page
  seg' := addr
  mmapSize' := t.fresh.segSz
  valCopySz := (16 + min (ldSize t.store.file 288) (ldSize new 288)) % sizeLimit
  propCopySz := min (ldSize t.store.file 296) (ldSize new 296)
  propOffset := ldSize t.store.file 320
  propOffset' := ldSize new 320
  withProp := decide (0 < t.args.shape.propertySize)

/-- The records that are copied, from the old array to the new one. -/
def pairs (addr : Nat) : List (Nat × Nat) :=
  (t.store.shape.recordPtrs t.store.addr).zip (t.args.shape.recordPtrs addr)

def tailWrites : List Patch :=
  [⟨6, peek t.store.file 6 2⟩, ⟨8, (storageGetDescription t.store.file).val ++ [0]⟩]

/-- The end of `storage_grow`, when the records are copied. -/
def growEnd (new : File) : Option Grown :=
  let new := patch new t.tailWrites
  match t.sys.clockTime with
  | .error e =>
    let b : Built := ⟨e.val, some new, true, true, true⟩
    (storageDestroy false t.sys.create b).map fun disk =>
      ⟨e.val, t.store.file, disk, if handleFreed false t.sys.create b then none else some false⟩
  | .ok now =>
    some ⟨Status.ok, t.store.file, some (patch new [createdPatch now]), some t.store.isPersistent⟩

/-- What follows the copy loop. A lock that is not free ends the call there and then. -/
def afterLoop : Option Failure × File → Option Grown
  | (some e, new) => some ⟨e.val, t.store.file, some new, some false⟩
  | (none, new) => t.growEnd new

/-- What follows when the new storage is created, with its segment at `addr`. -/
def growInto (addr : Nat) (new : File) : Option Grown :=
  (growRecords (t.copying addr new) t.store.file (t.pairs addr) new).bind t.afterLoop

/-- `storage_grow`, for a file that may exist. -/
def storageGrow (disk : Option File) : Option Grown :=
  if t.args.pnewstore = false ∨ t.args.newMmapFile = none ∨
      t.args.newMmapFile = some t.store.mmapFile then
    some ⟨Status.invalidArg, t.store.file, disk, none⟩
  else if t.args.flags.others = true ∨
      (t.args.flags.accMode ≠ OpenFlags.readOnly ∧ t.args.flags.accMode ≠ OpenFlags.readWrite) then
    some ⟨Status.invalidOpenFlags, t.store.file, disk, none⟩
  else
    match t.sys.fstat with
    | some e => some ⟨e.val, t.store.file, disk, none⟩
    | none =>
      match storageCreate t.page t.fresh.args t.sys.create disk with
      | none => none
      | some (st, left) =>
        if Status.Failed st then
          some ⟨st, t.store.file, left,
            if handleLeft t.page t.fresh.args t.sys.create disk then some false else none⟩
        else
          -- a storage that is created has a file and an address
          match left, t.sys.create.mmap with
          | some new, .ok addr => t.growInto addr new
          | _, _ => none

end GrowCall

/-! ## Records that fit -/

namespace Shape

section Fitting

variable {a : Shape} {page : PageSize} (ok : a.Accepted) (fits : a.RecordsFit page)

include ok fits

theorem RecordsFit.trueRecSz_lt : a.trueRecSz < sizeLimit := by
  have le := Nat.le_mul_of_pos_right a.trueRecSz (records_pos ok)
  unfold RecordsFit at fits
  omega

theorem RecordsFit.recSz_eq : a.recSz = a.trueRecSz := a.recSz_eq (fits.trueRecSz_lt ok)

theorem RecordsFit.total_le : a.hdrSz + a.recSz * a.records ≤ a.segSz page := by
  apply a.segSz_ge page rfl
  rw [fits.recSz_eq ok]
  exact fits

/-- A record lies behind the header and before the end. -/
theorem RecordsFit.record_le {k : Nat} (below : k < a.records) :
    1408 ≤ a.recordOff k ∧ a.recordOff k + a.recSz ≤ a.segSz page := by
  have total := fits.total_le ok
  have header := hdrSz_ge ok
  have within : (k + 1) * a.recSz ≤ a.recSz * a.records := by
    rw [Nat.mul_comm a.recSz]
    exact Nat.mul_le_mul_right _ below
  rw [Nat.succ_mul] at within
  unfold recordOff
  constructor <;> omega

/-- The parts of a record lie in it. -/
theorem RecordsFit.field_le (f : Field) : a.fieldOffset f + a.fieldSize f ≤ a.recSz := by
  rw [fits.recSz_eq ok]
  exact (a.fieldOffset_spec (fits.trueRecSz_lt ok) f).1

theorem RecordsFit.recSz_ge : 16 ≤ a.recSz := by
  rw [fits.recSz_eq ok]
  unfold trueRecSz
  omega

/-- The loop over the records visits each of them. -/
theorem RecordsFit.recordPtrs_eq {addr : Nat} (room : addr + a.segSz page < sizeLimit) :
    a.recordPtrs addr = (List.range a.records).map fun k => addr + a.recordOff k := by
  have total := fits.total_le ok
  have pos := fits.recSz_ge ok
  have positive := records_pos ok
  have wide : a.recSz ≤ a.recSz * a.records := Nat.le_mul_of_pos_right _ positive
  have first : a.first addr = addr + a.hdrSz := Nat.mod_eq_of_lt (by omega)
  have limit : a.limit addr = addr + a.hdrSz + a.recSz * a.records := by
    rw [limit, first, Nat.mul_comm]
    exact Nat.mod_eq_of_lt (by omega)
  have count : (a.recSz * a.records + a.recSz - 1) / a.recSz = a.records := by
    have shift : a.recSz * a.records + a.recSz - 1 = a.recSz - 1 + a.recSz * a.records := by omega
    rw [shift, Nat.add_mul_div_left _ _ (by omega), Nat.div_eq_of_lt (by omega), Nat.zero_add]
  have length : a.limit addr - a.first addr = a.recSz * a.records := by omega
  unfold recordPtrs
  rw [if_pos (by omega), length, count, first]
  apply List.map_congr_left
  intro k _
  unfold recordOff
  omega

/-- The record of an identifier. -/
theorem RecordsFit.record {id : Int} (low : a.baseId ≤ id) (high : id < a.maxId) :
    (id - a.baseId).toNat < a.records ∧
      a.storageGetRecord id = some (a.recordOff (id - a.baseId).toNat) := by
  have below : (id - a.baseId).toNat < a.records := by
    unfold records
    omega
  have inside := (fits.record_le ok below).2
  have limit := (a.segSz_spec page).1
  have pos := fits.recSz_ge ok
  refine ⟨below, ?_⟩
  unfold recordOff at *
  unfold storageGetRecord
  rw [if_neg (by omega), Nat.mod_eq_of_lt (by omega)]

theorem RecordsFit.fieldStart_eq {k : Nat} (below : k < a.records) (f : Field) :
    a.fieldStart (a.recordOff k) f = a.recordOff k + a.fieldOffset f := by
  have inside := (fits.record_le ok below).2
  have limit := (a.segSz_spec page).1
  have field := fits.field_le ok f
  exact Nat.mod_eq_of_lt (by omega)

end Fitting

/-- Two records have no byte in common. -/
theorem recordOff_apart {a : Shape} {k k' : Nat} (less : k < k') :
    a.recordOff k + a.recSz ≤ a.recordOff k' := by
  have step : (k + 1) * a.recSz ≤ k' * a.recSz := Nat.mul_le_mul_right _ less
  rw [Nat.succ_mul] at step
  unfold recordOff
  omega

end Shape

/-! ## The loop as a list of writes -/

namespace Copying

variable {c : Copying} {old : File}

/-- The record is not locked, and its copy lies where it should. -/
structure Fine (c : Copying) (old : File) (r r' : Nat) : Prop where
  word : InMap c.seg c.mmapSize r
  free : 0 ≤ ldLong old (r - c.seg)
  inMaps : c.InMaps r r'

theorem recordReadLock_free {off : Nat} (free : 0 ≤ ldLong old off) :
    recordReadLock old off = .ok (ldLong old off) := spin_free free

theorem growRecord_fine {r r' : Nat} (fine : c.Fine old r r') (new : File) :
    growRecord c old r r' new = some (none, patch new (c.writes old r r')) := by
  unfold growRecord
  rw [if_neg (not_not.mpr fine.word), recordReadLock_free fine.free]
  exact if_pos fine.inMaps

theorem growRecord_held {r r' : Nat} (word : InMap c.seg c.mmapSize r)
    (held : ldLong old (r - c.seg) < 0) (new : File) :
    growRecord c old r r' new =
      some (some ⟨Status.deadlockDetected, Status.failed_deadlockDetected⟩, new) := by
  unfold growRecord
  rw [if_neg (not_not.mpr word), recordReadLock, spin_negative held]

/-- What a copy of one record can come to. -/
theorem growRecord_cases {r r' : Nat} {new : File} {res : Option Failure × File}
    (ran : growRecord c old r r' new = some res) :
    (c.Fine old r r' ∧ res = (none, patch new (c.writes old r r'))) ∨
    (ldLong old (r - c.seg) < 0 ∧ ∃ e, res = (some e, new)) := by
  by_cases free : 0 ≤ ldLong old (r - c.seg)
  · left
    unfold growRecord at ran
    split at ran
    · cases ran
    · rename_i word
      rw [recordReadLock_free free] at ran
      dsimp only at ran
      split at ran
      · rename_i inMaps
        exact ⟨⟨not_not.mp word, free, inMaps⟩, (Option.some.inj ran).symm⟩
      · cases ran
  · right
    have held : ldLong old (r - c.seg) < 0 := by omega
    by_cases word : InMap c.seg c.mmapSize r
    · rw [growRecord_held word held] at ran
      exact ⟨held, _, (Option.some.inj ran).symm⟩
    · rw [growRecord, if_pos word] at ran
      cases ran

variable {pairs : List (Nat × Nat)}

theorem growRecords_fine (fine : ∀ p ∈ pairs, c.Fine old p.1 p.2) (new : File) :
    growRecords c old pairs new =
      some (none, patch new (pairs.flatMap fun p => c.writes old p.1 p.2)) := by
  induction pairs generalizing new with
  | nil => rfl
  | cons p rest ih =>
    rw [growRecords, growRecord_fine (fine p (List.mem_cons_self ..))]
    dsimp only
    rw [ih fun q here => fine q (List.mem_cons_of_mem _ here), List.flatMap_cons, patch_append]

/-- A loop that ends has copied every record, or met a lock. -/
theorem growRecords_cases {new : File} {res : Option Failure × File}
    (ran : growRecords c old pairs new = some res) :
    ((∀ p ∈ pairs, c.Fine old p.1 p.2) ∧
      res = (none, patch new (pairs.flatMap fun p => c.writes old p.1 p.2))) ∨
    ((∃ p ∈ pairs, ldLong old (p.1 - c.seg) < 0) ∧ ∃ e last, res = (some e, last)) := by
  induction pairs generalizing new with
  | nil =>
    left
    exact ⟨nofun, (Option.some.inj ran).symm⟩
  | cons p rest ih =>
    unfold growRecords at ran
    cases step : growRecord c old p.1 p.2 new with
    | none =>
      rw [step] at ran
      cases ran
    | some first =>
      rw [step] at ran
      rcases growRecord_cases step with ⟨fine, rfl⟩ | ⟨held, e, rfl⟩
      · rcases ih ran with ⟨others, rfl⟩ | ⟨⟨q, here, held⟩, failed⟩
        · left
          refine ⟨?_, ?_⟩
          · intro q here
            rcases List.mem_cons.mp here with rfl | here
            · exact fine
            · exact others q here
          · rw [List.flatMap_cons, patch_append]
        · exact Or.inr ⟨⟨q, List.mem_cons_of_mem _ here, held⟩, failed⟩
      · exact Or.inr ⟨⟨p, List.mem_cons_self .., held⟩, e, new, (Option.some.inj ran).symm⟩

end Copying

/-- Two arrays in step. -/
theorem zip_range {α β : Type} (m n : Nat) (f : Nat → α) (g : Nat → β) :
    ((List.range m).map f).zip ((List.range n).map g) =
      (List.range (min m n)).map fun k => (f k, g k) := by
  apply List.ext_getElem
  · simp
  · intro k _ _
    simp

/-! ## What a call for a new file can come to -/

namespace GrowCall

variable {t : GrowCall}

variable (t) in
/-- The arguments pass the checks of `storage_grow`, and the old file has its mode. -/
structure Entered : Prop where
  pnewstore : t.args.pnewstore = true
  named : t.args.newMmapFile ≠ none
  other : t.args.newMmapFile ≠ some t.store.mmapFile
  others : t.args.flags.others = false
  mode : t.args.flags.accMode = OpenFlags.readOnly ∨ t.args.flags.accMode = OpenFlags.readWrite
  fstat : t.sys.fstat = none

/-- What is refused leaves no trace. -/
theorem storageGrow_refused (refused : ¬ t.Entered) {disk : Option File} {res : Grown}
    (ran : t.storageGrow disk = some res) :
    Status.Failed res.status ∧ res.old = t.store.file ∧ res.disk = disk ∧ res.handle = none := by
  unfold storageGrow at ran
  split at ran
  · cases ran
    exact ⟨(by decide : Status.Failed Status.invalidArg), rfl, rfl, rfl⟩
  rename_i args
  split at ran
  · cases ran
    exact ⟨(by decide : Status.Failed Status.invalidOpenFlags), rfl, rfl, rfl⟩
  rename_i flags
  cases fstat : t.sys.fstat with
  | some e =>
    rw [fstat] at ran
    cases ran
    exact ⟨e.2, rfl, rfl, rfl⟩
  | none =>
    refine absurd ⟨?_, ?_, ?_, ?_, ?_, fstat⟩ refused
    · by_contra bad
      exact args (Or.inl (by simpa using bad))
    · exact fun bad => args (Or.inr (Or.inl bad))
    · exact fun bad => args (Or.inr (Or.inr bad))
    · by_contra bad
      exact flags (Or.inl (by simpa using bad))
    · by_contra bad
      exact flags (Or.inr (not_or.mp bad))

/-- What is not refused comes to the call of `storage_create`. -/
theorem storageGrow_entered (entered : t.Entered) (disk : Option File) :
    t.storageGrow disk =
      match storageCreate t.page t.fresh.args t.sys.create disk with
      | none => none
      | some (st, left) =>
        if Status.Failed st then
          some ⟨st, t.store.file, left,
            if handleLeft t.page t.fresh.args t.sys.create disk then some false else none⟩
        else
          match left, t.sys.create.mmap with
          | some new, .ok addr => t.growInto addr new
          | _, _ => none := by
  have args : ¬ (t.args.pnewstore = false ∨ t.args.newMmapFile = none ∨
      t.args.newMmapFile = some t.store.mmapFile) := by
    rintro (bad | bad | bad)
    · rw [entered.pnewstore] at bad
      cases bad
    · exact entered.named bad
    · exact entered.other bad
  have flags : ¬ (t.args.flags.others = true ∨ (t.args.flags.accMode ≠ OpenFlags.readOnly ∧
      t.args.flags.accMode ≠ OpenFlags.readWrite)) := by
    rintro (bad | ⟨bad, bad'⟩)
    · rw [entered.others] at bad
      cases bad
    · exact entered.mode.elim bad bad'
  unfold storageGrow
  rw [if_neg args, if_neg flags, entered.fstat]

theorem storageGrow_done (entered : t.Entered) {addr : Nat} {now : Int}
    (done : t.fresh.Done addr now) :
    t.storageGrow none = t.growInto addr (t.fresh.complete now) := by
  have made : storageCreate t.page t.fresh.args t.sys.create none =
    some (Status.ok, some (t.fresh.complete now)) := FreshCall.result_of_done done
  have mapped : t.sys.create.mmap = .ok addr := (mapFile_ok done.mapped.2.2.2).1
  rw [storageGrow_entered entered, made, mapped]
  exact if_neg (by decide : ¬ Status.Failed Status.ok)

theorem storageGrow_cases {res : Grown} (ran : t.storageGrow none = some res) :
    (¬ t.Entered ∧ Status.Failed res.status ∧ res.old = t.store.file ∧ res.disk = none ∧
      res.handle = none) ∨
    (t.Entered ∧ Status.Failed res.status ∧ res.old = t.store.file ∧
      t.fresh.Outcome res.status res.disk res.handle.isSome) ∨
    (t.Entered ∧ ∃ addr now, t.fresh.Done addr now ∧
      t.growInto addr (t.fresh.complete now) = some res) := by
  by_cases entered : t.Entered
  swap
  · exact Or.inl ⟨entered, storageGrow_refused entered ran⟩
  right
  cases made : storageCreate t.page t.fresh.args t.sys.create none with
  | none =>
    rw [storageGrow_entered entered, made] at ran
    cases ran
  | some both =>
    obtain ⟨st, left⟩ := both
    have outcome := FreshCall.outcome (t := t.fresh) rfl made
    by_cases failed : Status.Failed st
    · left
      rw [storageGrow_entered entered, made] at ran
      dsimp only at ran
      rw [if_pos failed] at ran
      cases ran
      refine ⟨entered, failed, rfl, ?_⟩
      have alive : (if handleLeft t.page t.fresh.args t.sys.create none = true then some false
          else none).isSome = handleLeft t.page t.fresh.args t.sys.create none := by
        cases handleLeft t.page t.fresh.args t.sys.create none <;> rfl
      dsimp only
      rw [alive]
      exact outcome
    · right
      rcases outcome with ⟨_, bad, _⟩ | ⟨_, _, bad, _⟩ | ⟨_, _, _, bad, _⟩ | ⟨addr, now, done, _⟩
      · exact absurd bad failed
      · exact absurd bad failed
      · exact absurd bad failed
      · rw [storageGrow_done entered done] at ran
        exact ⟨entered, addr, now, done, ran⟩

/-- The end of the call: the clock fails, or all is done. -/
theorem growEnd_cases {new : File} {res : Grown} (ran : t.growEnd new = some res) :
    (Status.Failed res.status ∧ res.old = t.store.file ∧
      storageDestroy false t.sys.create
        ⟨res.status, some (patch new t.tailWrites), true, true, true⟩ = some res.disk ∧
      res.handle.isSome = !handleFreed false t.sys.create
        ⟨res.status, some (patch new t.tailWrites), true, true, true⟩) ∨
    (∃ now, t.sys.clockTime = .ok now ∧ res = ⟨Status.ok, t.store.file,
      some (patch (patch new t.tailWrites) [createdPatch now]), some t.store.isPersistent⟩) := by
  unfold growEnd at ran
  dsimp only at ran
  generalize patch new t.tailWrites = last at ran ⊢
  cases clock : t.sys.clockTime with
  | error e =>
    left
    rw [clock] at ran
    obtain ⟨left, destroyed, rfl⟩ := Option.map_eq_some_iff.mp ran
    refine ⟨e.2, rfl, destroyed, ?_⟩
    dsimp only
    generalize handleFreed false t.sys.create _ = freed
    cases freed <;> rfl
  | ok now =>
    right
    rw [clock] at ran
    exact ⟨now, rfl, (Option.some.inj ran).symm⟩

/-- What follows when the new storage is created: a lock is met, or the records are copied. -/
theorem growInto_cases {addr : Nat} {new : File} {res : Grown}
    (ran : t.growInto addr new = some res) :
    ((∃ p ∈ t.pairs addr, ldLong t.store.file (p.1 - t.store.addr) < 0) ∧
      Status.Failed res.status ∧ res.old = t.store.file ∧ res.handle.isSome = true) ∨
    ((∀ p ∈ t.pairs addr, (t.copying addr new).Fine t.store.file p.1 p.2) ∧
      t.growEnd (patch new ((t.pairs addr).flatMap fun p =>
        (t.copying addr new).writes t.store.file p.1 p.2)) = some res) := by
  obtain ⟨ends, loop, after⟩ := Option.bind_eq_some_iff.mp ran
  rcases Copying.growRecords_cases loop with ⟨fine, rfl⟩ | ⟨held, e, last, rfl⟩
  · exact Or.inr ⟨fine, after⟩
  · left
    obtain rfl := Option.some.inj after
    exact ⟨held, e.2, rfl, rfl⟩

end GrowCall

end Lancaster
