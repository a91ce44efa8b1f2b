import Lancaster.Grow

/-!
# What becomes of the records of a storage that is grown

The record of index `k` becomes the record of index `k`, with as much of its value and its
property as there is room for. It keeps its identifier exactly if the two ranges of
identifiers begin with the same one.
-/

namespace Lancaster

open Bytes

/-- A part that is copied as far as there is room, with zeros behind it. -/
theorem peek_resized {x y : List UInt8} {off off' m n : Nat}
    (same : peek x off (min m n) = peek y off' (min m n))
    (zeros : peek x (off + min m n) (n - min m n) = List.replicate (n - min m n) 0)
    (inside : off' + m ≤ y.length) : peek x off n = resize (peek y off' m) n := by
  have cut : (peek y off' m).take n = peek y off' (min m n) := by
    rw [peek, List.take_take, Nat.min_comm]
    rfl
  rw [peek_split off (Nat.min_le_right m n), same, zeros, resize, cut, length_peek inside]
  congr 2
  omega

/-! ## The copies, by index -/

section Copies

variable (a b : Shape) (old : File)

/-- What is copied from record `k`, as writes to the new segment. -/
def copyWrites (k : Nat) : List Patch :=
  ⟨b.recordOff k, peek old (a.recordOff k) (16 + min a.valueSize b.valueSize)⟩ ::
    if 0 < b.propertySize then
      [⟨b.recordOff k + b.propOffset,
        peek old (a.recordOff k + a.propOffset) (min a.propertySize b.propertySize)⟩]
    else []

def copyCount : Nat := min a.records b.records

def copyAll : List Patch := (List.range (copyCount a b)).flatMap (copyWrites a b old)

variable {a b old}

variable {page : PageSize} (okA : a.Accepted) (fitA : a.RecordsFit page) (okB : b.Accepted)
  (fitB : b.RecordsFit page)

include okB fitB in
theorem valCopy_le : 16 + min a.valueSize b.valueSize ≤ b.recSz := by
  have field := fitB.field_le okB .val
  have start : b.fieldOffset .val = 16 := rfl
  have size : b.fieldSize .val = b.valueSize := rfl
  omega

include okB fitB in
theorem propCopy_le : b.propOffset + min a.propertySize b.propertySize ≤ b.recSz := by
  have field := fitB.field_le okB .prop
  have start : b.fieldOffset .prop = b.propOffset := rfl
  have size : b.fieldSize .prop = b.propertySize := rfl
  omega

include okB fitB in
/-- The value ends before the property begins. -/
theorem value_before_prop (properties : 0 < b.propertySize) : 16 + b.valueSize ≤ b.propOffset := by
  have low := (Shape.up8_spec b.valueSize).1
  have limit := fitB.trueRecSz_lt okB
  unfold Shape.trueRecSz at limit
  rw [Shape.propOffset, if_pos properties, b.valueEnd_eq (by omega)]
  omega

include okB fitB in
/-- The copy of a record lies in the record. -/
theorem copyWrites_within {k : Nat} {p : Patch} (here : p ∈ copyWrites a b old k) :
    b.recordOff k ≤ p.off ∧ p.off + p.data.length ≤ b.recordOff k + b.recSz := by
  have short : ∀ off n : Nat, (peek old off n).length ≤ n := by
    intro off n
    rw [peek, List.length_take]
    exact Nat.min_le_left _ _
  have value := valCopy_le (a := a) okB fitB
  have prop := propCopy_le (a := a) okB fitB
  unfold copyWrites at here
  rcases List.mem_cons.mp here with rfl | here
  · have := short (a.recordOff k) (16 + min a.valueSize b.valueSize)
    dsimp only
    omega
  · split at here
    · obtain rfl := List.mem_singleton.mp here
      have := short (a.recordOff k + a.propOffset) (min a.propertySize b.propertySize)
      dsimp only
      omega
    · cases here

include okB fitB in
theorem copyAll_apart : (copyAll a b old).Pairwise Patch.Apart := by
  unfold copyAll
  rw [List.pairwise_flatMap]
  constructor
  · intro k _
    unfold copyWrites
    split
    · rename_i properties
      refine List.pairwise_pair.mpr (Or.inl ?_)
      have before := value_before_prop okB fitB properties
      have short : (peek old (a.recordOff k) (16 + min a.valueSize b.valueSize)).length ≤
          16 + min a.valueSize b.valueSize := by
        rw [peek, List.length_take]
        exact Nat.min_le_left _ _
      dsimp only
      omega
    · exact List.pairwise_singleton _ _
  · apply List.Pairwise.imp _ List.pairwise_lt_range
    intro k k' less p here q there
    have first := copyWrites_within okB fitB here
    have second := copyWrites_within okB fitB there
    have apart := Shape.recordOff_apart (a := b) less
    exact Or.inl (by omega)

section Written

variable {new : File} (size : new.length = b.segSz page)

include okB fitB size

theorem copyAll_within : ∀ p ∈ copyAll a b old, p.Within new.length := by
  intro p here
  obtain ⟨k, below, there⟩ := List.mem_flatMap.mp here
  have within := (copyWrites_within okB fitB there).2
  have record : k < b.records := by
    have := List.mem_range.mp below
    unfold copyCount at this
    omega
  have inside := (fitB.record_le okB record).2
  unfold Patch.Within
  omega

/-- A part of a record that is not copied is blank. -/
theorem peek_blank (blank : ∀ off n, 1408 ≤ off → off + n ≤ b.segSz page →
      peek new off n = List.replicate n 0)
    {k i n : Nat} (below : k < b.records) (inside : i + n ≤ b.recSz)
    (avoid : k < copyCount a b → 16 + min a.valueSize b.valueSize ≤ i ∧
      (0 < b.propertySize → i + n ≤ b.propOffset ∨
        b.propOffset + min a.propertySize b.propertySize ≤ i)) :
    peek (patch new (copyAll a b old)) (b.recordOff k + i) n = List.replicate n 0 := by
  obtain ⟨behind, before⟩ := fitB.record_le okB below
  rw [peek_patch_apart (copyAll_within okB fitB size), blank _ _ (by omega) (by omega)]
  intro p here
  obtain ⟨k', there, mem⟩ := List.mem_flatMap.mp here
  have within := copyWrites_within okB fitB mem
  have short : ∀ off m : Nat, (peek old off m).length ≤ m := by
    intro off m
    rw [peek, List.length_take]
    exact Nat.min_le_left _ _
  rcases Nat.lt_trichotomy k k' with less | rfl | more
  · have apart := Shape.recordOff_apart (a := b) less
    exact Or.inr (by omega)
  · obtain ⟨value, prop⟩ := avoid (List.mem_range.mp there)
    unfold copyWrites at mem
    rcases List.mem_cons.mp mem with rfl | mem
    · have := short (a.recordOff k) (16 + min a.valueSize b.valueSize)
      left
      dsimp only
      omega
    · split at mem
      · rename_i properties
        obtain rfl := List.mem_singleton.mp mem
        have := short (a.recordOff k + a.propOffset) (min a.propertySize b.propertySize)
        rcases prop properties with early | late
        · right
          dsimp only
          omega
        · left
          dsimp only
          omega
      · cases mem
  · have apart := Shape.recordOff_apart (a := b) more
    exact Or.inl (by omega)

include okA fitA

/-- The part of a record that both have room for is copied. -/
theorem peek_copied (length : old.length = a.segSz page) {k : Nat}
    (below : k < copyCount a b) (f : Field) :
    peek (patch new (copyAll a b old)) (b.recordOff k + b.fieldOffset f)
        (min (a.fieldSize f) (b.fieldSize f)) =
      peek old (a.recordOff k + a.fieldOffset f) (min (a.fieldSize f) (b.fieldSize f)) := by
  have records : k < a.records ∧ k < b.records := by
    unfold copyCount at below
    omega
  have insideA := (fitA.record_le okA records.1).2
  have found : ∀ p ∈ copyWrites a b old k, p.Found (patch new (copyAll a b old)) := by
    intro p here
    apply found_patch (copyAll_within okB fitB size) (copyAll_apart okB fitB)
    exact List.mem_flatMap.mpr ⟨k, List.mem_range.mpr below, here⟩
  -- revision, timestamp and value are copied in one piece
  have value : peek (patch new (copyAll a b old)) (b.recordOff k) (16 + min a.valueSize b.valueSize) =
      peek old (a.recordOff k) (16 + min a.valueSize b.valueSize) := by
    have copied := found _ (List.mem_cons_self ..)
    have roomA := fitA.field_le okA .val
    have start : a.fieldOffset .val = 16 := rfl
    have size : a.fieldSize .val = a.valueSize := rfl
    unfold Patch.Found at copied
    rw [length_peek (by omega)] at copied
    exact copied
  cases f with
  | rev => exact peek_part value (show 0 + 8 ≤ _ by omega)
  | ts => exact peek_part value (show 8 + 8 ≤ _ by omega)
  | val => exact peek_part value (le_refl _)
  | prop =>
    by_cases properties : 0 < b.propertySize
    · have copied := found
        ⟨b.recordOff k + b.propOffset,
          peek old (a.recordOff k + a.propOffset) (min a.propertySize b.propertySize)⟩
        (by
          unfold copyWrites
          rw [if_pos properties]
          exact List.mem_cons_of_mem _ (List.mem_singleton_self _))
      have roomA := fitA.field_le okA .prop
      have start : a.fieldOffset .prop = a.propOffset := rfl
      have size : a.fieldSize .prop = a.propertySize := rfl
      unfold Patch.Found at copied
      rw [length_peek (by omega)] at copied
      exact copied
    · have zero : min (a.fieldSize .prop) (b.fieldSize .prop) = 0 := by
        have size : b.fieldSize .prop = b.propertySize := rfl
        omega
      rw [zero, peek, peek, List.take_zero, List.take_zero]

/-- A record that is copied, part by part. -/
theorem peek_field (length : old.length = a.segSz page)
    (blank : ∀ off n, 1408 ≤ off → off + n ≤ b.segSz page → peek new off n = List.replicate n 0)
    {k : Nat} (below : k < copyCount a b) (f : Field) :
    peek (patch new (copyAll a b old)) (b.recordOff k + b.fieldOffset f) (b.fieldSize f) =
      resize (peek old (a.recordOff k + a.fieldOffset f) (a.fieldSize f)) (b.fieldSize f) := by
  have records : k < a.records ∧ k < b.records := by
    unfold copyCount at below
    omega
  have insideA := (fitA.record_le okA records.1).2
  have partA := fitA.field_le okA f
  have partB := fitB.field_le okB f
  apply peek_resized (peek_copied okA fitA okB fitB size length below f) _ (by omega)
  by_cases room : b.fieldSize f ≤ a.fieldSize f
  · have zero : b.fieldSize f - min (a.fieldSize f) (b.fieldSize f) = 0 := by omega
    rw [zero, peek, List.take_zero, List.replicate_zero]
  rw [Nat.add_assoc]
  apply peek_blank okB fitB size blank records.2 (by omega)
  intro _
  -- only a value or a property can have become longer
  cases f with
  | rev => exact absurd (le_refl 8) room
  | ts => exact absurd (le_refl 8) room
  | val =>
    have sizes : a.fieldSize .val = a.valueSize ∧ b.fieldSize .val = b.valueSize ∧
      b.fieldOffset .val = 16 := ⟨rfl, rfl, rfl⟩
    refine ⟨by omega, fun properties => Or.inl ?_⟩
    have before := value_before_prop okB fitB properties
    omega
  | prop =>
    have sizes : a.fieldSize .prop = a.propertySize ∧ b.fieldSize .prop = b.propertySize ∧
      b.fieldOffset .prop = b.propOffset := ⟨rfl, rfl, rfl⟩
    have before := value_before_prop okB fitB (by omega)
    exact ⟨by omega, fun _ => Or.inr (by omega)⟩

end Written

end Copies

/-! ## The copies of a call -/

/-- The sizes that a header gives. -/
theorem header_sizes {a : Shape} {page : PageSize} {file : File}
    (header : ∀ p ∈ headerPatches a page, p.Found file) :
    ldSize file 288 = a.valueSize ∧ ldSize file 296 = a.propertySize ∧
      ldSize file 320 = a.propOffset := by
  simp only [headerPatches, List.forall_mem_cons] at header
  obtain ⟨_, _, _, _, val, prop, _, _, propOff, _⟩ := header
  exact ⟨ldSize_found val a.value_lt, ldSize_found prop a.property_lt,
    ldSize_found propOff a.propOffset_lt⟩

namespace GrowCall

variable {t : GrowCall} {addr : Nat} {now : Int}

variable (t) in
def plan (addr : Nat) : Copying where
  seg := t.store.addr
  mmapSize := t.store.shape.segSz t.page
  seg' := addr
  mmapSize' := t.args.shape.segSz t.page
  valCopySz := 16 + min t.store.shape.valueSize t.args.shape.valueSize
  propCopySz := min t.store.shape.propertySize t.args.shape.propertySize
  propOffset := t.store.shape.propOffset
  propOffset' := t.args.shape.propOffset
  withProp := decide (0 < t.args.shape.propertySize)

section Created

variable (done : t.fresh.Done addr now)

include done

theorem accepted_new : t.args.shape.Accepted := done.mapped.1.1.1

/-- The new segment does not end at the last address. -/
theorem room_new : addr + t.args.shape.segSz t.page < sizeLimit := by
  have low := t.sys.mmap_low addr (mapFile_ok done.mapped.2.2.2).1
  have small : t.args.shape.segSz t.page < 9223372036854775808 := done.mapped.2.2.1
  unfold sizeLimit
  omega

theorem copying_eq : t.copying addr (t.fresh.complete now) = t.plan addr := by
  obtain ⟨val, prop, propOff⟩ := header_sizes t.store.header
  have header' : ∀ p ∈ headerPatches t.args.shape t.page, p.Found (t.fresh.complete now) :=
    fun p here => done.found p (List.mem_append_left _ here)
  obtain ⟨val', prop', propOff'⟩ := header_sizes header'
  have field := t.store.fits.field_le t.store.accepted .val
  have record := t.store.shape.recSz_lt
  have low : 16 + min t.store.shape.valueSize t.args.shape.valueSize < sizeLimit := by
    have start : t.store.shape.fieldOffset .val = 16 := rfl
    have size : t.store.shape.fieldSize .val = t.store.shape.valueSize := rfl
    omega
  unfold copying plan
  rw [val, prop, propOff, val', prop', propOff', Nat.mod_eq_of_lt low]
  rfl

variable (fits : t.args.shape.RecordsFit t.page)

include fits

theorem pairs_eq : t.pairs addr = (List.range (copyCount t.store.shape t.args.shape)).map fun k =>
    (t.store.addr + t.store.shape.recordOff k, addr + t.args.shape.recordOff k) := by
  unfold pairs
  rw [t.store.fits.recordPtrs_eq t.store.accepted t.store.room,
    fits.recordPtrs_eq (accepted_new done) (room_new done), zip_range]
  rfl

/-- The addresses of the properties are sums without a carry. -/
theorem prop_eq {k : Nat} (below : k < copyCount t.store.shape t.args.shape) :
    (t.plan addr).prop (t.store.addr + t.store.shape.recordOff k) =
        t.store.addr + (t.store.shape.recordOff k + t.store.shape.propOffset) ∧
      (t.plan addr).prop' (addr + t.args.shape.recordOff k) =
        addr + (t.args.shape.recordOff k + t.args.shape.propOffset) := by
  have records : k < t.store.shape.records ∧ k < t.args.shape.records := by
    unfold copyCount at below
    omega
  have inside := (t.store.fits.record_le t.store.accepted records.1).2
  have inside' := (fits.record_le (accepted_new done) records.2).2
  have field : t.store.shape.propOffset + t.store.shape.propertySize ≤ t.store.shape.recSz :=
    t.store.fits.field_le t.store.accepted .prop
  have field' : t.args.shape.propOffset + t.args.shape.propertySize ≤ t.args.shape.recSz :=
    fits.field_le (accepted_new done) .prop
  have room := t.store.room
  have room' := room_new done
  constructor
  · show (t.store.addr + t.store.shape.recordOff k + t.store.shape.propOffset) % sizeLimit = _
    rw [Nat.mod_eq_of_lt (by omega), Nat.add_assoc]
  · show (addr + t.args.shape.recordOff k + t.args.shape.propOffset) % sizeLimit = _
    rw [Nat.mod_eq_of_lt (by omega), Nat.add_assoc]

theorem writes_eq {k : Nat} (below : k < copyCount t.store.shape t.args.shape) :
    (t.plan addr).writes t.store.file (t.store.addr + t.store.shape.recordOff k)
        (addr + t.args.shape.recordOff k) =
      copyWrites t.store.shape t.args.shape t.store.file k := by
  obtain ⟨prop, prop'⟩ := prop_eq done fits below
  have bases : (t.plan addr).seg = t.store.addr ∧ (t.plan addr).seg' = addr := ⟨rfl, rfl⟩
  unfold Copying.writes copyWrites
  rw [prop, prop', bases.1, bases.2]
  simp only [Nat.add_sub_cancel_left, plan, decide_eq_true_eq]

theorem flatMap_writes : ((t.pairs addr).flatMap fun p =>
    (t.plan addr).writes t.store.file p.1 p.2) =
    copyAll t.store.shape t.args.shape t.store.file := by
  rw [pairs_eq done fits, List.flatMap_map, copyAll, List.flatMap_def, List.flatMap_def]
  congr 1
  apply List.map_congr_left
  intro k here
  exact writes_eq done fits (List.mem_range.mp here)

/-- A record that is not locked can be copied. -/
theorem fine_of_free {k : Nat} (below : k < copyCount t.store.shape t.args.shape)
    (free : 0 ≤ ldLong t.store.file (t.store.shape.recordOff k)) :
    (t.plan addr).Fine t.store.file (t.store.addr + t.store.shape.recordOff k)
      (addr + t.args.shape.recordOff k) := by
  have records : k < t.store.shape.records ∧ k < t.args.shape.records := by
    unfold copyCount at below
    omega
  have okA := t.store.accepted
  have okB : t.args.shape.Accepted := (accepted_new done)
  have inside := (t.store.fits.record_le okA records.1).2
  have inside' := (fits.record_le okB records.2).2
  have long := t.store.fits.recSz_ge okA
  have value : 16 + t.store.shape.valueSize ≤ t.store.shape.recSz := t.store.fits.field_le okA .val
  have value' : 16 + t.args.shape.valueSize ≤ t.args.shape.recSz := fits.field_le okB .val
  have field : t.store.shape.propOffset + t.store.shape.propertySize ≤ t.store.shape.recSz :=
    t.store.fits.field_le okA .prop
  have field' : t.args.shape.propOffset + t.args.shape.propertySize ≤ t.args.shape.recSz :=
    fits.field_le okB .prop
  obtain ⟨prop, prop'⟩ := prop_eq done fits below
  refine ⟨?_, ?_, ?_, ?_, fun _ => ?_⟩
  · unfold InMap plan
    dsimp only
    omega
  · unfold plan
    dsimp only
    rw [Nat.add_sub_cancel_left]
    exact free
  · right
    unfold plan
    dsimp only
    omega
  · right
    unfold plan
    dsimp only
    omega
  · rw [prop, prop']
    unfold plan
    dsimp only
    constructor
    · right
      omega
    · right
      omega

end Created

/-! ## The new file -/

/-- A description that ends in its field is short. -/
theorem description_short (store : StoreHandle t.page) :
    (storageGetDescription store.file).val.length < 256 := by
  by_contra long
  have clean : ∀ b ∈ (store.file.drop 8).takeWhile (· ≠ 0), b ≠ 0 := by
    intro b here
    simpa using List.mem_takeWhile_imp here
  obtain ⟨rest, eq⟩ := List.takeWhile_prefix (l := store.file.drop 8) (· ≠ 0)
  have field : peek store.file 8 256 = ((store.file.drop 8).takeWhile (· ≠ 0)).take 256 := by
    have size : 256 ≤ ((store.file.drop 8).takeWhile (· ≠ 0)).length := Nat.not_lt.mp long
    unfold peek
    nth_rewrite 1 [← eq]
    rw [List.take_append_of_le_length size]
  have zero := store.described
  rw [field] at zero
  exact clean 0 (List.mem_of_mem_take zero) rfl

variable (t) in
/-- The new file at the end of a call, with the times of its creation and of the end. -/
def grownFile (now later : Int) : File :=
  patch (patch (patch (t.fresh.complete now)
    (copyAll t.store.shape t.args.shape t.store.file)) t.tailWrites) [createdPatch later]

theorem tailWrites_low (later : Int) :
    ∀ p ∈ t.tailWrites ++ [createdPatch later], p.off + p.data.length ≤ 1408 := by
  have short := description_short t.store
  have two : (peek t.store.file 6 2).length ≤ 2 := by
    rw [peek, List.length_take]
    exact Nat.min_le_left _ _
  intro p here
  simp only [tailWrites, List.cons_append, List.nil_append, List.mem_cons, List.not_mem_nil,
    or_false] at here
  rcases here with rfl | rfl | rfl
  · dsimp only
    omega
  · simp only [List.length_append, List.length_singleton]
    omega
  · simp only [createdPatch, lastCreatedOff, length_ofLong]
    omega

section Grown

variable (done : t.fresh.Done addr now) (fits : t.args.shape.RecordsFit t.page)

include done fits

theorem copyAll_within_complete : ∀ p ∈ copyAll t.store.shape t.args.shape t.store.file,
    p.Within (t.fresh.complete now).length := by
  have okB : t.args.shape.Accepted := accepted_new done
  exact copyAll_within okB fits done.length

theorem length_grownFile (later : Int) :
    (t.grownFile now later).length = t.args.shape.segSz t.page := by
  have size : (t.fresh.complete now).length = t.args.shape.segSz t.page := done.length
  have long : 4096 ≤ t.fresh.segSz := FreshCall.segSz_ge done.mapped
  have same : t.fresh.segSz = t.args.shape.segSz t.page := rfl
  have copied : (patch (t.fresh.complete now)
      (copyAll t.store.shape t.args.shape t.store.file)).length = t.args.shape.segSz t.page := by
    rw [length_patch (copyAll_within_complete done fits), size]
  rw [grownFile, ← patch_append, length_patch, copied]
  intro p here
  have low := tailWrites_low later p here
  unfold Patch.Within
  omega

/-- Behind the header there is what the copies have left. -/
theorem peek_grownFile (later : Int) {off n : Nat} (behind : 1408 ≤ off) :
    peek (t.grownFile now later) off n = peek (patch (t.fresh.complete now)
      (copyAll t.store.shape t.args.shape t.store.file)) off n := by
  have size : (t.fresh.complete now).length = t.args.shape.segSz t.page := done.length
  have long : 4096 ≤ t.fresh.segSz := FreshCall.segSz_ge done.mapped
  have same : t.fresh.segSz = t.args.shape.segSz t.page := rfl
  rw [grownFile, ← patch_append]
  apply peek_patch_apart
  · intro p here
    have low := tailWrites_low later p here
    unfold Patch.Within
    rw [length_patch (copyAll_within_complete done fits), size]
    omega
  · intro p here
    have low := tailWrites_low later p here
    exact Or.inl (by omega)

/-- A record of the new file that is copied, part by part. -/
theorem field_grownFile (later : Int) {k : Nat} (below : k < copyCount t.store.shape t.args.shape)
    (f : Field) :
    peek (t.grownFile now later) (t.args.shape.recordOff k + t.args.shape.fieldOffset f)
        (t.args.shape.fieldSize f) =
      resize (peek t.store.file (t.store.shape.recordOff k + t.store.shape.fieldOffset f)
        (t.store.shape.fieldSize f)) (t.args.shape.fieldSize f) := by
  have record : k < t.args.shape.records := by
    unfold copyCount at below
    omega
  have behind := (fits.record_le (accepted_new done) record).1
  rw [peek_grownFile done fits later (by omega)]
  exact peek_field t.store.accepted t.store.fits (accepted_new done) fits done.length t.store.length
    (fun off n behind inside => done.zeros behind inside) below f

/-- A record of the new file that is not copied has no revision. -/
theorem rev_grownFile (later : Int) {k : Nat} (below : k < t.args.shape.records)
    (above : copyCount t.store.shape t.args.shape ≤ k) :
    peek (t.grownFile now later) (t.args.shape.recordOff k) 8 = List.replicate 8 0 := by
  have behind := (fits.record_le (accepted_new done) below).1
  have long := fits.recSz_ge (accepted_new done)
  have okB : t.args.shape.Accepted := accepted_new done
  have blank : peek (patch (t.fresh.complete now)
      (copyAll t.store.shape t.args.shape t.store.file)) (t.args.shape.recordOff k + 0) 8 =
      List.replicate 8 0 := by
    apply peek_blank okB fits done.length _ below (by omega)
    · exact fun copied => absurd copied (by omega)
    · exact fun off n behind inside => done.zeros behind inside
  rw [Nat.add_zero] at blank
  rw [peek_grownFile done fits later behind, blank]

end Grown

/-- A call that succeeds has made the new file. -/
theorem grown_of_ok {res : Grown} (ran : t.storageGrow none = some res)
    (fine : res.status = Status.ok) (fits : t.args.shape.RecordsFit t.page) :
    ∃ addr now later, t.fresh.Done addr now ∧ res.disk = some (t.grownFile now later) := by
  have good : ¬ Status.Failed res.status := by
    rw [fine]
    decide
  rcases storageGrow_cases ran with ⟨_, bad, _⟩ | ⟨_, bad, _⟩ | ⟨_, addr, now, done, ran⟩
  · exact absurd bad good
  · exact absurd bad good
  rcases growInto_cases ran with ⟨_, bad, _⟩ | ⟨_, ends⟩
  · exact absurd bad good
  rcases growEnd_cases ends with ⟨bad, _⟩ | ⟨later, _, rfl⟩
  · exact absurd bad good
  refine ⟨addr, now, later, done, ?_⟩
  rw [copying_eq done, flatMap_writes done fits]
  rfl

/-- Without a lock the call comes to its end. -/
theorem storageGrow_end (entered : t.Entered) (done : t.fresh.Done addr now)
    (fits : t.args.shape.RecordsFit t.page)
    (free : ∀ k, k < copyCount t.store.shape t.args.shape →
      0 ≤ ldLong t.store.file (t.store.shape.recordOff k)) :
    t.storageGrow none = t.growEnd (patch (t.fresh.complete now)
      (copyAll t.store.shape t.args.shape t.store.file)) := by
  have fine : ∀ p ∈ t.pairs addr, (t.plan addr).Fine t.store.file p.1 p.2 := by
    intro p here
    rw [pairs_eq done fits] at here
    obtain ⟨k, below, rfl⟩ := List.mem_map.mp here
    have below := List.mem_range.mp below
    exact fine_of_free done fits below (free k below)
  rw [storageGrow_done entered done, growInto, copying_eq done, Copying.growRecords_fine fine,
    flatMap_writes done fits]
  rfl

end GrowCall

/-! ## Records by identifier -/

/-- A part of the record of an identifier, if it lies in the segment. -/
def readField (a : Shape) (file : File) (id : Int) (f : Field) : Option (List UInt8) :=
  (a.storageGetRecord id).bind fun off =>
    if a.fieldStart off f + a.fieldSize f ≤ file.length then
      some (peek file (a.fieldStart off f) (a.fieldSize f))
    else none

theorem readField_eq {a : Shape} {page : PageSize} (ok : a.Accepted) (fits : a.RecordsFit page)
    {file : File} (length : file.length = a.segSz page) {id : Int} (low : a.baseId ≤ id)
    (high : id < a.maxId) (f : Field) :
    readField a file id f = some (peek file
      (a.recordOff (id - a.baseId).toNat + a.fieldOffset f) (a.fieldSize f)) := by
  obtain ⟨below, record⟩ := fits.record ok low high
  have inside := (fits.record_le ok below).2
  have part := fits.field_le ok f
  have start := fits.fieldStart_eq ok below f
  unfold readField
  rw [record, Option.bind_some, start, if_pos (by omega)]

/-- The records of the new file are those of the old one with the same identifiers: each part
is as long as the new storage has it, cut or filled up with zeros. -/
structure Preserved (a b : Shape) (old new : File) : Prop where
  both : ∀ id, a.baseId ≤ id → id < a.maxId → b.baseId ≤ id → id < b.maxId → ∀ f,
    ∃ bs, readField a old id f = some bs ∧ readField b new id f = some (resize bs (b.fieldSize f))
  others : ∀ id, b.baseId ≤ id → id < b.maxId → ¬ (a.baseId ≤ id ∧ id < a.maxId) →
    readField b new id .rev = some (List.replicate 8 0)

/-- Every storage of shape `a` that is grown to shape `b` keeps its records. -/
def GrowKeeps (page : PageSize) (a b : Shape) : Prop :=
  ∀ t : GrowCall, t.page = page → t.store.shape = a → t.args.shape = b →
    ∀ res, t.storageGrow none = some res → res.status = Status.ok →
      ∃ new, res.disk = some new ∧ Preserved a b t.store.file new

/-- With the same first identifier the index of a record is the same. -/
theorem preserved_of_base {t : GrowCall} {addr : Nat} {now : Int} (done : t.fresh.Done addr now)
    (fits : t.args.shape.RecordsFit t.page) (later : Int)
    (base : t.args.shape.baseId = t.store.shape.baseId) :
    Preserved t.store.shape t.args.shape t.store.file (t.grownFile now later) := by
  have okB : t.args.shape.Accepted := GrowCall.accepted_new done
  have length := GrowCall.length_grownFile done fits later
  constructor
  · intro id low high low' high' f
    refine ⟨_, readField_eq t.store.accepted t.store.fits t.store.length low high f, ?_⟩
    rw [readField_eq okB fits length low' high' f, base, GrowCall.field_grownFile done fits]
    unfold copyCount Shape.records
    omega
  · intro id low' high' outside
    have above : copyCount t.store.shape t.args.shape ≤ (id - t.args.shape.baseId).toNat := by
      unfold copyCount Shape.records
      omega
    have below : (id - t.args.shape.baseId).toNat < t.args.shape.records := by
      unfold Shape.records
      omega
    have blank := GrowCall.rev_grownFile done fits later below above
    have part : t.args.shape.fieldOffset .rev = 0 ∧ t.args.shape.fieldSize .rev = 8 := ⟨rfl, rfl⟩
    rw [readField_eq okB fits length low' high' .rev, part.1, part.2, Nat.add_zero, blank]

/-! ## Storages with another first identifier -/

/-- The fields of a header, and the revision of the first record. -/
def markedWrites (a : Shape) (page : PageSize) (rev : Int) : List Patch :=
  headerPatches a page ++ [⟨a.recordOff 0, ofLong rev⟩]

/-- A file in which the first record alone has a revision. -/
def markedRecord (a : Shape) (page : PageSize) (rev : Int) : File :=
  patch (List.replicate (a.segSz page) 0) (markedWrites a page rev)

section Marked

variable {a : Shape} {page : PageSize} (ok : a.Accepted) (fits : a.RecordsFit page) {rev : Int}

theorem headerPatches_low : ∀ p ∈ headerPatches a page, p.off + p.data.length ≤ 1408 ∧ p.Avoids 8 256 := by
  simp [headerPatches, Patch.Avoids, sizeBytes]

include ok fits

theorem markedWrites_within :
    ∀ p ∈ markedWrites a page rev, p.Within (List.replicate (a.segSz page) (0 : UInt8)).length := by
  obtain ⟨behind, inside⟩ := fits.record_le ok (Shape.records_pos ok)
  have long := fits.recSz_ge ok
  intro p here
  unfold Patch.Within
  rw [List.length_replicate]
  rcases List.mem_append.mp here with here | here
  · have low := (headerPatches_low p here).1
    omega
  · obtain rfl := List.mem_singleton.mp here
    dsimp only
    rw [length_ofLong]
    omega

theorem length_markedRecord : (markedRecord a page rev).length = a.segSz page := by
  rw [markedRecord, length_patch (markedWrites_within ok fits), List.length_replicate]

theorem markedWrites_found : ∀ p ∈ markedWrites a page rev, p.Found (markedRecord a page rev) := by
  have behind := (fits.record_le ok (Shape.records_pos ok)).1
  apply found_patch (markedWrites_within ok fits)
  refine List.pairwise_append.mpr ⟨?_, List.pairwise_singleton _ _, ?_⟩
  · exact (fields_apart a page descFits_none 0).2.sublist (List.sublist_append_left _ _)
  · intro p here q there
    obtain rfl := List.mem_singleton.mp there
    have low := (headerPatches_low p here).1
    left
    dsimp only
    omega

/-- The description is empty. -/
theorem described_markedRecord : 0 ∈ peek (markedRecord a page rev) 8 256 := by
  obtain ⟨behind, inside⟩ := fits.record_le ok (Shape.records_pos ok)
  have zeros : peek (markedRecord a page rev) 8 256 = List.replicate 256 0 := by
    rw [markedRecord, peek_patch_apart (markedWrites_within ok fits),
      FreshCall.peek_zeros (by omega)]
    intro p here
    rcases List.mem_append.mp here with here | here
    · exact (headerPatches_low p here).2
    · obtain rfl := List.mem_singleton.mp here
      right
      dsimp only
      omega
  rw [zeros]
  exact List.mem_replicate.mpr ⟨by decide, rfl⟩

/-- The first record has the revision, and that of every other is zero. -/
theorem rev_markedRecord (rev : Int) {k : Nat} (below : k < a.records) :
    peek (markedRecord a page rev) (a.recordOff k) 8 = if k =
      0 then ofLong rev else List.replicate 8 0 := by
  split
  · rename_i first
    rw [first]
    have found := markedWrites_found ok fits ⟨a.recordOff 0, ofLong rev⟩
      (List.mem_append_right _ (List.mem_singleton_self _))
    unfold Patch.Found at found
    rw [length_ofLong] at found
    exact found
  · rename_i later
    obtain ⟨behind, inside⟩ := fits.record_le ok below
    have long := fits.recSz_ge ok
    rw [markedRecord, peek_patch_apart (markedWrites_within ok fits),
      FreshCall.peek_zeros (by omega)]
    intro p here
    left
    rcases List.mem_append.mp here with here | here
    · have low := (headerPatches_low p here).1
      omega
    · obtain rfl := List.mem_singleton.mp here
      have apart := Shape.recordOff_apart (a := a) (Nat.pos_of_ne_zero later)
      dsimp only
      rw [length_ofLong]
      omega

/-- With a revision that is free, so are all records. -/
theorem markedRecord_free {k : Nat} (below : k < a.records) :
    0 ≤ ldLong (markedRecord a page 1) (a.recordOff k) := by
  rw [ldLong, rev_markedRecord ok fits 1 below]
  split
  · decide
  · decide

end Marked

def markedStore {a : Shape} {page : PageSize} (ok : a.Accepted)
    (fits : a.RecordsFit page) (rev : Int) :
    StoreHandle page where
  shape := a
  accepted := ok
  fits := fits
  file := markedRecord a page rev
  length := length_markedRecord ok fits
  header := fun p here => markedWrites_found ok fits p (List.mem_append_left _ here)
  described := described_markedRecord ok fits
  addr := 0
  room := by
    rw [Nat.zero_add]
    exact (a.segSz_spec page).1
  mmapFile := [1]
  isPersistent := true

/-- It is grown to shape `b`, with the last reading of the clock `clock`. No other call fails. -/
def markedCall {a : Shape} {page : PageSize} (ok : a.Accepted)
    (fits : a.RecordsFit page) (rev : Int) (clock : Except Failure Int) (b : Shape) : GrowCall where
  page := page
  store := markedStore ok fits rev
  args := ⟨true, some [2], ⟨0, true, true, false, false⟩, b⟩
  sys := {
    fstat := none
    create := smallSys
    mmap_low := by
      intro addr mapped
      obtain rfl : 65536 = addr := Except.ok.inj mapped
      decide
    clockTime := clock }

section MarkedCall

variable {a b : Shape} {page : PageSize} (okA : a.Accepted) (fitA : a.RecordsFit page)
  (okB : b.Accepted) (fitB : b.RecordsFit page) (small : b.segSz page < 9223372036854775808)
  (rev : Int) (clock : Except Failure Int)

include okB fitB small

theorem markedCall_done : (markedCall okA fitA rev clock b).fresh.Done 65536 7 := by
  have record := (fitB.record_le okB (Shape.records_pos okB))
  have room : 0 < b.segSz page ∧ 65536 + b.segSz page ≤ sizeLimit := by
    unfold sizeLimit
    omega
  have mapped : mapFile (b.segSz page) smallSys = .ok 65536 := if_pos room
  refine ⟨⟨⟨⟨okB, rfl, rfl, rfl⟩, rfl, rfl⟩, rfl, small, mapped⟩, rfl, ?_, nofun, rfl, rfl⟩
  intro bs here
  obtain rfl := Option.some.inj here
  exact GrowCall.description_short (t := markedCall okA fitA rev clock b) (markedStore okA fitA rev)

omit okB fitB small in
theorem markedCall_entered : (markedCall okA fitA rev clock b).Entered :=
  ⟨rfl, nofun, show some [2] ≠ some [1] by decide, rfl, Or.inl rfl, rfl⟩

theorem markedCall_ok : (markedCall okA fitA 1 (.ok 8) b).storageGrow none = some ⟨Status.ok,
    markedRecord a page 1, some ((markedCall okA fitA 1 (.ok 8) b).grownFile 7 8), some true⟩ := by
  have free : ∀ k, k < copyCount a b → 0 ≤ ldLong (markedRecord a page 1) (a.recordOff k) :=
    fun k below => markedRecord_free okA fitA (Nat.lt_of_lt_of_le below (Nat.min_le_left _ _))
  rw [GrowCall.storageGrow_end (markedCall_entered okA fitA 1 (.ok 8))
    (markedCall_done okA fitA okB fitB small 1 (.ok 8)) fitB free]
  rfl

/-- The first new record has got the revision of the first old one. -/
theorem markedCall_rev : readField b ((markedCall okA fitA 1 (.ok 8) b).grownFile 7 8) b.baseId .rev =
    some (ofLong 1) := by
  have done := markedCall_done okA fitA okB fitB small 1 (.ok 8)
  have length := GrowCall.length_grownFile done fitB 8
  have positive : 0 < copyCount a b := by
    have posA := Shape.records_pos okA
    have posB := Shape.records_pos okB
    unfold copyCount
    omega
  have field : peek ((markedCall okA fitA 1 (.ok 8) b).grownFile 7 8) (b.recordOff 0 + b.fieldOffset .rev)
      (b.fieldSize .rev) = resize (peek (markedRecord a page 1) (a.recordOff 0 + a.fieldOffset .rev)
        (a.fieldSize .rev)) (b.fieldSize .rev) := GrowCall.field_grownFile done fitB 8 positive .rev
  have part : a.fieldOffset .rev = 0 ∧ a.fieldSize .rev = 8 ∧ b.fieldSize .rev = 8 :=
    ⟨rfl, rfl, rfl⟩
  have first := rev_markedRecord okA fitA 1 (Shape.records_pos okA)
  have copied : resize (ofLong 1) 8 = ofLong 1 := by decide
  rw [part.1, part.2.1, Nat.add_zero, first, if_pos rfl, part.2.2, copied] at field
  rw [readField_eq okB fitB length (le_refl _) okB.1, Int.sub_self, Int.toNat_zero, part.2.2, field]

include okA fitA

/-- A storage whose records are all kept keeps its first identifier. -/
theorem base_of_keeps (keeps : GrowKeeps page a b) : b.baseId = a.baseId := by
  by_contra other
  obtain ⟨new, eq, preserved⟩ := keeps (markedCall okA fitA 1 (.ok 8) b) rfl rfl rfl _
    (markedCall_ok okA fitA okB fitB small) rfl
  obtain rfl := Option.some.inj eq
  have rev := markedCall_rev okA fitA okB fitB small
  have differ : some (ofLong 1) ≠ some (List.replicate 8 (0 : UInt8)) := by decide
  by_cases both : a.baseId ≤ b.baseId ∧ b.baseId < a.maxId
  · -- another record of the old storage, without a revision
    obtain ⟨bs, old, copied⟩ := preserved.both _ both.1 both.2 (le_refl _) okB.1 .rev
    have below := (fitA.record okA both.1 both.2).1
    have zero := rev_markedRecord okA fitA 1 below
    rw [if_neg (by omega)] at zero
    have length : (markedRecord a page 1).length = a.segSz page := length_markedRecord okA fitA
    have old' := readField_eq okA fitA length both.1 both.2 .rev
    have part : a.fieldOffset .rev = 0 ∧ a.fieldSize .rev = 8 := ⟨rfl, rfl⟩
    rw [part.1, part.2, Nat.add_zero, zero] at old'
    have same : bs = List.replicate 8 0 := Option.some.inj (old.symm.trans old')
    rw [rev, same] at copied
    exact differ copied
  · have nothing := preserved.others _ (le_refl _) okB.1 both
    rw [rev] at nothing
    exact differ nothing

end MarkedCall

/-- Growing keeps the records of every storage of shape `a` exactly if the first identifier
stays, or the new storage cannot be created. -/
theorem grow_keeps_ids {page : PageSize} {a b : Shape} (okA : a.Accepted) (fitA : a.RecordsFit page)
    (fitB : b.RecordsFit page) :
    GrowKeeps page a b ↔
      (b.Accepted → b.segSz page < 9223372036854775808 → b.baseId = a.baseId) := by
  constructor
  · exact fun keeps okB small => base_of_keeps okA fitA okB fitB small keeps
  · rintro base t rfl rfl rfl res ran fine
    obtain ⟨addr, now, later, done, disk⟩ := GrowCall.grown_of_ok ran fine fitB
    have okB : t.args.shape.Accepted := GrowCall.accepted_new done
    exact ⟨_, disk, preserved_of_base done fitB later (base okB done.mapped.2.2.1)⟩

def shiftedShape : Shape where
  baseId := 1
  maxId := 3
  valueSize := 1
  propertySize := 0
  qCapacity := 2
  base_isLong := isLong_one
  max_isLong := by decide
  value_lt := one_lt_sizeLimit
  property_lt := zero_lt_sizeLimit
  queue_lt := two_lt_sizeLimit

theorem rangeShape_fits : (rangeShape 2 (by decide)).RecordsFit smallPage ∧
    (rangeShape 3 (by decide)).RecordsFit smallPage ∧ shiftedShape.RecordsFit smallPage := by
  refine ⟨?_, ?_, ?_⟩
  · show _ < sizeLimit
    decide
  · show _ < sizeLimit
    decide
  · show _ < sizeLimit
    decide

theorem grow_keeps_ids_small : GrowKeeps smallPage (rangeShape 2 (by decide)) (rangeShape 3 (by decide)) ∧
    ∃ new, (markedCall (show (rangeShape 2 (by decide)).Accepted by decide) rangeShape_fits.1
      1 (.ok 8) (rangeShape 3 (by decide))).storageGrow none = some new ∧ new.status = Status.ok := by
  constructor
  · apply (grow_keeps_ids (by decide) rangeShape_fits.1 rangeShape_fits.2.1).mpr
    intro _ _
    rfl
  · exact ⟨_, markedCall_ok _ _ (by decide) rangeShape_fits.2.1 (by decide), rfl⟩

/-- The record of identifier zero becomes that of identifier one. -/
theorem grow_moves_records : ¬ GrowKeeps smallPage (rangeShape 2 (by decide)) shiftedShape := by
  intro keeps
  have base := base_of_keeps (show (rangeShape 2 (by decide)).Accepted by decide) rangeShape_fits.1
    (by decide) rangeShape_fits.2.2 (by decide) keeps
  exact absurd base (show ¬ (1 : Int) = 0 by decide)

end Lancaster
