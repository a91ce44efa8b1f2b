import Lancaster.StorageCreate

/-!
# What a call of `storage_create` leaves of an existing file

The file is changed in four steps: its size, the fields of the header, the lock words of
the records, and the time of creation with the magic number. Each step is a list of writes
to places of its own. So the file is as before exactly if every write of the steps that were
taken found there what it wrote.
-/

namespace Lancaster

open Bytes

/-! ## Sizes -/

theorem length_resize (file : File) (size : Nat) : (resize file size).length = size := by
  simp only [resize, List.length_append, List.length_take, List.length_replicate]
  omega

theorem resize_self (file : File) : resize file file.length = file := by
  simp [resize]

/-- The beginning of a file stays when its size is changed. -/
theorem peek_resize {file : File} {size off n : Nat} (long : off + n ≤ file.length)
    (room : off + n ≤ size) : peek (resize file size) off n = peek file off n := by
  have len : (file.take size).length = min size file.length := List.length_take ..
  rw [resize, peek_append_left (by omega), peek_take room]

/-! ## Lock words -/

/-- Two lock words have no byte in common. -/
def WordsApart (offs : List Nat) : Prop := offs.Pairwise fun o o' => o + 8 ≤ o' ∨ o' + 8 ≤ o

variable {file : File} {offs : List Nat}

theorem length_releaseWord {off : Nat} (within : off + 8 ≤ file.length) :
    (releaseWord file off).length = file.length := by
  unfold releaseWord
  split
  · exact length_stLong within
  · rfl

theorem peek_releaseWord {off o n : Nat} (within : off + 8 ≤ file.length)
    (apart : off + 8 ≤ o ∨ o + n ≤ off) : peek (releaseWord file off) o n = peek file o n := by
  unfold releaseWord
  split
  · have word : (⟨off, ofLong (ldLong file off + 9223372036854775808)⟩ : Patch).Within file.length := by
      unfold Patch.Within
      rw [length_ofLong]
      exact within
    apply peek_poke_apart word
    unfold Patch.Avoids
    rw [length_ofLong]
    exact apart
  · rfl

/-- The word itself is not negative any more. -/
theorem ldLong_releaseWord {off : Nat} (within : off + 8 ≤ file.length) :
    0 ≤ ldLong (releaseWord file off) off := by
  unfold releaseWord
  split
  · rename_i negative
    obtain ⟨low, high⟩ : IsLong (ldLong file off) := toLong_isLong _
    have long : IsLong (ldLong file off + 9223372036854775808) := by
      constructor <;> omega
    rw [ldLong_stLong long (by omega)]
    omega
  · omega

theorem length_release (within : ∀ o ∈ offs, o + 8 ≤ file.length) :
    (offs.foldl releaseWord file).length = file.length := by
  induction offs generalizing file with
  | nil => rfl
  | cons o rest ih =>
    have same := length_releaseWord (within o (List.mem_cons_self ..))
    rw [List.foldl_cons, ih, same]
    intro o' here
    rw [same]
    exact within o' (List.mem_cons_of_mem _ here)

theorem peek_release {o n : Nat} (within : ∀ o ∈ offs, o + 8 ≤ file.length)
    (apart : ∀ o' ∈ offs, o' + 8 ≤ o ∨ o + n ≤ o') :
    peek (offs.foldl releaseWord file) o n = peek file o n := by
  induction offs generalizing file with
  | nil => rfl
  | cons o' rest ih =>
    have first := within o' (List.mem_cons_self ..)
    rw [List.foldl_cons, ih, peek_releaseWord first (apart o' (List.mem_cons_self ..))]
    · intro o'' here
      rw [length_releaseWord first]
      exact within o'' (List.mem_cons_of_mem _ here)
    · exact fun o'' here => apart o'' (List.mem_cons_of_mem _ here)

/-- After the loop no lock is held. -/
theorem ldLong_release (within : ∀ o ∈ offs, o + 8 ≤ file.length) (apart : WordsApart offs) :
    ∀ o ∈ offs, 0 ≤ ldLong (offs.foldl releaseWord file) o := by
  induction offs generalizing file with
  | nil => exact nofun
  | cons o rest ih =>
    have first := within o (List.mem_cons_self ..)
    have later : ∀ o' ∈ rest, o' + 8 ≤ (releaseWord file o).length := by
      intro o' here
      rw [length_releaseWord first]
      exact within o' (List.mem_cons_of_mem _ here)
    obtain ⟨others, apart⟩ := List.pairwise_cons.mp apart
    intro o' here
    rcases List.mem_cons.mp here with rfl | here
    · have same : ldLong ((o' :: rest).foldl releaseWord file) o' =
        ldLong (releaseWord file o') o' := by
        unfold ldLong
        rw [List.foldl_cons, peek_release later]
        intro o'' there
        exact (others o'' there).symm
      rw [same]
      exact ldLong_releaseWord first
    · exact ih later apart o' here

theorem release_free (free : ∀ o ∈ offs, 0 ≤ ldLong file o) :
    offs.foldl releaseWord file = file := by
  induction offs with
  | nil => rfl
  | cons o rest ih =>
    have same : releaseWord file o = file := by
      have := free o (List.mem_cons_self ..)
      exact if_neg (by omega)
    rw [List.foldl_cons, same]
    exact ih fun o' here => free o' (List.mem_cons_of_mem _ here)

/-! ## All writes together -/

/-- The file after the writes to the header, the release of the locks at `offs` and the
writes `qs` at the end. -/
def written (file : File) (ps : List Patch) (offs : List Nat) (qs : List Patch) : File :=
  patch (offs.foldl releaseWord (patch file ps)) qs

/-- The writes lie in the first 1408 bytes and the lock words behind them, all in places of
their own. -/
structure Orderly (file : File) (ps : List Patch) (offs : List Nat) (qs : List Patch) : Prop where
  long : 1408 ≤ file.length
  header : ∀ p ∈ ps ++ qs, p.Within 1408
  apart : (ps ++ qs).Pairwise Patch.Apart
  records : ∀ o ∈ offs, 1408 ≤ o ∧ o + 8 ≤ file.length
  words : WordsApart offs

namespace Orderly

variable {ps qs : List Patch}

theorem within (h : Orderly file ps offs qs) : ∀ p ∈ ps ++ qs, p.Within file.length :=
  fun p here => le_trans (h.header p here) h.long

theorem length_first (h : Orderly file ps offs qs) : (patch file ps).length = file.length :=
  length_patch fun p here => h.within p (List.mem_append_left _ here)

theorem length_released (h : Orderly file ps offs qs) :
    (offs.foldl releaseWord (patch file ps)).length = file.length := by
  rw [length_release, h.length_first]
  intro o here
  rw [h.length_first]
  exact (h.records o here).2

theorem length_written (h : Orderly file ps offs qs) :
    (written file ps offs qs).length = file.length := by
  rw [written, length_patch, h.length_released]
  intro p here
  rw [h.length_released]
  exact h.within p (List.mem_append_right _ here)

/-- A place that no write touches. -/
theorem peek_written (h : Orderly file ps offs qs) {o n : Nat} (low : o + n ≤ 1408)
    (avoid : ∀ p ∈ ps ++ qs, p.Avoids o n) :
    peek (written file ps offs qs) o n = peek file o n := by
  rw [written, peek_patch_apart, peek_release, peek_patch_apart]
  · exact fun p here => h.within p (List.mem_append_left _ here)
  · exact fun p here => avoid p (List.mem_append_left _ here)
  · intro o' here
    rw [h.length_first]
    exact (h.records o' here).2
  · intro o' here
    have := (h.records o' here).1
    omega
  · intro p here
    rw [h.length_released]
    exact h.within p (List.mem_append_right _ here)
  · exact fun p here => avoid p (List.mem_append_right _ here)

theorem found_written (h : Orderly file ps offs qs) :
    ∀ p ∈ ps ++ qs, p.Found (written file ps offs qs) := by
  obtain ⟨apartPs, apartQs, cross⟩ := List.pairwise_append.mp h.apart
  have late : ∀ p ∈ qs, p.Within (offs.foldl releaseWord (patch file ps)).length := by
    intro p here
    rw [h.length_released]
    exact h.within p (List.mem_append_right _ here)
  intro p here
  rcases List.mem_append.mp here with here | here
  · show peek (written file ps offs qs) p.off p.data.length = p.data
    have low : p.off + p.data.length ≤ 1408 := h.header p (List.mem_append_left _ here)
    rw [written, peek_patch_apart late, peek_release]
    · exact found_patch (fun q there => h.within q (List.mem_append_left _ there)) apartPs p here
    · intro o there
      rw [h.length_first]
      exact (h.records o there).2
    · intro o there
      have := (h.records o there).1
      omega
    · intro q there
      rcases cross p here q there with behind | before
      · exact Or.inr behind
      · exact Or.inl before
  · exact found_patch late apartQs p here

theorem ldLong_written (h : Orderly file ps offs qs) :
    ∀ o ∈ offs, 0 ≤ ldLong (written file ps offs qs) o := by
  intro o here
  have free : 0 ≤ ldLong (offs.foldl releaseWord (patch file ps)) o := by
    apply ldLong_release _ h.words o here
    intro o' there
    rw [h.length_first]
    exact (h.records o' there).2
  unfold ldLong at free ⊢
  rw [written, peek_patch_apart]
  · exact free
  · intro p there
    rw [h.length_released]
    exact h.within p (List.mem_append_right _ there)
  · intro p there
    have low : p.off + p.data.length ≤ 1408 := h.header p (List.mem_append_right _ there)
    have high := (h.records o here).1
    exact Or.inl (by omega)

/-- The writes change nothing exactly if each found what it wrote, and no lock was held. -/
theorem written_eq_iff (h : Orderly file ps offs qs) :
    written file ps offs qs = file ↔
      (∀ p ∈ ps ++ qs, p.Found file) ∧ ∀ o ∈ offs, 0 ≤ ldLong file o := by
  constructor
  · intro same
    have found := h.found_written
    have free := h.ldLong_written
    rw [same] at found free
    exact ⟨found, free⟩
  · rintro ⟨found, free⟩
    have first : patch file ps = file := by
      obtain ⟨apartPs, _, _⟩ := List.pairwise_append.mp h.apart
      apply (patch_eq_self_iff _ apartPs).mpr
      · exact fun p here => found p (List.mem_append_left _ here)
      · exact fun p here => h.within p (List.mem_append_left _ here)
    have last : patch file qs = file := by
      obtain ⟨_, apartQs, _⟩ := List.pairwise_append.mp h.apart
      apply (patch_eq_self_iff _ apartQs).mpr
      · exact fun p here => found p (List.mem_append_right _ here)
      · exact fun p here => h.within p (List.mem_append_right _ here)
    rw [written, first, release_free free, last]

end Orderly

/-! ## Where the writes of `init_create` lie -/

namespace Shape

variable {a : Shape}

/-- The queue's capacity is zero or a power of two, so that its size in bytes, even after a
carry, leaves the header its fields. -/
theorem hdrSz_ge (ok : a.Accepted) : 1408 ≤ a.hdrSz := by
  obtain ⟨_, _, _, pow⟩ := ok
  have small : 8 * (if 0 < a.qCapacity then a.qCapacity else 1) % sizeLimit ≤
    9223372036854775808 := by
    by_cases zero : a.qCapacity = 0
    · rw [zero]
      decide
    · obtain ⟨k, eq⟩ := (Nat.and_sub_one_eq_zero_iff_isPowerOfTwo zero).mp pow
      rw [if_pos (by omega), eq]
      have eight : (8 : Nat) * 2 ^ k = 2 ^ (k + 3) := by
        rw [pow_add]
        omega
      rw [eight]
      by_cases large : 64 ≤ k + 3
      · have multiple : sizeLimit ∣ 2 ^ (k + 3) := pow_dvd_pow 2 large
        rw [Nat.mod_eq_zero_of_dvd multiple]
        exact Nat.zero_le _
      · have low : (2 : Nat) ^ (k + 3) ≤ 2 ^ 63 := Nat.pow_le_pow_right (by decide) (by omega)
        have limit : sizeLimit = 2 ^ 64 := by decide
        rw [Nat.mod_eq_of_lt (by omega)]
        exact low
  unfold hdrSz
  generalize 8 * (if 0 < a.qCapacity then a.qCapacity else 1) % sizeLimit = n at small
  rw [alignedSize_eq (by unfold sizeLimit; omega)]
  have := (up8_spec n).2.1
  unfold sizeLimit
  omega

theorem recSz_mod (a : Shape) : a.recSz % 8 = 0 := by
  have value := alignedSize_mod a.valueSize
  have prop := alignedSize_mod a.propertySize
  unfold recSz valueEnd sizeLimit
  split <;> omega

/-- The records of a segment that lies where it should are one after the other behind the
header. -/
theorem recordPtrs_spec (ok : a.Accepted) {addr size : Nat}
    (inMap : ∀ r ∈ a.recordPtrs addr, InMap addr size r) :
    (∀ r ∈ a.recordPtrs addr, 1408 ≤ r - addr ∧ r - addr + 8 ≤ size) ∧
    WordsApart ((a.recordPtrs addr).map (· - addr)) := by
  have header := hdrSz_ge ok
  have hdrLt := a.hdrSz_lt
  have even := a.recSz_mod
  by_cases empty : a.recordPtrs addr = []
  · rw [empty]
    exact ⟨nofun, .nil⟩
  have shape : a.recordPtrs addr =
      (List.range ((a.limit addr - a.first addr + a.recSz - 1) / a.recSz)).map fun k =>
        a.first addr + k * a.recSz := by
    unfold recordPtrs at empty ⊢
    split at empty
    · rename_i given
      rw [if_pos given]
    · exact absurd rfl empty
  have wide : 8 ≤ a.recSz := by
    by_contra narrow
    have zero : a.recSz = 0 := by omega
    rw [shape, zero, Nat.div_zero] at empty
    exact empty rfl
  generalize (a.limit addr - a.first addr + a.recSz - 1) / a.recSz = n at shape
  -- the first record is in the segment, so that its address is the sum without a carry
  have first : a.first addr = addr + a.hdrSz := by
    have positive : 0 < n := by
      rw [shape] at empty
      simp only [List.map_eq_nil_iff, List.range_eq_nil] at empty
      omega
    have here : a.first addr ∈ a.recordPtrs addr := by
      rw [shape]
      exact List.mem_map.mpr ⟨0, List.mem_range.mpr positive, by omega⟩
    have low := (inMap _ here).1
    unfold Shape.first at low ⊢
    unfold sizeLimit at *
    omega
  refine ⟨fun r here => ?_, ?_⟩
  · obtain ⟨low, high⟩ := inMap r here
    rw [shape] at here
    obtain ⟨k, _, rfl⟩ := List.mem_map.mp here
    omega
  · rw [shape, List.map_map]
    apply List.Pairwise.map _ _ List.pairwise_lt_range
    intro j k less
    left
    have step : (j + 1) * a.recSz ≤ k * a.recSz := Nat.mul_le_mul_right _ less
    rw [Nat.succ_mul] at step
    simp only [Function.comp_apply]
    omega

end Shape

theorem descPatch_size {desc : Option { bs : List UInt8 // 0 ∉ bs }} (fits : DescFits desc) :
    (descPatch desc).off = 8 ∧ (descPatch desc).data.length ≤ 256 := by
  cases desc with
  | none => exact ⟨rfl, le_of_eq List.length_replicate⟩
  | some bs =>
    have := fits bs rfl
    simp only [descPatch, List.length_append, List.length_singleton, true_and]
    omega

/-- The places of the fields in the header, in the order in which they are written. -/
def fieldPlaces : List (Nat × Nat) :=
  [(4, 2), (264, 8), (272, 8), (280, 8), (288, 8), (296, 8), (304, 8), (312, 8), (320, 8), (328, 8),
   (336, 8), (368, 8), (8, 256), (lastCreatedOff, 8), (0, 4)]

theorem fields_fill (a : Shape) (page : PageSize) {desc : Option { bs : List UInt8 // 0 ∉ bs }}
    (fits : DescFits desc) (now : Int) :
    List.Forall₂ Patch.Fills (headerPatches a page ++ [descPatch desc,
      createdPatch now, magicPatch])
      fieldPlaces := by
  have word (off n : Nat) : Patch.Fills ⟨off, sizeBytes n⟩ (off, 8) :=
    ⟨rfl, le_of_eq (length_digits 8 n)⟩
  have long (off : Nat) (x : Int) : Patch.Fills ⟨off, ofLong x⟩ (off, 8) :=
    ⟨rfl, le_of_eq (length_ofLong x)⟩
  refine .cons ⟨rfl, le_of_eq (length_digits 2 256)⟩ ?_
  refine .cons (word ..) (.cons (word ..) (.cons (word ..) (.cons (word ..) (.cons (word ..) ?_))))
  refine .cons (word ..) (.cons (word ..) (.cons (word ..) ?_))
  refine .cons (long ..) (.cons (long ..) (.cons (word ..) ?_))
  refine .cons (descPatch_size fits) (.cons (long ..) (.cons ?_ .nil))
  exact ⟨rfl, le_of_eq (length_digits 4 magicNumber)⟩

/-- The fields that are written first and last: they lie in the header, each in its place. -/
theorem fields_apart (a : Shape) (page : PageSize) {desc : Option { bs : List UInt8 // 0 ∉ bs }}
    (fits : DescFits desc) (now : Int) :
    (∀ p ∈ headerPatches a page ++ [descPatch desc, createdPatch now, magicPatch], p.Within 1408) ∧
    (headerPatches a page ++ [descPatch desc, createdPatch now,
    magicPatch]).Pairwise Patch.Apart := by
  have fills := fields_fill a page fits now
  constructor
  · exact within_of_places fills (by decide)
  · exact apart_of_places fills (by decide)

/-- The writes of `init_create`, all of them or the first ones, and the release of locks that
lie in the segment. -/
theorem orderly_fields {a : Shape} (ok : a.Accepted) {page : PageSize}
    {desc : Option { bs : List UInt8 // 0 ∉ bs }} (fits : DescFits desc) (now : Int)
    (long : 1408 ≤ file.length) {ps qs : List Patch}
    (among : (ps ++ qs).Sublist (headerPatches a page ++ [descPatch desc,
    createdPatch now, magicPatch]))
    {addr : Nat} (locks : offs = [] ∨ offs = (a.recordPtrs addr).map (· - addr) ∧
      ∀ r ∈ a.recordPtrs addr, InMap addr file.length r) : Orderly file ps offs qs := by
  obtain ⟨within, apart⟩ := fields_apart a page fits now
  refine ⟨long, fun p here => within p (among.subset here), apart.sublist among, ?_, ?_⟩
  · rcases locks with rfl | ⟨rfl, whole⟩
    · exact nofun
    · intro o here
      obtain ⟨r, there, rfl⟩ := List.mem_map.mp here
      exact (Shape.recordPtrs_spec ok whole).1 r there
  · rcases locks with rfl | ⟨rfl, whole⟩
    · exact .nil
    · exact (Shape.recordPtrs_spec ok whole).2

/-- A segment that is mapped has room in the address space, and is a page at least. -/
theorem mapFile_ok {size : Nat} {sys : SysCalls} {addr : Nat} (h : mapFile size sys = .ok addr) :
    sys.mmap = .ok addr ∧ 0 < size ∧ addr + size ≤ sizeLimit := by
  unfold mapFile at h
  split at h
  · cases h
  · rename_i addr' found
    split at h
    · rename_i room
      obtain rfl := Except.ok.inj h
      exact ⟨found, room⟩
    · cases h

theorem mapFile_page {a : Shape} {page : PageSize} {sys : SysCalls} {addr : Nat}
    (h : mapFile (a.segSz page) sys = .ok addr) : 4096 ≤ a.segSz page := by
  have pos := (mapFile_ok h).2.1
  have multiple : page.val ∣ a.segSz page := Nat.dvd_sub_mod _
  exact le_trans (Shape.page_spec page).1 (Nat.le_of_dvd pos multiple)

/-! ## The checks of the arguments -/

/-- The arguments pass the checks of `storage_create`, and there is memory for a handle. -/
def CreateArgs.Checked (args : CreateArgs) (sys : SysCalls) : Prop :=
  args.shape.Accepted ∧ args.flags.accMode = OpenFlags.readWrite ∧ args.flags.others = false ∧
    sys.xmalloc = true

instance (args : CreateArgs) (sys : SysCalls) : Decidable (args.Checked sys) :=
  inferInstanceAs (Decidable (_ ∧ _ ∧ _ ∧ _))

section Checks

variable {page : PageSize} {args : CreateArgs} {sys : SysCalls} {disk : Option File}

/-- What fails the checks is refused before anything is done. -/
theorem storageCreate_unchecked (bad : ¬ args.Checked sys) {st : Int} {left : Option File}
    (ran : storageCreate page args sys disk = some (st, left)) :
    Status.Failed st ∧ left = disk := by
  unfold storageCreate at ran
  dsimp only at ran
  split at ran
  · cases ran
    exact ⟨(by decide : Status.Failed Status.invalidArg), rfl⟩
  rename_i range
  split at ran
  · cases ran
    exact ⟨(by decide : Status.Failed Status.invalidCapacity), rfl⟩
  rename_i capacity
  split at ran
  · cases ran
    exact ⟨(by decide : Status.Failed Status.invalidOpenFlags), rfl⟩
  rename_i flags
  split at ran
  · cases ran
    exact ⟨(by decide : Status.Failed Status.noMemory), rfl⟩
  rename_i memory
  refine absurd ⟨⟨by omega, by omega, fun one => capacity (Or.inl one), ?_⟩, ?_, ?_, ?_⟩ bad
  · by_contra other
    exact capacity (Or.inr other)
  · by_contra other
    exact flags (Or.inl other)
  · by_contra other
    exact flags (Or.inr (by simpa using other))
  · simpa using memory

/-- What passes them is left to `init_create`, and to `storage_destroy` if that fails. -/
theorem storageCreate_checked (good : args.Checked sys) :
    storageCreate page args sys disk = (initCreate page args sys disk).bind fun b =>
      if Status.Failed b.status then
        (storageDestroy args.persist sys b).map fun disk => (b.status, disk)
      else some (b.status, b.disk) := by
  obtain ⟨⟨range, value, one, pow⟩, mode, others, memory⟩ := good
  have flags : ¬ (args.flags.accMode ≠ OpenFlags.readWrite ∨ args.flags.others = true) := by
    rw [others]
    exact fun bad => bad.elim (fun other => other mode) nofun
  unfold storageCreate
  dsimp only
  rw [if_neg (by omega), if_neg fun bad => bad.elim one fun other => other pow, if_neg flags, memory,
    if_neg nofun]

end Checks

/-! ## The steps of a call -/

/-- A call of `storage_create` over a file that exists. -/
structure Attempt where
  page : PageSize
  args : CreateArgs
  sys : SysCalls
  file : File

namespace Attempt

variable (t : Attempt)

def creat : Bool := t.args.flags.creat

def segSz : Nat := t.args.shape.segSz t.page

def result : Option (Int × Option File) := storageCreate t.page t.args t.sys (some t.file)

/-- The arguments pass the checks and the file is opened. -/
def Opened : Prop :=
  t.args.shape.Accepted ∧ t.args.flags.accMode = OpenFlags.readWrite ∧ t.args.flags.others = false ∧
  t.sys.xmalloc = true ∧ t.sys.openFile = none ∧ ¬ (t.args.flags.creat ∧ t.args.flags.excl)

/-- The file gets the size of the segment, or has it. -/
def Sized : Prop :=
  t.Opened ∧ if t.creat then t.sys.ftruncate = none ∧ t.segSz < 9223372036854775808
    else t.sys.fstat = none ∧ t.file.length = t.segSz

/-- The segment is mapped at `addr`. -/
def Mapped (addr : Nat) : Prop := t.Sized ∧ mapFile t.segSz t.sys = .ok addr

/-- The handle is given the name of the file. -/
def Named (addr : Nat) : Prop := t.Mapped addr ∧ t.sys.xstrdup = true

/-- The header is filled in, or agrees. -/
def Filled (addr : Nat) : Prop :=
  t.Named addr ∧ if t.creat then DescFits t.args.desc
    else SameVersion t.file ∧ SameHeader t.args t.page t.file

/-- The clock gives the time of creation. -/
def Timed (addr : Nat) (now : Int) : Prop := t.Filled addr ∧ t.sys.clockTime = .ok now

/-- A file that does not persist is removed unless one of the calls on the way fails. -/
def Kept : Prop :=
  t.args.persist ∨ t.sys.close.isSome ∨ t.sys.munmap.isSome ∨ t.sys.unlink.isSome

def sized : File := if t.creat then resize t.file t.segSz else t.file

def locks (addr : Nat) : List Nat := (t.args.shape.recordPtrs addr).map (· - addr)

/-- The writes of `init_create` before the locks are released, and after. -/
def firstWrites : List Patch :=
  if t.creat then headerPatches t.args.shape t.page ++ [descPatch t.args.desc] else []

def lastWrites (now : Int) : List Patch :=
  createdPatch now :: if t.creat then [magicPatch] else []

variable {t}

theorem openFile_eq (h : t.Opened) : openFile t.args.flags t.sys (some t.file) = .ok t.file := by
  obtain ⟨_, _, _, _, opened, fresh⟩ := h
  unfold openFile
  rw [opened]
  exact if_neg fresh

theorem sizeFile_eq (h : t.Sized) : sizeFile t.args.flags.creat t.segSz t.sys t.file = .ok t.sized := by
  obtain ⟨_, size⟩ := h
  unfold sizeFile Attempt.sized
  unfold creat at *
  split
  · rename_i new
    rw [if_pos new] at size
    obtain ⟨done, small⟩ := size
    rw [done]
    exact if_neg (by omega)
  · rename_i old
    rw [if_neg old] at size
    obtain ⟨done, same⟩ := size
    rw [done]
    exact if_neg fun other => other same

theorem length_sized (h : t.Sized) : t.sized.length = t.segSz := by
  obtain ⟨_, size⟩ := h
  unfold Attempt.sized
  split
  · exact length_resize _ _
  · rename_i old
    rw [if_neg old] at size
    exact size.2

theorem segSz_ge (h : ∃ addr, t.Mapped addr) : 4096 ≤ t.segSz := by
  obtain ⟨addr, _, mapped⟩ := h
  exact mapFile_page mapped

/-- The lock words of all records lie in the segment. -/
def Whole (t : Attempt) (addr : Nat) : Prop :=
  ∀ r ∈ t.args.shape.recordPtrs addr, InMap addr t.segSz r

/-- The fields of the header that are written with `O_CREAT`. -/
def headerWrites (t : Attempt) : List Patch :=
  if t.creat then headerPatches t.args.shape t.page else []

/-- The handle of a file that is mapped and named, as the steps behind leave it. -/
def Ends (t : Attempt) (addr : Nat) (st : Int) (disk : File) : Prop :=
  (¬ t.Filled addr ∧ Status.Failed st ∧ disk = patch t.sized t.headerWrites) ∨
  (t.Filled addr ∧ (∀ now, ¬ t.Timed addr now) ∧ t.Whole addr ∧ Status.Failed st ∧
    disk = written t.sized t.firstWrites (t.locks addr) []) ∨
  (∃ now, t.Timed addr now ∧ t.Whole addr ∧ (Status.Failed st ↔ t.sys.msync.isSome) ∧
    disk = written t.sized t.firstWrites (t.locks addr) (t.lastWrites now))

/-- The end of `init_create`, with the locks released. -/
theorem finish_ends {addr : Nat} (filled : t.Filled addr) {b : Built}
    (h : (releaseRecords t.args.shape t.page addr (patch t.sized t.firstWrites)).map
      (finish t.args.flags.creat t.sys) = some b) :
    ∃ st disk, b = ⟨st, some disk, true, true, true⟩ ∧ t.Ends addr st disk := by
  obtain ⟨file, released, rfl⟩ := Option.map_eq_some_iff.mp h
  unfold releaseRecords at released
  split at released
  · rename_i whole
    have same : (t.locks addr).foldl releaseWord (patch t.sized t.firstWrites) = file := by
      rw [locks, List.foldl_map]
      exact Option.some.inj released
    subst same
    unfold finish
    split
    · rename_i e clock
      refine ⟨_, _, rfl, Or.inr (Or.inl ⟨filled, ?_, whole, e.2, rfl⟩)⟩
      rintro now ⟨_, ok⟩
      rw [ok] at clock
      cases clock
    · rename_i now clock
      dsimp only
      split
      · rename_i e failed
        refine ⟨_, _, rfl, Or.inr (Or.inr ⟨now, ⟨filled, clock⟩, whole, ?_, rfl⟩)⟩
        rw [failed]
        exact iff_of_true e.2 rfl
      · rename_i fine
        refine ⟨_, _, rfl, Or.inr (Or.inr ⟨now, ⟨filled, clock⟩, whole, ?_, rfl⟩)⟩
        rw [fine]
        exact iff_of_false (by decide) nofun
  · cases released

/-- The header, filled in or compared, and what follows. -/
theorem fillHeader_ends {addr : Nat} (named : t.Named addr) {b : Built}
    (h : (match fillHeader t.args t.page t.sized with
          | (some e, file) => some ⟨e.val, some file, true, true, true⟩
          | (none, file) =>
            if t.args.flags.creat ∧ t.args.flags.excl then some (finish t.args.flags.creat t.sys file)
            else (releaseRecords t.args.shape t.page addr file).map
              (finish t.args.flags.creat t.sys)) = some b) :
    ∃ st disk, b = ⟨st, some disk, true, true, true⟩ ∧ t.Ends addr st disk := by
  obtain ⟨_, _, _, _, _, fresh⟩ := named.1.1.1
  unfold fillHeader at h
  cases new : t.creat with
  | true =>
    have new' : t.args.flags.creat = true := new
    rw [if_pos new'] at h
    by_cases fits : DescFits t.args.desc
    · have filled : t.Filled addr := by
        refine ⟨named, ?_⟩
        rw [if_pos new]
        exact fits
      have all : patch (patch t.sized (headerPatches t.args.shape t.page)) [descPatch t.args.desc] =
          patch t.sized t.firstWrites := by
        rw [firstWrites, if_pos new, patch_append]
      simp only [if_pos fits, if_neg fresh, all] at h
      exact finish_ends filled h
    · simp only [if_neg fits] at h
      cases h
      refine ⟨_, _, rfl, Or.inl ⟨?_, (by decide : Status.Failed Status.bufferTooSmall), ?_⟩⟩
      · rintro ⟨_, filled⟩
        rw [if_pos new] at filled
        exact fits filled
      · rw [headerWrites, if_pos new]
  | false =>
    have old : ¬ t.args.flags.creat = true := by
      have : t.args.flags.creat = false := new
      rw [this]
      exact Bool.false_ne_true
    have old' : ¬ t.creat = true := old
    have same : t.sized = t.file := by rw [Attempt.sized, if_neg old']
    have stays : ∀ st, Status.Failed st → ¬ t.Filled addr → t.Ends addr st t.sized := by
      intro st failed other
      refine Or.inl ⟨other, failed, ?_⟩
      rw [headerWrites, if_neg old']
      rfl
    rw [if_neg old] at h
    by_cases version : SameVersion t.file
    · by_cases header : SameHeader t.args t.page t.file
      · have filled : t.Filled addr := by
          refine ⟨named, ?_⟩
          rw [if_neg old']
          exact ⟨version, header⟩
        have nothing : patch t.sized t.firstWrites = t.sized := by
          rw [firstWrites, if_neg old']
          rfl
        rw [← same] at version header
        simp only [version, header, not_true, if_false, if_neg fresh] at h
        rw [← nothing] at h
        exact finish_ends filled h
      · rw [← same] at version header
        simp only [version, header, not_true, not_false_eq_true, if_false, if_true] at h
        cases h
        refine ⟨_, _, rfl, stays _ (by decide : Status.Failed Status.storageUnequal) ?_⟩
        rintro ⟨_, filled⟩
        rw [if_neg old', ← same] at filled
        exact header filled.2
    · rw [← same] at version
      simp only [version, not_false_eq_true, if_true] at h
      cases h
      refine ⟨_, _, rfl, stays _ (by decide : Status.Failed Status.wrongFileVersion) ?_⟩
      rintro ⟨_, filled⟩
      rw [if_neg old', ← same] at filled
      exact version filled.1

/-- What a call that returns can come to: nothing is touched, the file has its size but no
mapping or no name, or the steps behind were taken. -/
def Outcome (t : Attempt) (st : Int) (disk : Option File) : Prop :=
  (¬ t.Sized ∧ Status.Failed st ∧ disk = some t.file) ∨
  (t.Sized ∧ (∀ addr, ¬ t.Named addr) ∧ Status.Failed st ∧ disk = some t.sized) ∨
  (∃ addr last, t.Named addr ∧ t.Ends addr st last ∧
    (disk = some last ∧ (Status.Failed st → t.Kept) ∨ disk = none ∧ Status.Failed st ∧ ¬ t.Kept))

/-- What is left of a named file after a failure. -/
theorem storageDestroy_left {st : Int} {last : File} {disk : Option File}
    (h : storageDestroy t.args.persist t.sys ⟨st, some last, true, true, true⟩ = some disk) :
    disk = some last ∧ t.Kept ∨ disk = none ∧ ¬ t.Kept := by
  unfold storageDestroy at h
  unfold Kept
  cases close : t.sys.close.isSome <;> cases munmap : t.sys.munmap.isSome <;>
    cases persist : t.args.persist <;> cases unlink : t.sys.unlink.isSome <;>
    simp_all

/-- Without a mapping or a name the file is not removed. -/
theorem storageDestroy_stays {b : Built} {disk : Option File}
    (h : storageDestroy t.args.persist t.sys b = some disk)
    (half : b.seg = false ∨ b.mmapFile = false) : disk = b.disk := by
  unfold storageDestroy at h
  split at h
  · exact (Option.some.inj h).symm
  · split at h
    · rename_i seg
      rcases half with nothing | nothing
      · rw [nothing] at seg
        cases seg
      · rw [if_pos nothing] at h
        split at h
        · exact (Option.some.inj h).symm
        · split at h
          · exact (Option.some.inj h).symm
          · cases h
    · exact (Option.some.inj h).symm

/-- A file that is not opened stays as it is. -/
theorem initCreate_unopened (checked : t.args.Checked t.sys) (unopened : ¬ t.Opened) {b : Built}
    (built : initCreate t.page t.args t.sys (some t.file) = some b) :
    Status.Failed b.status ∧ b.disk = some t.file ∧ (b.seg = false ∨ b.mmapFile = false) := by
  obtain ⟨accepted, mode, others, memory⟩ := checked
  unfold initCreate at built
  split at built
  · rename_i e _
    cases built
    exact ⟨e.2, rfl, Or.inl rfl⟩
  · rename_i file opens
    refine absurd ⟨accepted, mode, others, memory, ?_⟩ unopened
    unfold openFile at opens
    cases found : t.sys.openFile with
    | some e =>
      rw [found] at opens
      cases opens
    | none =>
      rw [found] at opens
      refine ⟨rfl, fun both => ?_⟩
      dsimp only at opens
      rw [if_pos both] at opens
      cases opens

/-- So does one that does not get its size. -/
theorem initCreate_unsized (opened : t.Opened) (unsized : ¬ t.Sized) {b : Built}
    (built : initCreate t.page t.args t.sys (some t.file) = some b) :
    Status.Failed b.status ∧ b.disk = some t.file ∧ (b.seg = false ∨ b.mmapFile = false) := by
  unfold initCreate at built
  rw [openFile_eq opened] at built
  dsimp only at built
  split at built
  · rename_i e _
    cases built
    exact ⟨e.2, rfl, Or.inl rfl⟩
  · rename_i file size
    refine absurd ⟨opened, ?_⟩ unsized
    unfold sizeFile at size
    unfold creat segSz
    split at size
    · rename_i new
      rw [if_pos new]
      split at size
      · cases size
      · rename_i done
        split at size
        · cases size
        · rename_i small
          exact ⟨done, by omega⟩
    · rename_i old
      rw [if_neg old]
      split at size
      · cases size
      · rename_i done
        split at size
        · cases size
        · rename_i same
          exact ⟨done, by omega⟩

/-- A file of the right size that is not mapped, or whose name is not kept, is not changed any
more. -/
theorem initCreate_unnamed (size : t.Sized) (unnamed : ∀ addr, ¬ t.Named addr) {b : Built}
    (built : initCreate t.page t.args t.sys (some t.file) = some b) :
    Status.Failed b.status ∧ b.disk = some t.sized ∧ (b.seg = false ∨ b.mmapFile = false) := by
  have sized := sizeFile_eq size
  unfold segSz at sized
  unfold initCreate at built
  rw [openFile_eq size.1] at built
  dsimp only at built
  rw [sized] at built
  dsimp only at built
  split at built
  · rename_i e _
    cases built
    exact ⟨e.2, rfl, Or.inl rfl⟩
  · rename_i addr mapped
    split at built
    · cases built
      exact ⟨(by decide : Status.Failed Status.noMemory), rfl, Or.inr rfl⟩
    · rename_i name
      exact absurd ⟨⟨size, mapped⟩, by simpa using name⟩ (unnamed addr)

theorem initCreate_named {addr : Nat} (named : t.Named addr) {b : Built}
    (built : initCreate t.page t.args t.sys (some t.file) = some b) :
    ∃ st disk, b = ⟨st, some disk, true, true, true⟩ ∧ t.Ends addr st disk := by
  obtain ⟨⟨size, mapped⟩, name⟩ := named
  have sized := sizeFile_eq size
  unfold segSz at sized mapped
  unfold initCreate at built
  rw [openFile_eq size.1] at built
  dsimp only at built
  rw [sized] at built
  dsimp only at built
  rw [mapped, name] at built
  dsimp only at built
  rw [if_neg (by decide)] at built
  exact fillHeader_ends ⟨⟨size, mapped⟩, name⟩ built

theorem outcome {st : Int} {disk : Option File} (ran : t.result = some (st, disk)) :
    t.Outcome st disk := by
  unfold result at ran
  by_cases checked : t.args.Checked t.sys
  swap
  · obtain ⟨failed, rfl⟩ := storageCreate_unchecked checked ran
    refine Or.inl ⟨?_, failed, rfl⟩
    rintro ⟨⟨accepted, mode, others, memory, _⟩, _⟩
    exact checked ⟨accepted, mode, others, memory⟩
  rw [storageCreate_checked checked] at ran
  obtain ⟨b, built, more⟩ := Option.bind_eq_some_iff.mp ran
  -- the handle is destroyed, and the file is left as it was then
  have half {file : File} (h : Status.Failed b.status ∧ b.disk = some file ∧
      (b.seg = false ∨ b.mmapFile = false)) : Status.Failed st ∧ disk = some file := by
    obtain ⟨failed, same, partly⟩ := h
    rw [if_pos failed] at more
    obtain ⟨left, destroyed, eq⟩ := Option.map_eq_some_iff.mp more
    cases eq
    exact ⟨failed, (storageDestroy_stays destroyed partly).trans same⟩
  by_cases opened : t.Opened
  swap
  · exact Or.inl ⟨fun size => opened size.1, half (initCreate_unopened checked opened built)⟩
  by_cases size : t.Sized
  swap
  · exact Or.inl ⟨size, half (initCreate_unsized opened size built)⟩
  by_cases named : ∃ addr, t.Named addr
  swap
  · have unnamed : ∀ addr, ¬ t.Named addr := fun addr h => named ⟨addr, h⟩
    exact Or.inr (Or.inl ⟨size, unnamed, half (initCreate_unnamed size unnamed built)⟩)
  obtain ⟨addr, named⟩ := named
  obtain ⟨st', last, rfl, ends⟩ := initCreate_named named built
  refine Or.inr (Or.inr ⟨addr, last, named, ?_⟩)
  dsimp only at more
  split at more
  · rename_i failed
    obtain ⟨left, destroyed, eq⟩ := Option.map_eq_some_iff.mp more
    cases eq
    rcases storageDestroy_left destroyed with ⟨rfl, kept⟩ | ⟨rfl, gone⟩
    · exact ⟨ends, Or.inl ⟨rfl, fun _ => kept⟩⟩
    · exact ⟨ends, Or.inr ⟨rfl, failed, gone⟩⟩
  · rename_i fine
    cases more
    exact ⟨ends, Or.inl ⟨rfl, fun failed => absurd failed fine⟩⟩

/-! ## Order of the writes -/

/-- The writes of the steps, all of them or the first ones. -/
theorem orderly {addr : Nat} (named : t.Named addr) {ps qs : List Patch} {offs : List Nat}
    {desc : Option { bs : List UInt8 // 0 ∉ bs }} (fits : DescFits desc) (now : Int)
    (among : (ps ++ qs).Sublist (headerPatches t.args.shape t.page ++
      [descPatch desc, createdPatch now, magicPatch]))
    (locks : offs = [] ∨ offs = t.locks addr ∧ t.Whole addr) : Orderly t.sized ps offs qs := by
  have long := segSz_ge ⟨addr, named.1⟩
  have length := length_sized named.1.1
  apply orderly_fields named.1.1.1.1 fits now (by omega) among
  rw [length]
  exact locks

theorem Filled.fits {addr : Nat} (h : t.Filled addr) (new : t.creat) : DescFits t.args.desc := by
  have := h.2
  rw [if_pos new] at this
  exact this

theorem Filled.orderly {addr : Nat} (h : t.Filled addr) (whole : t.Whole addr) (now : Int) :
    Orderly t.sized t.firstWrites (t.locks addr) (t.lastWrites now) := by
  by_cases new : t.creat
  · apply Attempt.orderly h.1 (h.fits new) now _ (Or.inr ⟨rfl, whole⟩)
    rw [firstWrites, lastWrites, if_pos new, if_pos new, List.append_assoc]
    exact List.Sublist.refl _
  · apply Attempt.orderly h.1 descFits_none now _ (Or.inr ⟨rfl, whole⟩)
    rw [firstWrites, lastWrites, if_neg new, if_neg new, List.nil_append]
    apply List.Sublist.trans _ (List.sublist_append_right _ _)
    exact .cons _ (.cons_cons _ (.cons _ .slnil))

/-- A call in which nothing fails succeeds, with all the writes made. -/
theorem result_of_timed {addr : Nat} {now : Int} (timed : t.Timed addr now) (whole : t.Whole addr)
    (synced : t.sys.msync = none) :
    t.result = some (Status.ok,
      some (written t.sized t.firstWrites (t.locks addr) (t.lastWrites now))) := by
  have filled := timed.1
  obtain ⟨⟨range, value, one, pow⟩, mode, others, memory, _, fresh⟩ := filled.1.1.1.1
  have sized := sizeFile_eq filled.1.1.1
  have mapped := filled.1.1.2
  have header : fillHeader t.args t.page t.sized = (none, patch t.sized t.firstWrites) := by
    have agrees := filled.2
    unfold fillHeader firstWrites Attempt.sized
    unfold creat at *
    split
    · rename_i new
      rw [if_pos new] at agrees
      simp only [agrees, if_true, patch_append]
    · rename_i old
      rw [if_neg old] at agrees
      simp only [agrees.1, agrees.2, not_true, if_false]
      rfl
  have released : releaseRecords t.args.shape t.page addr (patch t.sized t.firstWrites) =
      some ((t.locks addr).foldl releaseWord (patch t.sized t.firstWrites)) := by
    rw [locks, List.foldl_map]
    exact if_pos whole
  unfold segSz at sized mapped
  unfold result storageCreate
  dsimp only
  have flags : ¬ (t.args.flags.accMode ≠ OpenFlags.readWrite ∨ t.args.flags.others = true) := by
    rw [others]
    exact fun bad => bad.elim (fun other => other mode) nofun
  rw [if_neg (by omega), if_neg fun bad => bad.elim one fun other => other pow, if_neg flags, memory,
    if_neg nofun]
  unfold initCreate
  rw [openFile_eq filled.1.1.1.1]
  dsimp only
  rw [sized]
  dsimp only
  rw [mapped]
  dsimp only
  rw [filled.1.2, if_neg nofun, header]
  dsimp only
  rw [if_neg fresh, released]
  simp only [Option.map_some, Option.bind_some, finish, timed.2, synced]
  rfl

end Attempt

end Lancaster
