import Lancaster.FreshCreate
import Lancaster.StorageOpen

/-!
# Reopening a storage

Without `O_CREAT` a call of `storage_create` compares the header of the file with the sizes
that it has computed itself. The identifiers are not among what it compares. They enter
only into the size of the segment, which is rounded up to pages. So a storage is reopened
under any range of identifiers that needs as many pages.
-/

namespace Lancaster

open Bytes

/-! ## What a call leaves behind -/

/-- Every field of the header is found in a file that has been created. -/
structure Created (page : PageSize) (args : CreateArgs) (now : Int) (file : File) : Prop where
  accepted : args.shape.Accepted
  fits : DescFits args.desc
  page_le : 4096 ≤ args.shape.segSz page
  length : file.length = args.shape.segSz page
  found : ∀ p ∈ headerPatches args.shape page ++ [descPatch args.desc,
    createdPatch now, magicPatch],
    p.Found file

theorem storageCreate_created {page : PageSize} {args : CreateArgs} {sys : SysCalls}
    {disk left : Option File} {st : Int} (new : args.flags.creat = true)
    (ran : storageCreate page args sys disk = some (st, left)) (fine : ¬ Status.Failed st) :
    ∃ file now, left = some file ∧ Created page args now file := by
  have checked : args.Checked sys := by
    by_contra bad
    exact fine (storageCreate_unchecked bad ran).1
  rw [storageCreate_checked checked] at ran
  obtain ⟨b, built, more⟩ := Option.bind_eq_some_iff.mp ran
  by_cases failed : Status.Failed b.status
  · rw [if_pos failed] at more
    obtain ⟨_, _, eq⟩ := Option.map_eq_some_iff.mp more
    cases eq
    exact absurd failed fine
  rw [if_neg failed] at more
  obtain ⟨rfl, rfl⟩ := Prod.mk.inj (Option.some.inj more)
  unfold initCreate at built
  split at built
  · rename_i e _
    cases built
    exact absurd e.2 failed
  split at built
  · rename_i e _
    cases built
    exact absurd e.2 failed
  rename_i old _ file size
  have length : file.length = args.shape.segSz page := by
    unfold sizeFile at size
    rw [if_pos new] at size
    split at size
    · cases size
    · split at size
      · cases size
      · rw [← Except.ok.inj size]
        exact length_resize _ _
  split at built
  · rename_i e _
    cases built
    exact absurd e.2 failed
  rename_i addr mapped
  have long := mapFile_page mapped
  split at built
  · cases built
    exact absurd (by decide : Status.Failed Status.noMemory) failed
  by_cases fits : DescFits args.desc
  swap
  · simp only [fillHeader, if_pos new, if_neg fits] at built
    cases built
    exact absurd (by decide : Status.Failed Status.bufferTooSmall) failed
  simp only [fillHeader, if_pos new, if_pos fits, ← patch_append] at built
  -- with `O_EXCL` no lock is released
  obtain ⟨offs, locks, ends⟩ : ∃ offs, (offs = [] ∨ offs = (args.shape.recordPtrs addr).map (· - addr) ∧
      ∀ r ∈ args.shape.recordPtrs addr, InMap addr file.length r) ∧
      finish args.flags.creat sys (offs.foldl releaseWord
        (patch file (headerPatches args.shape page ++ [descPatch args.desc]))) = b := by
    split at built
    · exact ⟨[], Or.inl rfl, Option.some.inj built⟩
    · obtain ⟨released, whole, eq⟩ := Option.map_eq_some_iff.mp built
      unfold releaseRecords at whole
      split at whole
      · rename_i inMap
        rw [← length] at inMap
        refine ⟨_, Or.inr ⟨rfl, inMap⟩, ?_⟩
        rw [List.foldl_map, ← eq, Option.some.inj whole]
      · cases whole
  subst ends
  unfold finish at failed ⊢
  split at failed
  · rename_i e clock
    exact absurd e.2 failed
  rename_i now clock
  dsimp only at failed ⊢
  split at failed
  · rename_i e _
    exact absurd e.2 failed
  have order : Orderly file (headerPatches args.shape page ++ [descPatch args.desc]) offs
      [createdPatch now, magicPatch] := by
    have all : (headerPatches args.shape page ++ [descPatch args.desc] ++
        [createdPatch now, magicPatch]).Sublist
        (headerPatches args.shape page ++ [descPatch args.desc, createdPatch now, magicPatch]) := by
      rw [List.append_assoc]
      exact List.Sublist.refl _
    exact orderly_fields checked.1 fits now (by omega) all locks
  refine ⟨_, now, rfl, checked.1, fits, long, ?_, ?_⟩
  · have same := order.length_written
    rw [length] at same
    rw [if_pos new]
    exact same
  · have found := order.found_written
    rw [List.append_assoc] at found
    rw [if_pos new]
    exact found

/-! ## The fields of the header -/

theorem ldSize_found {file : File} {off n : Nat} (found : (⟨off, sizeBytes n⟩ : Patch).Found file)
    (low : n < sizeLimit) : ldSize file off = n := by
  have bytes : peek file off (sizeBytes n).length = sizeBytes n := found
  rw [sizeBytes, length_digits] at bytes
  rw [ldSize, bytes, value_digits]
  exact Nat.mod_eq_of_lt low

theorem ldLong_found {file : File} {off : Nat} {x : Int}
    (found : (⟨off, ofLong x⟩ : Patch).Found file) (long : IsLong x) : ldLong file off = x := by
  have bytes : peek file off (ofLong x).length = ofLong x := found
  rw [length_ofLong] at bytes
  rw [ldLong, bytes, toLong_ofLong long]

/-- The text of a description. `NULL` and the empty string are the same to a storage. -/
def descText : Option { bs : List UInt8 // 0 ∉ bs } → List UInt8
  | some bs => bs.val
  | none => []

/-- The text in a file ends at the first zero. -/
theorem text_found {file : File} {desc : Option { bs : List UInt8 // 0 ∉ bs }}
    (found : (descPatch desc).Found file) :
    (file.drop 8).takeWhile (· ≠ 0) = descText desc := by
  have ends : ∃ rest, file.drop 8 = descText desc ++ 0 :: rest := by
    cases desc with
    | some bs =>
      have bytes : (file.drop 8).take (bs.val ++ [0]).length = bs.val ++ [0] := found
      refine ⟨(file.drop 8).drop (bs.val ++ [0]).length, ?_⟩
      have all := List.take_append_drop (bs.val ++ [0]).length (file.drop 8)
      rw [bytes, List.append_assoc] at all
      exact all.symm
    | none =>
      have bytes : (file.drop 8).take (List.replicate 256 (0 : UInt8)).length =
        List.replicate 256 0 := found
      have head : (file.drop 8).take 1 = [0] := by
        have less := congrArg (List.take 1) bytes
        rw [List.length_replicate, List.take_take] at less
        exact less
      refine ⟨(file.drop 8).drop 1, ?_⟩
      have all := List.take_append_drop 1 (file.drop 8)
      rw [head] at all
      exact all.symm
  have clean : ∀ b ∈ descText desc, decide (b ≠ 0) = true := by
    intro b here
    apply decide_eq_true
    rintro rfl
    cases desc with
    | some bs => exact bs.2 here
    | none => cases here
  obtain ⟨rest, eq⟩ := ends
  rw [eq, List.takeWhile_append_of_pos clean]
  simp

theorem sameDesc_iff {file : File} (long : 9 ≤ file.length)
    (desc : Option { bs : List UInt8 // 0 ∉ bs }) :
    SameDesc desc file ↔ (file.drop 8).takeWhile (· ≠ 0) = descText desc := by
  cases desc with
  | some bs => exact Iff.rfl
  | none =>
    show (file.drop 8).head? = some 0 ↔ _ = []
    cases eq : file.drop 8 with
    | nil =>
      have := congrArg List.length eq
      rw [List.length_drop, List.length_nil] at this
      omega
    | cons b rest =>
      rw [List.head?_cons, Option.some.injEq]
      by_cases zero : b = 0
      · simp [zero]
      · simp [zero]

theorem sameVersion_found {file : File} (found : (⟨4, digits 2 256⟩ : Patch).Found file) :
    SameVersion file := by
  have bytes : peek file 4 2 = [0, 1] := found
  have last : peek file 5 1 = [1] := by
    have less := congrArg (List.drop 1) bytes
    rw [peek, List.drop_take, List.drop_drop] at less
    exact less
  rw [SameVersion, last]
  decide

/-! ## Which attributes are compared -/

structure SameAttributes (args args' : CreateArgs) : Prop where
  base : args'.shape.baseId = args.shape.baseId
  max : args'.shape.maxId = args.shape.maxId
  value : args'.shape.valueSize = args.shape.valueSize
  property : args'.shape.propertySize = args.shape.propertySize
  queue : args'.shape.qCapacity = args.shape.qCapacity
  desc : descText args'.desc = descText args.desc

/-- A range of identifiers, and all that is compared is equal. -/
structure SameCompared (page : PageSize) (args args' : CreateArgs) : Prop where
  range : args'.shape.baseId < args'.shape.maxId
  size : args'.shape.segSz page = args.shape.segSz page
  value : args'.shape.valueSize = args.shape.valueSize
  property : args'.shape.propertySize = args.shape.propertySize
  queue : args'.shape.qCapacity = args.shape.qCapacity
  desc : descText args'.desc = descText args.desc

theorem Shape.eq_of_fields {a b : Shape} (base : b.baseId = a.baseId) (max : b.maxId = a.maxId)
    (value : b.valueSize = a.valueSize) (property : b.propertySize = a.propertySize)
    (queue : b.qCapacity = a.qCapacity) : b = a := by
  cases a
  cases b
  simp only at base max value property queue
  subst base max value property queue
  rfl

theorem SameAttributes.shape {args args' : CreateArgs} (same : SameAttributes args args') :
    args'.shape = args.shape :=
  Shape.eq_of_fields same.base same.max same.value same.property same.queue

theorem sameAttributes_iff {page : PageSize} {args args' : CreateArgs} (ok : args.shape.Accepted) :
    SameAttributes args args' ↔ SameCompared page args args' ∧
      args'.shape.baseId = args.shape.baseId ∧ args'.shape.maxId = args.shape.maxId := by
  constructor
  · intro same
    refine ⟨⟨?_, ?_, same.value, same.property, same.queue, same.desc⟩, same.base, same.max⟩
    · rw [same.shape]
      exact ok.1
    · rw [same.shape]
  · rintro ⟨alike, base, max⟩
    exact ⟨base, max, alike.value, alike.property, alike.queue, alike.desc⟩

/-- The sizes of a header and of a record do not depend on the identifiers. -/
theorem Shape.sizes_eq {a b : Shape} (value : b.valueSize = a.valueSize)
    (property : b.propertySize = a.propertySize) (queue : b.qCapacity = a.qCapacity) :
    b.hdrSz = a.hdrSz ∧ b.recSz = a.recSz ∧ b.propOffset = a.propOffset := by
  unfold hdrSz recSz propOffset valueEnd
  rw [value, property, queue]
  exact ⟨rfl, rfl, rfl⟩

/-- The mask of a queue gives its capacity. -/
theorem mask_inj {m n : Nat} (hm : m < sizeLimit) (hn : n < sizeLimit)
    (same : (m + (sizeLimit - 1)) % sizeLimit = (n + (sizeLimit - 1)) % sizeLimit) : m = n := by
  unfold sizeLimit at *
  omega

theorem Shape.recSz_lt (a : Shape) : a.recSz < sizeLimit := by
  unfold recSz valueEnd
  split
  · exact Nat.mod_lt _ (by decide)
  · exact Nat.mod_lt _ (by decide)

theorem Shape.propOffset_lt (a : Shape) : a.propOffset < sizeLimit := by
  unfold propOffset valueEnd
  split
  · exact Nat.mod_lt _ (by decide)
  · decide

/-- The header of a file that has been created agrees with other attributes exactly if they
are alike. -/
theorem Created.sameHeader_iff {page : PageSize} {args args' : CreateArgs} {now : Int} {file : File}
    (made : Created page args now file) (range : args'.shape.baseId < args'.shape.maxId) :
    SameHeader args' page file ↔ SameCompared page args args' := by
  have size := made.length
  have page_le := made.page_le
  have found := made.found
  simp only [headerPatches, List.cons_append, List.nil_append, List.forall_mem_cons] at found
  obtain ⟨_, seg, hdr, record, val, prop, ts, valOff, propOff, _, _, mask, desc, _⟩ := found
  have maskLt : (args.shape.qCapacity + (sizeLimit - 1)) % sizeLimit < sizeLimit :=
    Nat.mod_lt _ (by decide)
  have text := text_found desc
  unfold SameHeader
  simp only [ldSize_found seg (args.shape.segSz_spec page).1, ldSize_found hdr args.shape.hdrSz_lt,
    ldSize_found record args.shape.recSz_lt, ldSize_found val args.shape.value_lt,
    ldSize_found prop args.shape.property_lt, ldSize_found ts (by decide),
    ldSize_found valOff (by decide), ldSize_found propOff args.shape.propOffset_lt,
    ldSize_found mask maskLt, true_and]
  rw [sameDesc_iff (by omega), text]
  constructor
  · rintro ⟨segSz, _, _, value, property, _, queue, same⟩
    exact ⟨range, segSz.symm, value.symm, property.symm,
      (mask_inj args.shape.queue_lt args'.shape.queue_lt queue).symm, same.symm⟩
  · intro alike
    obtain ⟨hdrSz, recSz, propOffset⟩ := Shape.sizes_eq alike.value alike.property alike.queue
    refine ⟨alike.size.symm, hdrSz.symm, recSz.symm, alike.value.symm, alike.property.symm,
      propOffset.symm, ?_, alike.desc.symm⟩
    rw [alike.queue]

/-! ## The second call -/

/-- A second call without `O_CREAT` in which no system call fails, with the segment at `addr`. -/
structure Reopening (page : PageSize) (args : CreateArgs) (sys : SysCalls) (addr : Nat) : Prop where
  mode : args.flags.accMode = OpenFlags.readWrite
  others : args.flags.others = false
  old : args.flags.creat = false
  xmalloc : sys.xmalloc = true
  openFile : sys.openFile = none
  fstat : sys.fstat = none
  mmap : sys.mmap = .ok addr
  room : addr + args.shape.segSz page ≤ sizeLimit
  xstrdup : sys.xstrdup = true
  clockTime : sys.clockTime.isOk
  msync : sys.msync = none

/-- The call succeeds, and leaves the file as `left`. -/
def Reopens (page : PageSize) (args : CreateArgs) (sys : SysCalls) (file left : File) : Prop :=
  storageCreate page args sys (some file) = some (Status.ok, some left)

/-- The records of the handle, from `first` to `limit`, are those that the header counts. -/
def RangeAgrees (a : Shape) (addr : Nat) (file : File) : Prop :=
  a.first addr = (addr + ldSize file 272) % sizeLimit ∧
  a.limit addr = (a.first addr + ldRecords file * ldSize file 280) % sizeLimit

def LoopInMap (page : PageSize) (a : Shape) (addr : Nat) : Prop :=
  ∀ r ∈ a.recordPtrs addr, InMap addr (a.segSz page) r

section Reopening

variable {page : PageSize} {args args' : CreateArgs} {now : Int} {file : File} {sys : SysCalls}
  {addr : Nat}

theorem filled_iff (made : Created page args now file) (again : Reopening page args' sys addr) :
    Attempt.Filled ⟨page, args', sys, file⟩ addr ↔ SameCompared page args args' := by
  have version : SameVersion file :=
    sameVersion_found (made.found _ (List.mem_append_left _ (List.mem_cons_self ..)))
  have old : ¬ (Attempt.creat ⟨page, args', sys, file⟩ = true) := by
    rw [Attempt.creat, again.old]
    exact Bool.false_ne_true
  constructor
  · rintro ⟨⟨⟨⟨⟨accepted, _⟩, _⟩, _⟩, _⟩, header⟩
    rw [if_neg old] at header
    exact (made.sameHeader_iff accepted.1).mp header.2
  · intro alike
    have accepted : args'.shape.Accepted := by
      refine ⟨alike.range, ?_, ?_, ?_⟩
      · rw [alike.value]
        exact made.accepted.2.1
      · rw [alike.queue]
        exact made.accepted.2.2.1
      · rw [alike.queue]
        exact made.accepted.2.2.2
    have fresh : ¬ (args'.flags.creat = true ∧ args'.flags.excl = true) := by
      rw [again.old]
      exact fun both => Bool.false_ne_true both.1
    have page_le := made.page_le
    have mapped : mapFile (args'.shape.segSz page) sys = .ok addr := by
      have size := alike.size
      unfold mapFile
      rw [again.mmap]
      exact if_pos ⟨by omega, again.room⟩
    refine ⟨⟨⟨⟨⟨accepted, again.mode, again.others, again.xmalloc, again.openFile, fresh⟩, ?_⟩,
      mapped⟩, again.xstrdup⟩, ?_⟩
    · rw [if_neg old]
      exact ⟨again.fstat, made.length.trans alike.size.symm⟩
    · rw [if_neg old]
      exact ⟨version, (made.sameHeader_iff alike.range).mpr alike⟩

/-- The call succeeds exactly if the attributes are alike and the loop stays in the segment. -/
theorem reopens_iff (made : Created page args now file) (again : Reopening page args' sys addr) :
    (∃ left, Reopens page args' sys file left) ↔ SameCompared page args args' ∧
    LoopInMap page args'.shape addr := by
  rw [← filled_iff made again]
  obtain ⟨time, clock⟩ : ∃ time, sys.clockTime = .ok time := by
    have works := again.clockTime
    cases h : sys.clockTime with
    | error e =>
      rw [h] at works
      cases works
    | ok time => exact ⟨time, rfl⟩
  constructor
  · rintro ⟨left, ran⟩
    have outcome := Attempt.outcome (t := ⟨page, args', sys, file⟩) ran
    have fine : ¬ Status.Failed Status.ok := by decide
    rcases outcome with ⟨_, failed, _⟩ | ⟨_, _, failed, _⟩ | ⟨addr', last, named, ends, _⟩
    · exact absurd failed fine
    · exact absurd failed fine
    obtain rfl : addr' = addr := by
      have same := (mapFile_ok named.1.2).1
      rw [again.mmap] at same
      exact (Except.ok.inj same).symm
    rcases ends with ⟨_, failed, _⟩ | ⟨_, _, _, failed, _⟩ | ⟨_, timed, whole, _⟩
    · exact absurd failed fine
    · exact absurd failed fine
    · exact ⟨timed.1, whole⟩
  · rintro ⟨filled, whole⟩
    exact ⟨_, Attempt.result_of_timed ⟨filled, clock⟩ whole again.msync⟩

/-- The fields of the header stay when a storage is reopened. -/
theorem reopens_header (again : Reopening page args' sys addr) {left : File}
    (ran : Reopens page args' sys file left) {off n : Nat} (low : off + n ≤ 344) :
    peek left off n = peek file off n := by
  have outcome := Attempt.outcome (t := ⟨page, args', sys, file⟩) ran
  have fine : ¬ Status.Failed Status.ok := by decide
  have old : ¬ (Attempt.creat ⟨page, args', sys, file⟩ = true) := by
    rw [Attempt.creat, again.old]
    exact Bool.false_ne_true
  rcases outcome with ⟨_, failed, _⟩ | ⟨_, _, failed, _⟩ | ⟨addr', last, named, ends, disk⟩
  · exact absurd failed fine
  · exact absurd failed fine
  rcases ends with ⟨_, failed, _⟩ | ⟨_, _, _, failed, _⟩ | ⟨now, timed, whole, _, rfl⟩
  · exact absurd failed fine
  · exact absurd failed fine
  rcases disk with ⟨eq, _⟩ | ⟨absent, _⟩
  swap
  · cases absent
  rw [Option.some.inj eq, (timed.1.orderly whole now).peek_written (by omega)]
  · rw [Attempt.sized, if_neg old]
  · intro p here
    rw [Attempt.firstWrites, if_neg old, List.nil_append, Attempt.lastWrites, if_neg old,
      List.mem_singleton] at here
    rw [here]
    exact Or.inr low

/-- The range and the sizes that are stored are those of the first call. -/
theorem stored_range (made : Created page args now file) (again : Reopening page args' sys addr)
    {left : File} (ran : Reopens page args' sys file left) :
    ldSize left 272 = args.shape.hdrSz ∧ ldSize left 280 = args.shape.recSz ∧
      ldRecords left = args.shape.records := by
  have found := made.found
  simp only [headerPatches, List.cons_append, List.nil_append, List.forall_mem_cons] at found
  obtain ⟨_, _, hdr, record, _, _, _, _, _, base, max, _⟩ := found
  refine ⟨?_, ?_, ?_⟩
  · rw [ldSize, reopens_header again ran (by decide)]
    exact ldSize_found hdr args.shape.hdrSz_lt
  · rw [ldSize, reopens_header again ran (by decide)]
    exact ldSize_found record args.shape.recSz_lt
  · have low : ldLong left 328 = args.shape.baseId := by
      rw [ldLong, reopens_header again ran (by decide)]
      exact ldLong_found base args.shape.base_isLong
    have high : ldLong left 336 = args.shape.maxId := by
      rw [ldLong, reopens_header again ran (by decide)]
      exact ldLong_found max args.shape.max_isLong
    obtain ⟨b1, b2⟩ := args.shape.base_isLong
    obtain ⟨m1, m2⟩ := args.shape.max_isLong
    have range := made.accepted.1
    rw [ldRecords, low, high, Shape.records]
    unfold sizeLimit
    omega

/-- A handle with the attributes of the first call has the range that is stored. -/
theorem range_agrees (made : Created page args now file) (again : Reopening page args' sys addr)
    (same : SameAttributes args args') {left : File} (ran : Reopens page args' sys file left) :
    RangeAgrees args'.shape addr left := by
  obtain ⟨header, record, count⟩ := stored_range made again ran
  unfold RangeAgrees
  rw [header, record, count, same.shape]
  exact ⟨rfl, rfl⟩

end Reopening

/-- A storage that is created and left alone is reopened exactly with equal attributes, and
then under the stored range, if and only if attributes that are alike have the same range
or make the loop over the records leave the segment. -/
theorem reopen_equal {page : PageSize} {args args' : CreateArgs} {sys sys' : SysCalls}
    {disk : Option File} {file : File} {addr : Nat} (new : args.flags.creat = true)
    (ran : storageCreate page args sys disk = some (Status.ok, some file))
    (again : Reopening page args' sys' addr) :
    (((∃ left, Reopens page args' sys' file left) ↔ SameAttributes args args') ∧
      ∀ left, Reopens page args' sys' file left → RangeAgrees args'.shape addr left) ↔
    (SameCompared page args args' → (LoopInMap page args'.shape addr ↔
      args'.shape.baseId = args.shape.baseId ∧ args'.shape.maxId = args.shape.maxId)) := by
  obtain ⟨_, now, eq, made⟩ := storageCreate_created new ran (by decide)
  obtain rfl := Option.some.inj eq
  have settles : ((∃ left, Reopens page args' sys' file left) ↔ SameAttributes args args') ↔
      (SameCompared page args args' → (LoopInMap page args'.shape addr ↔
        args'.shape.baseId = args.shape.baseId ∧ args'.shape.maxId = args.shape.maxId)) := by
    rw [reopens_iff made again, sameAttributes_iff made.accepted, and_congr_right_iff]
  constructor
  · exact fun both => settles.mp both.1
  · intro condition
    have equal := settles.mpr condition
    exact ⟨equal, fun left ran => range_agrees made again (equal.mp ⟨left, ran⟩) ran⟩

/-- Values of a byte for the identifiers from zero up to `max`, and a queue of two entries. -/
def rangeShape (max : Int) (long : IsLong max) : Shape where
  baseId := 0
  maxId := max
  valueSize := 1
  propertySize := 0
  qCapacity := 2
  base_isLong := isLong_zero
  max_isLong := long
  value_lt := one_lt_sizeLimit
  property_lt := zero_lt_sizeLimit
  queue_lt := two_lt_sizeLimit

def rangeArgs (creat : Bool) (max : Int) (long : IsLong max) : CreateArgs :=
  ⟨⟨2, creat, creat, false, false⟩, true, rangeShape max long, none⟩

theorem rangeArgs_done : FreshCall.Done ⟨smallPage, rangeArgs true 2 (by decide), smallSys⟩ 65536 7 := by
  have opened : FreshCall.Opened ⟨smallPage, rangeArgs true 2 (by decide), smallSys⟩ :=
    ⟨⟨show (rangeShape 2 _).Accepted by decide, rfl, rfl, rfl⟩, rfl, rfl⟩
  have size : FreshCall.segSz ⟨smallPage, rangeArgs true 2 (by decide), smallSys⟩ = 4096 := by
    show (rangeShape 2 _).segSz smallPage = 4096
    decide
  refine ⟨⟨opened, rfl, ?_, ?_⟩, rfl, nofun, nofun, rfl, rfl⟩
  · rw [size]
    decide
  · rw [size]
    rfl

theorem rangeArgs_reopening {max : Int} (long : IsLong max)
    (size : (rangeShape max long).segSz smallPage = 4096) :
    Reopening smallPage (rangeArgs false max long) smallSys 65536 := by
  refine ⟨rfl, rfl, rfl, rfl, rfl, rfl, rfl, ?_, rfl, rfl, rfl⟩
  show 65536 + (rangeShape max long).segSz smallPage ≤ sizeLimit
  rw [size]
  decide

theorem reopen_equal_small : ∃ file,
    storageCreate smallPage (rangeArgs true 2 (by decide)) smallSys none = some (Status.ok, some file) ∧
    ((∃ left, Reopens smallPage (rangeArgs false 2 (by decide)) smallSys file left) ↔
      SameAttributes (rangeArgs true 2 (by decide)) (rangeArgs false 2 (by decide))) ∧
    ∀ left, Reopens smallPage (rangeArgs false 2 (by decide)) smallSys file left →
      RangeAgrees (rangeShape 2 (by decide)) 65536 left := by
  have ran := FreshCall.result_of_done rangeArgs_done
  have again := rangeArgs_reopening (by decide)
    (show (rangeShape 2 (by decide)).segSz smallPage = 4096 by decide)
  refine ⟨_, ran, (reopen_equal rfl ran again).mpr fun _ => iff_of_true ?_ ⟨rfl, rfl⟩⟩
  show ∀ r ∈ (rangeShape 2 _).recordPtrs 65536, InMap 65536 ((rangeShape 2 _).segSz smallPage) r
  decide

/-- A storage of two records is reopened as one of three. -/
theorem reopen_other_range : ∃ file left,
    storageCreate smallPage (rangeArgs true 2 (by decide)) smallSys none = some (Status.ok, some file) ∧
    Reopens smallPage (rangeArgs false 3 (by decide)) smallSys file left ∧
    ¬ SameAttributes (rangeArgs true 2 (by decide)) (rangeArgs false 3 (by decide)) ∧
    ¬ RangeAgrees (rangeShape 3 (by decide)) 65536 left := by
  have ran := FreshCall.result_of_done rangeArgs_done
  have again := rangeArgs_reopening (by decide)
    (show (rangeShape 3 (by decide)).segSz smallPage = 4096 by decide)
  obtain ⟨file, now, eq, made⟩ := storageCreate_created rfl ran (by decide)
  rw [eq] at ran
  have compared : SameCompared smallPage (rangeArgs true 2 (by decide)) (rangeArgs false 3 (by decide)) := by
    refine ⟨?_, ?_, rfl, rfl, rfl, rfl⟩
    · show (0 : Int) < 3
      decide
    · show (rangeShape 3 _).segSz smallPage = (rangeShape 2 _).segSz smallPage
      decide
  have inMap : LoopInMap smallPage (rangeShape 3 (by decide)) 65536 := by
    show ∀ r ∈ (rangeShape 3 _).recordPtrs 65536, InMap 65536 ((rangeShape 3 _).segSz smallPage) r
    decide
  obtain ⟨left, reopened⟩ := (reopens_iff made again).mpr ⟨compared, inMap⟩
  refine ⟨file, left, ran, reopened, ?_, ?_⟩
  · intro same
    exact absurd same.max (show ¬ (3 : Int) = 2 by decide)
  · obtain ⟨_, record, count⟩ := stored_range made again reopened
    rintro ⟨_, limit⟩
    rw [record, count] at limit
    exact absurd limit (show ¬ (rangeShape 3 (by decide)).limit 65536 =
      ((rangeShape 3 (by decide)).first 65536 + (rangeShape 2 (by decide)).records *
        (rangeShape 2 (by decide)).recSz) % sizeLimit by decide)

end Lancaster
