import Lancaster.Base.Patches
import Lancaster.SegmentLayout
import Lancaster.Storage

/-!
# Creating a storage

`storage_create` over a file that may exist: it sizes the file or checks its size, maps it,
fills in or compares the header, releases the locks that a dead writer has left in the
records, and notes the time. A failure hands the half-built handle to `storage_destroy`,
which removes the file if it was mapped and is not meant to persist.

The mapping is shared, so that a write to the segment is a write to the file. A file is the
list of its bytes, or absent. Every system call may fail; a call that fails changes nothing.
An access outside the mapping kills the process, for which the result is `none`.
-/

namespace Lancaster

open Bytes

abbrev File := List UInt8

namespace Status

def wrongFileVersion : Int := -229
def bufferTooSmall : Int := -235
def storageUnequal : Int := -241
def invalidOpenFlags : Int := -247
def noEntry : Int := -2
def fileExists : Int := -17

end Status

structure OpenFlags where
  accMode : Nat
  creat : Bool
  excl : Bool
  nofollow : Bool
  /-- Some other bit is set. -/
  others : Bool

/-- `O_RDWR`. -/
def OpenFlags.readWrite : Nat := 2

/-- The arguments of `storage_create`. A description is a string without its final zero. -/
structure CreateArgs where
  flags : OpenFlags
  persist : Bool
  shape : Shape
  desc : Option { bs : List UInt8 // 0 ∉ bs }

/-- What the system answers to the calls of `init_create` and `storage_destroy`. -/
structure SysCalls where
  xmalloc : Bool
  openFile : Option Failure
  ftruncate : Option Failure
  fstat : Option Failure
  /-- The address of the segment. -/
  mmap : Except Failure Nat
  xstrdup : Bool
  clockTime : Except Failure Int
  msync : Option Failure
  close : Option Failure
  munmap : Option Failure
  unlink : Option Failure

def resize (file : File) (size : Nat) : File :=
  file.take size ++ List.replicate (size - file.length) 0

/-! ## Fields of the header -/

def sizeBytes (n : Nat) : List UInt8 := digits 8 n

def ldSize (file : File) (off : Nat) : Nat := value (peek file off 8)

/-- Where `struct segment` holds the creation time and the lock of the touch time. -/
def lastCreatedOff : Nat := 344
def lastTouchedOff : Nat := 352
def lastTouchedRevOff : Nat := 360

def magicNumber : Nat := 0x0C0FFEE0

def magicPatch : Patch := ⟨0, digits 4 magicNumber⟩

def createdPatch (now : Int) : Patch := ⟨lastCreatedOff, ofLong now⟩

/-- The fields that `init_create` writes with `O_CREAT`, in its order. -/
def headerPatches (a : Shape) (page : PageSize) : List Patch :=
  [⟨4, digits 2 256⟩, ⟨264, sizeBytes (a.segSz page)⟩, ⟨272, sizeBytes a.hdrSz⟩,
   ⟨280, sizeBytes a.recSz⟩, ⟨288, sizeBytes a.valueSize⟩, ⟨296, sizeBytes a.propertySize⟩,
   ⟨304, sizeBytes 8⟩, ⟨312, sizeBytes 16⟩, ⟨320, sizeBytes a.propOffset⟩,
   ⟨328, ofLong a.baseId⟩, ⟨336, ofLong a.maxId⟩,
   ⟨368, sizeBytes ((a.qCapacity + (sizeLimit - 1)) % sizeLimit)⟩]

/-- `storage_set_description`, for a description that is not too long. -/
def descPatch : Option { bs : List UInt8 // 0 ∉ bs } → Patch
  | some bs => ⟨8, bs.val ++ [0]⟩
  | none => ⟨8, List.replicate 256 0⟩

def DescFits (desc : Option { bs : List UInt8 // 0 ∉ bs }) : Prop :=
    ∀ bs ∈ desc, bs.val.length < 256

instance (desc : Option { bs : List UInt8 // 0 ∉ bs }) : Decidable (DescFits desc) :=
  inferInstanceAs (Decidable (∀ bs ∈ desc, _))

theorem descFits_none : DescFits none := by
  intro bs here
  cases here

/-- The description in the file equals the one that is asked for. -/
def SameDesc (desc : Option { bs : List UInt8 // 0 ∉ bs }) (file : File) : Prop :=
  match desc with
  | some bs => (file.drop 8).takeWhile (· ≠ 0) = bs.val
  | none => (file.drop 8).head? = some 0

instance (desc : Option { bs : List UInt8 // 0 ∉ bs }) (file : File) :
    Decidable (SameDesc desc file) :=
  match desc with
  | some _ => inferInstanceAs (Decidable (_ = _))
  | none => inferInstanceAs (Decidable (_ = _))

/-- `file_version >> 8` is the major version of the code. -/
def SameVersion (file : File) : Prop := value (peek file 5 1) = 1

instance (file : File) : Decidable (SameVersion file) := inferInstanceAs (Decidable (_ = _))

/-- The fields that are compared without `O_CREAT`. The range of identifiers is not among them. -/
def SameHeader (args : CreateArgs) (page : PageSize) (file : File) : Prop :=
  let a := args.shape
  ldSize file 264 = a.segSz page ∧ ldSize file 272 = a.hdrSz ∧ ldSize file 280 = a.recSz ∧
  ldSize file 288 = a.valueSize ∧ ldSize file 296 = a.propertySize ∧ ldSize file 304 = 8 ∧
  ldSize file 312 = 16 ∧ ldSize file 320 = a.propOffset ∧
  ldSize file 368 = (a.qCapacity + (sizeLimit - 1)) % sizeLimit ∧ SameDesc args.desc file

instance (args : CreateArgs) (page : PageSize) (file : File) :
    Decidable (SameHeader args page file) :=
  inferInstanceAs (Decidable (_ ∧ _ ∧ _ ∧ _ ∧ _ ∧ _ ∧ _ ∧ _ ∧ _ ∧ _))

/-! ## Lock words -/

/-- `first` and `limit`: the pointers to the records, for a segment at `addr`. -/
def Shape.first (a : Shape) (addr : Nat) : Nat := (addr + a.hdrSz) % sizeLimit

def Shape.limit (a : Shape) (addr : Nat) : Nat := (a.first addr + a.records * a.recSz) % sizeLimit

def Shape.recordPtrs (a : Shape) (addr : Nat) : List Nat :=
  if a.first addr < a.limit addr then
    (List.range ((a.limit addr - a.first addr + a.recSz - 1) / a.recSz)).map fun k =>
      a.first addr + k * a.recSz
  else []

def InMap (addr size r : Nat) : Prop := addr ≤ r ∧ r + 8 ≤ addr + size

instance (addr size r : Nat) : Decidable (InMap addr size r) := inferInstanceAs (Decidable (_ ∧ _))

def releaseWord (file : File) (off : Nat) : File :=
  if ldLong file off < 0 then stLong file off (ldLong file off + 9223372036854775808) else file

def releaseRecords (a : Shape) (page : PageSize) (addr : Nat) (file : File) : Option File :=
  if ∀ r ∈ a.recordPtrs addr, InMap addr (a.segSz page) r then
    some ((a.recordPtrs addr).foldl (fun file r => releaseWord file (r - addr)) file)
  else none

/-! ## The calls -/

/-- The handle as `init_create` leaves it: which of its fields are set, and the file. -/
structure Built where
  status : Int
  disk : Option File
  fd : Bool
  seg : Bool
  mmapFile : Bool

def openFile (flags : OpenFlags) (sys : SysCalls) (disk : Option File) : Except Failure File :=
  match sys.openFile, disk with
  | some e, _ => .error e
  | none, some file =>
    if flags.creat ∧ flags.excl then .error ⟨Status.fileExists, by decide⟩ else .ok file
  | none, none => if flags.creat then .ok [] else .error ⟨Status.noEntry, by decide⟩

/-- `ftruncate` with `O_CREAT`, else `fstat` and the comparison of sizes. -/
def sizeFile (creat : Bool) (size : Nat) (sys : SysCalls) (file : File) : Except Failure File :=
  if creat then
    match sys.ftruncate with
    | some e => .error e
    | none =>
      if 9223372036854775808 ≤ size then .error ⟨Status.invalidArg, by decide⟩
      else .ok (resize file size)
  else
    match sys.fstat with
    | some e => .error e
    | none => if file.length ≠ size then .error ⟨Status.storageUnequal, by decide⟩ else .ok file

/-- `mmap` finds room for the segment, and has none of size zero. -/
def mapFile (size : Nat) (sys : SysCalls) : Except Failure Nat :=
  match sys.mmap with
  | .error e => .error e
  | .ok addr =>
    if 0 < size ∧ addr + size ≤ sizeLimit then .ok addr else .error ⟨Status.invalidArg, by decide⟩

/-- The header is filled in with `O_CREAT`, else compared. -/
def fillHeader (args : CreateArgs) (page : PageSize) (file : File) : Option Failure × File :=
  if args.flags.creat then
    let file := patch file (headerPatches args.shape page)
    if DescFits args.desc then (none, patch file [descPatch args.desc])
    else (some ⟨Status.bufferTooSmall, by decide⟩, file)
  else if ¬ SameVersion file then (some ⟨Status.wrongFileVersion, by decide⟩, file)
  else if ¬ SameHeader args page file then (some ⟨Status.storageUnequal, by decide⟩, file)
  else (none, file)

/-- The end of `init_create`: the time of creation, the magic number and `storage_sync`. -/
def finish (creat : Bool) (sys : SysCalls) (file : File) : Built :=
  match sys.clockTime with
  | .error e => ⟨e.val, some file, true, true, true⟩
  | .ok now =>
    let file := patch file (createdPatch now :: if creat then [magicPatch] else [])
    match sys.msync with
    | some e => ⟨e.val, some file, true, true, true⟩
    | none => ⟨Status.ok, some file, true, true, true⟩

def initCreate (page : PageSize) (args : CreateArgs) (sys : SysCalls) (disk : Option File) :
    Option Built :=
  match openFile args.flags sys disk with
  | .error e => some ⟨e.val, disk, false, false, false⟩
  | .ok file =>
    match sizeFile args.flags.creat (args.shape.segSz page) sys file with
    | .error e => some ⟨e.val, some file, true, false, false⟩
    | .ok file =>
      match mapFile (args.shape.segSz page) sys with
      | .error e => some ⟨e.val, some file, true, false, false⟩
      | .ok addr =>
        if sys.xstrdup = false then some ⟨Status.noMemory, some file, true, true, false⟩
        else
          match fillHeader args page file with
          | (some e, file) => some ⟨e.val, some file, true, true, true⟩
          | (none, file) =>
            if args.flags.creat ∧ args.flags.excl then some (finish args.flags.creat sys file)
            else (releaseRecords args.shape page addr file).map (finish args.flags.creat sys)

/-- `storage_destroy` after a failure: what is left of the file. Removing a file without a
name kills the process. -/
def storageDestroy (persist : Bool) (sys : SysCalls) (b : Built) : Option (Option File) :=
  if b.fd ∧ sys.close.isSome then some b.disk
  else if b.seg then
    if sys.munmap.isSome then some b.disk
    else if persist then some b.disk
    else if b.mmapFile = false then none
    else if sys.unlink.isSome then some b.disk
    else some none
  else some b.disk

/-- The status of `storage_create` and what the file is then. -/
def storageCreate (page : PageSize) (args : CreateArgs) (sys : SysCalls) (disk : Option File) :
    Option (Int × Option File) :=
  let a := args.shape
  if a.maxId ≤ a.baseId ∨ a.valueSize = 0 then some (Status.invalidArg, disk)
  else if a.qCapacity = 1 ∨ a.qCapacity &&& (a.qCapacity - 1) ≠ 0 then
    some (Status.invalidCapacity, disk)
  else if args.flags.accMode ≠ OpenFlags.readWrite ∨ args.flags.others then
    some (Status.invalidOpenFlags, disk)
  else if sys.xmalloc = false then some (Status.noMemory, disk)
  else
    (initCreate page args sys disk).bind fun b =>
      if Status.Failed b.status then (storageDestroy args.persist sys b).map fun disk => (b.status, disk)
      else some (b.status, b.disk)

def smallSys : SysCalls where
  xmalloc := true
  openFile := none
  ftruncate := none
  fstat := none
  mmap := .ok 65536
  xstrdup := true
  clockTime := .ok 7
  msync := none
  close := none
  munmap := none
  unlink := none

end Lancaster
