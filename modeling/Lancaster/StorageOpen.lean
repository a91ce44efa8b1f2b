import Lancaster.StorageCreate

/-!
# Opening a storage

`storage_open` maps the header of a file, looks at the size of the file, at its magic number and
at its version, and maps the segment at the size that the header gives. It trusts everything
else in the header, and so does every access to the storage behind it.
-/

namespace Lancaster

open Bytes

def Status.storageCorrupted : Int := -242

/-- `sizeof(struct segment)`. -/
def segmentSize : Nat := 1416

/-- `O_RDONLY`. -/
def OpenFlags.readOnly : Nat := 0

def OpenFlags.ToOpen (flags : OpenFlags) : Prop :=
  (flags.accMode = readOnly ∨ flags.accMode = readWrite) ∧
    flags.creat = false ∧ flags.excl = false ∧ flags.others = false

instance (flags : OpenFlags) : Decidable flags.ToOpen := inferInstanceAs (Decidable (_ ∧ _))

structure Errno where
  val : Nat
  pos : 0 < val
  max : val ≤ 133

/-- `error_errno`: numbers from 128 on are moved out of the way of the signals. -/
def errorErrno (e : Errno) : Int := -(if e.val < 128 then e.val else e.val + 70 : Nat)

/-- What the system answers to the calls of `init_open`; `mmap` is asked for a length. -/
structure OpenCalls where
  xmalloc : Bool
  openFile : Except Failure File
  fstat : Option Errno
  mmap : Nat → Except Errno Nat
  munmap : Option Errno
  xstrdup : Bool

structure OpenStorage where
  seg : Nat
  first : Nat
  limit : Nat
  mmapSize : Nat
  isReadOnly : Bool

/-- `max_id - base_id` as a `size_t`. -/
def ldRecords (file : File) : Nat := ((ldLong file 336 - ldLong file 328) % sizeLimit).toNat

def SameMagic (file : File) : Prop := value (peek file 0 4) = magicNumber

instance (file : File) : Decidable (SameMagic file) := inferInstanceAs (Decidable (_ = _))

/-- The checks of `init_open` on the header, in its order. -/
def checkHeader (sys : OpenCalls) (file : File) : Option Int :=
  if file.length < segmentSize then some Status.storageCorrupted
  else
    match sys.mmap segmentSize with
    | .error e => some (errorErrno e)
    | .ok _ =>
      if ¬ SameMagic file then some Status.storageCorrupted
      else if ¬ SameVersion file then some Status.wrongFileVersion
      else none

/-- The segment is mapped at the size that the header gives. -/
def mapSegment (readOnly : Bool) (sys : OpenCalls) (file : File) : Int × Option OpenStorage :=
  match sys.mmap (ldSize file 264) with
  | .error e => (errorErrno e, none)
  | .ok seg =>
    if sys.xstrdup = false then (Status.noMemory, none)
    else
      let first := (seg + ldSize file 272) % sizeLimit
      (Status.ok, some {
        seg := seg
        first := first
        limit := (first + ldRecords file * ldSize file 280) % sizeLimit
        mmapSize := ldSize file 264
        isReadOnly := readOnly })

def initOpen (flags : OpenFlags) (sys : OpenCalls) : Int × Option OpenStorage :=
  match sys.openFile with
  | .error e => (e.val, none)
  | .ok file =>
    match sys.fstat with
    | some e => (errorErrno e, none)
    | none =>
      match checkHeader sys file with
      | some st => (st, none)
      | none =>
        match sys.munmap with
        | some e => (errorErrno e, none)
        | none => mapSegment (decide (flags.accMode = OpenFlags.readOnly)) sys file

/-- `storage_open`: its status, and the handle. What `init_open` has built when it fails is
destroyed, and the file stays. -/
def storageOpen (flags : OpenFlags) (sys : OpenCalls) : Int × Option OpenStorage :=
  if ¬ flags.ToOpen then (Status.invalidOpenFlags, none)
  else if sys.xmalloc = false then (Status.noMemory, none)
  else initOpen flags sys

/-! ## What opening verifies -/

/-- The header describes a segment that lies in the file, with all that it says is in it. -/
structure Consistent (file : File) : Prop where
  segment : ldSize file 264 ≤ file.length
  capacity : (ldSize file 368 + 1) % sizeLimit = 0 ∨ ∃ k, (ldSize file 368 + 1) % sizeLimit = 2 ^ k
  queue : 1408 + 8 * ((ldSize file 368 + 1) % sizeLimit) ≤ ldSize file 272
  range : ldLong file 328 < ldLong file 336
  value : ldSize file 312 + ldSize file 288 ≤ ldSize file 280
  property : 0 < ldSize file 296 → ldSize file 320 + ldSize file 296 ≤ ldSize file 280
  records : ldSize file 272 + ldSize file 280 * (ldLong file 336 - ldLong file 328).toNat ≤
    ldSize file 264

/-- What is opened is consistent, and what is not is refused for what it is. -/
def Verified (file : File) (st : Int) : Prop :=
  (st = Status.ok → Consistent file) ∧
    (st ≠ Status.ok → st = Status.storageCorrupted ∨ st = Status.wrongFileVersion)

/-- The calls whose outcome does not depend on what is in the file succeed. -/
structure OpenCalls.Works (sys : OpenCalls) (file : File) : Prop where
  xmalloc : sys.xmalloc = true
  openFile : sys.openFile = .ok file
  fstat : sys.fstat = none
  mmap : (sys.mmap segmentSize).isOk
  munmap : sys.munmap = none
  xstrdup : sys.xstrdup = true

theorem errorErrno_bounds (e : Errno) : -203 ≤ errorErrno e ∧ errorErrno e < 0 := by
  have pos := e.pos
  have max := e.max
  unfold errorErrno
  split <;> omega

/-- A file that passes the three checks is opened if its segment can be mapped. -/
theorem mapSegment_verified {sys : OpenCalls} {file : File} (works : sys.Works file)
    (readOnly : Bool) :
    Verified file (mapSegment readOnly sys file).1 ↔
      Consistent file ∧ (sys.mmap (ldSize file 264)).isOk := by
  unfold mapSegment Verified
  cases sys.mmap (ldSize file 264) with
  | error e =>
    obtain ⟨low, high⟩ := errorErrno_bounds e
    have other : errorErrno e ≠ Status.ok := by
      unfold Status.ok
      omega
    refine iff_of_false ?_ fun both => Bool.false_ne_true both.2
    rintro ⟨_, refused⟩
    rcases refused other with corrupted | version
    · have code : errorErrno e = -242 := corrupted
      omega
    · have code : errorErrno e = -229 := version
      omega
  | ok seg =>
    have named : ¬ sys.xstrdup = false := by
      rw [works.xstrdup]
      decide
    dsimp only
    rw [if_neg named]
    constructor
    · exact fun verified => ⟨verified.1 rfl, rfl⟩
    · exact fun both => ⟨fun _ => both.1, fun other => absurd rfl other⟩

/-- Opening verifies a file if and only if one of the three checks refuses it, or its header is
consistent and its segment can be mapped. -/
theorem storageOpen_verified {flags : OpenFlags} (valid : flags.ToOpen) {sys : OpenCalls}
    {file : File} (works : sys.Works file) :
    Verified file (storageOpen flags sys).1 ↔
      file.length < segmentSize ∨ ¬ SameMagic file ∨ ¬ SameVersion file ∨
      (Consistent file ∧ (sys.mmap (ldSize file 264)).isOk) := by
  have corrupted : Verified file Status.storageCorrupted :=
    ⟨fun other => absurd other (by decide), fun _ => Or.inl rfl⟩
  have version : Verified file Status.wrongFileVersion :=
    ⟨fun other => absurd other (by decide), fun _ => Or.inr rfl⟩
  have alive : ¬ sys.xmalloc = false := by
    rw [works.xmalloc]
    decide
  obtain ⟨addr, mapped⟩ : ∃ addr, sys.mmap segmentSize = .ok addr := by
    have mmap := works.mmap
    cases h : sys.mmap segmentSize with
    | error e =>
      rw [h] at mmap
      cases mmap
    | ok addr => exact ⟨addr, rfl⟩
  rw [storageOpen, if_neg (not_not.mpr valid), if_neg alive, initOpen, works.openFile]
  simp only [works.fstat, checkHeader]
  by_cases short : file.length < segmentSize
  · rw [if_pos short]
    exact iff_of_true corrupted (Or.inl short)
  rw [if_neg short, mapped]
  by_cases magic : SameMagic file
  · by_cases same : SameVersion file
    · simp only [magic, same, not_true_eq_false, ↓reduceIte, works.munmap]
      rw [mapSegment_verified works]
      constructor
      · exact fun both => Or.inr (Or.inr (Or.inr both))
      · rintro (bad | bad | bad | both)
        · exact absurd bad short
        · exact bad.elim
        · exact bad.elim
        · exact both
    · simp only [magic, same, not_true_eq_false, not_false_eq_true, ↓reduceIte]
      exact iff_of_true version (Or.inr (Or.inr (Or.inl trivial)))
  · simp only [magic, not_false_eq_true, ↓reduceIte]
    exact iff_of_true corrupted (Or.inr (Or.inl trivial))

/-- A system on which everything but a segment of size zero can be mapped. -/
def openable (file : File) : OpenCalls where
  xmalloc := true
  openFile := .ok file
  fstat := none
  mmap := fun size => if size = 0 then .error ⟨22, by decide, by decide⟩ else .ok 65536
  munmap := none
  xstrdup := true

theorem openable_works (file : File) : (openable file).Works file :=
  ⟨rfl, rfl, rfl, rfl, rfl, rfl⟩

def readFlags : OpenFlags := ⟨OpenFlags.readOnly, false, false, false, false⟩

/-- The magic number and the version, at the beginning of `size` bytes. -/
def markedFile (size : Nat) : File := patch (List.replicate size 0) [magicPatch, ⟨4, digits 2 256⟩]

/-- A header that claims a page, in a file of which nothing else is left: it is opened. -/
def truncatedFile : File := patch (markedFile segmentSize) [⟨264, sizeBytes 4096⟩]

theorem storageOpen_unverified :
    (storageOpen readFlags (openable truncatedFile)).1 = Status.ok ∧
      ¬ Verified truncatedFile (storageOpen readFlags (openable truncatedFile)).1 := by
  have opened : (storageOpen readFlags (openable truncatedFile)).1 = Status.ok := by
    decide +kernel
  refine ⟨opened, fun verified => ?_⟩
  have inside : ldSize truncatedFile 264 ≤ truncatedFile.length := (verified.1 opened).segment
  revert inside
  decide +kernel

/-- One record of a byte behind a header without a queue. -/
def oneRecordFile : File := patch (markedFile 1440)
  [⟨264, sizeBytes 1440⟩, ⟨272, sizeBytes 1416⟩, ⟨280, sizeBytes 24⟩, ⟨288, sizeBytes 1⟩,
   ⟨304, sizeBytes 8⟩, ⟨312, sizeBytes 16⟩, ⟨336, ofLong 1⟩, ⟨368, sizeBytes (sizeLimit - 1)⟩]

theorem storageOpen_verified_small :
    Verified oneRecordFile (storageOpen readFlags (openable oneRecordFile)).1 := by
  apply (storageOpen_verified (by decide) (openable_works oneRecordFile)).mpr
  refine Or.inr (Or.inr (Or.inr ⟨⟨?_, Or.inl ?_, ?_, ?_, ?_, ?_, ?_⟩, ?_⟩)) <;> decide +kernel

end Lancaster
