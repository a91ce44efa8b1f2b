import Lancaster.CreateOutcomes
import Lancaster.Spin

/-!
# Locks that a dead writer has left

A writer may die with the sign bit set in any lock word of its storage. A later
`storage_create` releases the locks of the records, but not the one that guards the time of
the last touch.
-/

namespace Lancaster

open Bytes

/-! ## Locks that nobody else takes -/

def recordReadLock (file : File) (off : Nat) : Except Failure Int := spin (ldLong file off)

/-- The old revision, and the file with the lock taken. -/
def recordWriteLock (file : File) (off : Nat) : Except Failure (Int × File) :=
  (spin (ldLong file off)).map fun rev => (rev, stLong file off (lockedWord rev))

def storageTouch (file : File) (now : Int) : Except Failure File :=
  (spin (ldLong file lastTouchedRevOff)).map fun rev =>
    stLong (stLong file lastTouchedOff now) lastTouchedRevOff (nextRev rev)

def storageGetTouchedTime (file : File) : Except Failure Int :=
  (spin (ldLong file lastTouchedRevOff)).map fun _ => ldLong file lastTouchedOff

/-- No lock is held, and everyone gets the locks. -/
structure Released (file : File) (offs : List Nat) : Prop where
  records : ∀ o ∈ offs, 0 ≤ ldLong file o
  touched : 0 ≤ ldLong file lastTouchedRevOff
  reads : ∀ o ∈ offs, (recordReadLock file o).isOk
  writes : ∀ o ∈ offs, (recordWriteLock file o).isOk
  touches : ∀ now, (storageTouch file now).isOk
  asks : (storageGetTouchedTime file).isOk

theorem isOk_map {α β : Type} (x : Except Failure α) (f : α → β) : (x.map f).isOk = x.isOk := by
  cases x <;> rfl

theorem released_iff {file : File} {offs : List Nat} (records : ∀ o ∈ offs, 0 ≤ ldLong file o) :
    Released file offs ↔ 0 ≤ ldLong file lastTouchedRevOff := by
  constructor
  · exact fun h => h.touched
  · intro touched
    refine ⟨records, touched, ?_, ?_, ?_, ?_⟩
    · exact fun o here => spin_ok_iff.mpr (records o here)
    · intro o here
      rw [recordWriteLock, isOk_map]
      exact spin_ok_iff.mpr (records o here)
    · intro now
      rw [storageTouch, isOk_map]
      exact spin_ok_iff.mpr touched
    · rw [storageGetTouchedTime, isOk_map]
      exact spin_ok_iff.mpr touched

/-! ## What a successful call leaves -/

namespace Attempt

variable {t : Attempt}

/-- No write touches the lock of the touch time. -/
theorem writes_avoid {addr : Nat} (h : t.Filled addr) (now : Int) :
    ∀ p ∈ t.firstWrites ++ t.lastWrites now, p.Avoids lastTouchedRevOff 8 := by
  have desc : t.creat → (descPatch t.args.desc).Avoids lastTouchedRevOff 8 := by
    intro new
    obtain ⟨off, len⟩ := descPatch_size (h.fits new)
    left
    unfold lastTouchedRevOff
    omega
  intro p here
  rcases List.mem_append.mp here with here | here
  · unfold firstWrites at here
    split at here
    · rename_i new
      rcases List.mem_append.mp here with here | here
      · simp only [headerPatches, List.mem_cons, List.not_mem_nil, or_false] at here
        rcases here with rfl | rfl | rfl | rfl | rfl | rfl | rfl | rfl | rfl | rfl | rfl | rfl <;>
          simp [Patch.Avoids, sizeBytes, lastTouchedRevOff]
      · obtain rfl := List.mem_singleton.mp here
        exact desc new
    · cases here
  · unfold lastWrites at here
    rcases List.mem_cons.mp here with rfl | here
    · simp [Patch.Avoids, createdPatch, lastCreatedOff, lastTouchedRevOff]
    · split at here
      · obtain rfl := List.mem_singleton.mp here
        simp [Patch.Avoids, magicPatch, lastTouchedRevOff]
      · cases here

/-- The lock of the touch time is as it was in the file. -/
theorem touched_written {addr : Nat} {now : Int} (timed : t.Timed addr now) (whole : t.Whole addr)
    (segment : 1416 ≤ t.file.length) :
    ldLong (written t.sized t.firstWrites (t.locks addr) (t.lastWrites now)) lastTouchedRevOff =
      ldLong t.file lastTouchedRevOff := by
  have size := segSz_ge ⟨addr, timed.1.1.1⟩
  unfold ldLong
  rw [(timed.1.orderly whole now).peek_written (by decide) (writes_avoid timed.1 now)]
  unfold Attempt.sized
  split
  · rw [peek_resize]
    · unfold lastTouchedRevOff
      omega
    · unfold lastTouchedRevOff
      omega
  · rfl

end Attempt

open Attempt in
/-- A successful `storage_create` over the segment of a dead writer leaves no lock of a record
held. It leaves no lock held at all exactly if the writer did not die in `storage_touch`. -/
theorem locks_released {t : Attempt} {st : Int} {disk : Option File}
    (ran : t.result = some (st, disk))
    (fine : ¬ Status.Failed st) (segment : 1416 ≤ t.file.length) :
    ∃ addr file, t.Mapped addr ∧ disk = some file ∧
      (∀ o ∈ t.locks addr, 0 ≤ ldLong file o) ∧
      (Released file (t.locks addr) ↔ 0 ≤ ldLong t.file lastTouchedRevOff) := by
  rcases outcome ran with ⟨_, failed, _⟩ | ⟨_, _, failed, _⟩ | ⟨addr, last, named, ends, left⟩
  · exact absurd failed fine
  · exact absurd failed fine
  rcases left with ⟨rfl, _⟩ | ⟨_, failed, _⟩
  swap
  · exact absurd failed fine
  rcases ends with ⟨_, failed, _⟩ | ⟨_, _, _, failed, _⟩ | ⟨now, timed, whole, _, rfl⟩
  · exact absurd failed fine
  · exact absurd failed fine
  have free := (timed.1.orderly whole now).ldLong_written
  refine ⟨addr, _, named.1, rfl, free, ?_⟩
  rw [released_iff free, touched_written timed whole segment]

/-- The storage of two records is created over a segment in which the lock at `off` is held. -/
def smallRecovery (off : Nat) : Attempt where
  page := smallPage
  args := ⟨⟨2, true, false, false, false⟩, true,
    smallShape 0 2 zero_lt_sizeLimit two_lt_sizeLimit, none⟩
  sys := smallSys
  file := stLong (List.replicate 4096 0) off (lockedWord 5)

theorem smallRecovery_timed (off : Nat) : (smallRecovery off).Timed 65536 7 := by
  have opened : (smallRecovery off).Opened := by
    refine ⟨?_, rfl, rfl, rfl, rfl, nofun⟩
    show (smallShape 0 2 _ _).Accepted
    decide
  have size : (smallRecovery off).segSz = 4096 := by
    show (smallShape 0 2 _ _).segSz smallPage = 4096
    decide
  have mapped : mapFile (smallRecovery off).segSz smallSys = .ok 65536 := by
    rw [size]
    rfl
  have small : (smallRecovery off).segSz < 9223372036854775808 := by omega
  exact ⟨⟨⟨⟨⟨opened, rfl, small⟩, mapped⟩, rfl⟩, nofun⟩, rfl⟩

theorem smallRecovery_whole (off : Nat) : (smallRecovery off).Whole 65536 := by
  show ∀ r ∈ (smallShape 0 2 _ _).recordPtrs 65536,
    InMap 65536 ((smallShape 0 2 _ _).segSz smallPage) r
  decide

theorem smallRecovery_segment {off : Nat} (low : off + 8 ≤ 4096) :
    1416 ≤ (smallRecovery off).file.length := by
  have length : (List.replicate 4096 (0 : UInt8)).length = 4096 := List.length_replicate
  show 1416 ≤ (stLong (List.replicate 4096 0) off (lockedWord 5)).length
  rw [length_stLong (by omega), length]
  decide

/-- The writer has died in the first record. -/
theorem locks_released_small : ∃ addr file, (smallRecovery 1424).result = some (Status.ok, some file) ∧
    Released file ((smallRecovery 1424).locks addr) := by
  have ran := Attempt.result_of_timed (smallRecovery_timed 1424) (smallRecovery_whole 1424) rfl
  obtain ⟨addr, file, _, eq, _, all⟩ :=
    locks_released ran (by decide) (smallRecovery_segment (by decide))
  rw [eq] at ran
  exact ⟨addr, file, ran, all.mpr (by decide +kernel)⟩

/-- The writer has died in `storage_touch`, and nobody can touch the storage again. -/
theorem touch_lock_stays : ∃ file,
    (smallRecovery lastTouchedRevOff).result = some (Status.ok, some file) ∧
      1416 ≤ (smallRecovery lastTouchedRevOff).file.length ∧
      ldLong file lastTouchedRevOff < 0 ∧
      storageTouch file 8 = .error ⟨Status.deadlockDetected, Status.failed_deadlockDetected⟩ := by
  have timed := smallRecovery_timed lastTouchedRevOff
  have whole := smallRecovery_whole lastTouchedRevOff
  have segment := smallRecovery_segment (show lastTouchedRevOff + 8 ≤ 4096 by decide)
  have word := Attempt.touched_written timed whole segment
  have held : ldLong (smallRecovery lastTouchedRevOff).file lastTouchedRevOff < 0 := by
    decide +kernel
  rw [← word] at held
  refine ⟨_, Attempt.result_of_timed timed whole rfl, segment, held, ?_⟩
  rw [storageTouch, spin_negative held]
  rfl

end Lancaster
