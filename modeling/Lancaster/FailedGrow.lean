import Lancaster.GrownRecords

/-!
# A failed `storage_grow`

The new storage is complete before the first record is copied. A failure behind that has to
destroy it, and one of them does not: a record of the old storage whose lock is not free
ends the call at once, and leaves a storage that can be opened and a handle for it.
-/

namespace Lancaster

open Bytes

/-- `storage_open` accepts the file, on some system. -/
def Openable (file : File) : Prop :=
  ∃ flags sys, sys.openFile = .ok file ∧ ¬ Status.Failed (storageOpen flags sys).1

/-- A file of zeros has no magic number. -/
theorem zeros_not_openable (n : Nat) : ¬ Openable (List.replicate n 0) := by
  rintro ⟨flags, sys, file, fine⟩
  apply fine
  have magic : segmentSize ≤ n → ¬ SameMagic (List.replicate n 0) := by
    intro long same
    rw [SameMagic, FreshCall.peek_zeros (by unfold segmentSize at long; omega)] at same
    exact absurd same (by decide)
  have refused : ∃ st, checkHeader sys (List.replicate n 0) = some st ∧ Status.Failed st := by
    unfold checkHeader
    split
    · exact ⟨_, rfl, (by decide : Status.Failed Status.storageCorrupted)⟩
    · rename_i long
      rw [List.length_replicate] at long
      split
      · rename_i e _
        exact ⟨_, rfl, (errorErrno_bounds e).2⟩
      · rw [if_pos (magic (Nat.not_lt.mp long))]
        exact ⟨_, rfl, (by decide : Status.Failed Status.storageCorrupted)⟩
  obtain ⟨st, header, failed⟩ := refused
  unfold storageOpen
  split
  · exact (by decide : Status.Failed Status.invalidOpenFlags)
  · split
    · exact (by decide : Status.Failed Status.noMemory)
    · unfold initOpen
      rw [file]
      dsimp only
      split
      · rename_i e _
        exact (errorErrno_bounds e).2
      · rw [header]
        exact failed

/-- A file with the magic number and the version of the code, whose segment has a size. -/
theorem openable_of_header {file : File} (long : segmentSize ≤ file.length) (magic : SameMagic file)
    (version : SameVersion file) (size : ldSize file 264 ≠ 0) : Openable file := by
  refine ⟨readFlags, openable file, rfl, ?_⟩
  have header : checkHeader (openable file) file = none := by
    unfold checkHeader
    rw [if_neg (Nat.not_lt.mpr long)]
    show (if ¬ SameMagic file then _ else _) = none
    rw [if_neg (not_not.mpr magic), if_neg (not_not.mpr version)]
  have mapped : (openable file).mmap (ldSize file 264) = .ok 65536 := if_neg size
  have fine : (storageOpen readFlags (openable file)).1 = Status.ok := by
    rw [storageOpen, if_neg (not_not.mpr (by decide)),
      if_neg (show ¬ (openable file).xmalloc = false by exact Bool.noConfusion), initOpen]
    have opened : (openable file).openFile = .ok file := rfl
    have statted : (openable file).fstat = none := rfl
    have unmapped : (openable file).munmap = none := rfl
    simp only [opened, statted, header, unmapped, mapSegment]
    rw [mapped]
    rfl
  rw [fine]
  decide

namespace GrowCall

variable {t : GrowCall}

variable (t) in
structure Undone (res : Grown) : Prop where
  file : ∀ file, res.disk = some file → ¬ Openable file
  handle : res.handle = none
  old : res.old = t.store.file

variable (t) in
/-- What `storage_destroy` does with what there is succeeds, and no record that is to be copied
is locked. -/
structure Clean : Prop where
  close : t.Entered → t.fresh.Opened → t.sys.create.close.isSome = false
  unmap : t.Entered → ∀ addr, t.fresh.Mapped addr →
    t.sys.create.munmap.isSome = false ∧ t.sys.create.unlink.isSome = false
  free : t.Entered → ∀ addr now, t.fresh.Done addr now →
    ∀ p ∈ t.pairs addr, 0 ≤ ldLong t.store.file (p.1 - t.store.addr)

/-- A mapped file is destroyed exactly if the handle is freed. -/
theorem undone_iff_freed {res : Grown} (old : res.old = t.store.file)
    (gone : res.handle.isSome = false → res.disk = none) :
    t.Undone res ↔ res.handle.isSome = false := by
  constructor
  · intro undone
    rw [undone.handle]
    rfl
  · intro freed
    refine ⟨?_, by simpa using freed, old⟩
    intro file here
    rw [gone freed] at here
    cases here

/-- A mapped file whose records are not locked is cleaned away if each call of
`storage_destroy` succeeds. -/
theorem clean_iff {addr : Nat} (entered : t.Entered) (mapped : t.fresh.Mapped addr)
    (free : ∀ now, t.fresh.Done addr now →
      ∀ p ∈ t.pairs addr, 0 ≤ ldLong t.store.file (p.1 - t.store.addr)) :
    t.Clean ↔ ¬ (t.sys.create.close.isSome = true ∨ t.sys.create.munmap.isSome = true ∨
      t.sys.create.unlink.isSome = true) := by
  simp only [not_or, Bool.not_eq_true]
  constructor
  · intro clean
    exact ⟨clean.close entered mapped.1, clean.unmap entered addr mapped⟩
  · intro works
    refine ⟨fun _ _ => works.1, fun _ _ _ => works.2, ?_⟩
    intro _ addr' now done
    obtain rfl := mapped.unique done.mapped
    exact free now done

end GrowCall

open GrowCall in
/-- A lock in the first record ends the copy before it has begun. -/
theorem grow_locked {t : GrowCall} {addr : Nat} {now : Int} (entered : t.Entered)
    (done : t.fresh.Done addr now) (fits : t.args.shape.RecordsFit t.page)
    (held : ldLong t.store.file (t.store.shape.recordOff 0) < 0) :
    t.storageGrow none = some ⟨Status.deadlockDetected, t.store.file, some (t.fresh.complete now),
      some false⟩ := by
  have posA := Shape.records_pos t.store.accepted
  have posB := Shape.records_pos (accepted_new done)
  obtain ⟨n, count⟩ : ∃ n, copyCount t.store.shape t.args.shape = n + 1 :=
    Nat.exists_eq_succ_of_ne_zero (by unfold copyCount; omega)
  have word : InMap (t.plan addr).seg (t.plan addr).mmapSize
      (t.store.addr + t.store.shape.recordOff 0) := by
    have inside := (t.store.fits.record_le t.store.accepted posA).2
    have long := t.store.fits.recSz_ge t.store.accepted
    unfold InMap plan
    dsimp only
    omega
  have held' : ldLong t.store.file
      (t.store.addr + t.store.shape.recordOff 0 - (t.plan addr).seg) < 0 := by
    unfold plan
    dsimp only
    rw [Nat.add_sub_cancel_left]
    exact held
  rw [storageGrow_done entered done, growInto, copying_eq done, pairs_eq done fits, count,
    List.range_succ_eq_map, List.map_cons, growRecords, Copying.growRecord_held word held']
  rfl

open GrowCall in
/-- A call for a new file that fails is undone exactly if `storage_destroy` succeeds where it
is needed, and no record that is to be copied is locked. -/
theorem failed_grow {t : GrowCall} {res : Grown} (ran : t.storageGrow none = some res)
    (failed : Status.Failed res.status) : t.Undone res ↔ t.Clean := by
  rcases storageGrow_cases ran with ⟨refused, _, old, absent, free⟩ | ⟨entered, _, old, outcome⟩ |
    ⟨entered, addr, now, done, ran⟩
  · refine iff_of_true ⟨?_, free, old⟩ ⟨?_, ?_, ?_⟩
    · intro file here
      rw [absent] at here
      cases here
    · exact fun entered => absurd entered refused
    · exact fun entered => absurd entered refused
    · exact fun entered => absurd entered refused
  · rcases outcome with ⟨unopened, _, absent, alive⟩ | ⟨opened, unmapped, _, ⟨n, zeros⟩, alive⟩ |
      ⟨addr, mapped, undone, _, gone, alive⟩ | ⟨_, _, _, fine, _⟩
    · refine iff_of_true ⟨?_, by simpa using alive, old⟩ ⟨?_, ?_, ?_⟩
      · intro file here
        rw [absent] at here
        cases here
      · exact fun _ opened => absurd opened unopened
      · exact fun _ _ mapped => absurd mapped.1 unopened
      · exact fun _ _ _ done => absurd done.mapped.1 unopened
    · constructor
      · intro undone
        refine ⟨fun _ _ => ?_, ?_, ?_⟩
        · have freed : res.handle.isSome = false := by
            rw [undone.handle]
            rfl
          rw [← freed]
          exact alive.symm
        · exact fun _ addr mapped => absurd mapped (unmapped addr)
        · exact fun _ addr _ done => absurd done.mapped (unmapped addr)
      · intro clean
        have freed : res.handle.isSome = false := alive.trans (clean.close entered opened)
        refine ⟨?_, by simpa using freed, old⟩
        intro file here
        rw [zeros] at here
        obtain rfl := Option.some.inj here
        exact zeros_not_openable n
    · rw [undone_iff_freed old gone, clean_iff entered mapped fun now done => absurd done (undone now),
        ← Bool.not_eq_true]
      exact not_congr alive
    · rw [fine] at failed
      exact absurd failed (by decide)
  rcases growInto_cases ran with ⟨⟨p, here, held⟩, _, old, alive⟩ | ⟨free, ends⟩
  · refine iff_of_false ?_ ?_
    · intro undone
      rw [undone.handle] at alive
      cases alive
    · intro clean
      have := clean.free entered addr now done p here
      omega
  rcases growEnd_cases ends with ⟨_, old, destroyed, alive⟩ | ⟨_, _, rfl⟩
  swap
  · exact absurd failed (by decide : ¬ Status.Failed Status.ok)
  obtain ⟨gone, freed⟩ := FreshCall.storageDestroy_mapped rfl rfl destroyed
  have gone' : res.handle.isSome = false → res.disk = none := by
    intro missing
    apply gone
    rw [alive] at missing
    simpa using missing
  rw [undone_iff_freed old gone', clean_iff entered done.mapped fun _ _ p here => (free p here).free,
    ← freed, alive, Bool.not_eq_false, Bool.not_eq_false']

theorem failed_grow_small : ∃ res, (markedCall (show (rangeShape 2 (by decide)).Accepted by decide)
      rangeShape_fits.1 1 (.error ⟨-5, by decide⟩) (rangeShape 3 (by decide))).storageGrow none = some res ∧
    Status.Failed res.status ∧
    (markedCall (show (rangeShape 2 (by decide)).Accepted by decide)
      rangeShape_fits.1 1 (.error ⟨-5, by decide⟩) (rangeShape 3 (by decide))).Clean := by
  have okA : (rangeShape 2 (by decide)).Accepted := by decide
  have okB : (rangeShape 3 (by decide)).Accepted := by decide
  have ran := GrowCall.storageGrow_end
    (markedCall_entered (b := rangeShape 3 (by decide)) okA rangeShape_fits.1 1 (.error ⟨-5, by decide⟩))
    (markedCall_done okA rangeShape_fits.1 okB rangeShape_fits.2.1 (by decide) 1 (.error ⟨-5, by decide⟩))
    rangeShape_fits.2.1 (fun k below => markedRecord_free okA rangeShape_fits.1
      (Nat.lt_of_lt_of_le below (Nat.min_le_left _ _)))
  have failed : Status.Failed (-5) := by decide
  refine ⟨_, ran, failed, (failed_grow ran failed).mp ⟨nofun, rfl, rfl⟩⟩

/-- The first record is locked: the new storage stays, with a handle, and can be opened. -/
theorem failed_grow_leaves_storage : ∃ t res file, GrowCall.storageGrow t none = some res ∧
    Status.Failed res.status ∧ res.disk = some file ∧ Openable file ∧ res.handle = some false := by
  have okA : (rangeShape 2 (by decide)).Accepted := by decide
  have okB : (rangeShape 3 (by decide)).Accepted := by decide
  have done := markedCall_done okA rangeShape_fits.1 okB rangeShape_fits.2.1 (by decide)
    (lockedWord 5) (.ok 8)
  have found := done.found
  have length := done.length
  simp only [FreshCall.writes, headerPatches, List.cons_append, List.nil_append,
    List.forall_mem_cons] at found
  obtain ⟨version, size, _, _, _, _, _, _, _, _, _, _, _, _, magic, _⟩ := found
  have sameMagic : SameMagic ((markedCall okA rangeShape_fits.1 (lockedWord 5) (.ok 8)
      (rangeShape 3 (by decide))).fresh.complete 7) := by
    have bytes : peek _ 0 4 = digits 4 magicNumber := magic
    rw [SameMagic, bytes]
    decide
  have segSz := ldSize_found size (Shape.segSz_spec _ _).1
  have page : (rangeShape 3 (by decide)).segSz smallPage = 4096 := by decide
  have opens : Openable ((markedCall okA rangeShape_fits.1 (lockedWord 5) (.ok 8)
      (rangeShape 3 (by decide))).fresh.complete 7) := by
    apply openable_of_header _ sameMagic (sameVersion_found version)
    · rw [segSz]
      exact fun zero => absurd (page.symm.trans zero) (by decide)
    · rw [length]
      exact Nat.le_trans (by decide) (Nat.le_of_eq page.symm)
  have held : ldLong (markedRecord (rangeShape 2 (by decide)) smallPage (lockedWord 5))
      ((rangeShape 2 (by decide)).recordOff 0) < 0 := by
    rw [ldLong, rev_markedRecord okA rangeShape_fits.1 _ (Shape.records_pos okA), if_pos rfl]
    decide
  have ran := grow_locked (markedCall_entered okA rangeShape_fits.1 (lockedWord 5) (.ok 8)) done
    rangeShape_fits.2.1 held
  exact ⟨_, _, _, ran, (by decide : Status.Failed Status.deadlockDetected), rfl, opens, rfl⟩

end Lancaster
