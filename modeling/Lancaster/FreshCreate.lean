import Lancaster.CreateOutcomes

/-!
# Creating a storage where there was no file

A call of `storage_create` that finds no file makes one of zeros and writes the header into
it. A failure on the way hands the handle to `storage_destroy`, which gives up at the first
of its own calls that fails: the handle is then still there, and the file may be too.
-/

namespace Lancaster

open Bytes

/-! ## The handle -/

/-- Whether `storage_destroy` comes to free the handle. -/
def handleFreed (persist : Bool) (sys : SysCalls) (b : Built) : Bool :=
  !(b.fd && sys.close.isSome) &&
    !(b.seg && (sys.munmap.isSome || (!persist && sys.unlink.isSome)))

/-- Whether `*pstore` is a handle after a call of `storage_create` that returns. -/
def handleLeft (page : PageSize) (args : CreateArgs) (sys : SysCalls) (disk : Option File) : Bool :=
  decide (args.Checked sys) &&
    match initCreate page args sys disk with
    | none => false
    | some b => !(decide (Status.Failed b.status) && handleFreed args.persist sys b)

/-! ## The steps of a call -/

/-- A call of `storage_create` for a file that does not exist. -/
structure FreshCall where
  page : PageSize
  args : CreateArgs
  sys : SysCalls

namespace FreshCall

variable (t : FreshCall)

def segSz : Nat := t.args.shape.segSz t.page

def Opened : Prop := t.args.Checked t.sys ∧ t.sys.openFile = none ∧ t.args.flags.creat = true

/-- The file is mapped at `addr`, with nothing in it but zeros. -/
def Mapped (addr : Nat) : Prop :=
  t.Opened ∧ t.sys.ftruncate = none ∧ t.segSz < 9223372036854775808 ∧
    mapFile t.segSz t.sys = .ok addr

def Whole (addr : Nat) : Prop := ∀ r ∈ t.args.shape.recordPtrs addr, InMap addr t.segSz r

structure Done (addr : Nat) (now : Int) : Prop where
  mapped : t.Mapped addr
  named : t.sys.xstrdup = true
  fits : DescFits t.args.desc
  whole : t.args.flags.excl = false → t.Whole addr
  timed : t.sys.clockTime = .ok now
  synced : t.sys.msync = none

def writes (now : Int) : List Patch :=
  headerPatches t.args.shape t.page ++ [descPatch t.args.desc, createdPatch now, magicPatch]

def complete (now : Int) : File := patch (List.replicate t.segSz 0) (t.writes now)

variable {t}

theorem Mapped.unique {addr addr' : Nat} (h : t.Mapped addr) (h' : t.Mapped addr') :
    addr' = addr := by
  have same := h.2.2.2
  rw [h'.2.2.2] at same
  exact Except.ok.inj same

theorem segSz_ge {addr : Nat} (h : t.Mapped addr) : 4096 ≤ t.segSz := mapFile_page h.2.2.2

/-! ## A file of zeros -/

theorem peek_zeros {size off n : Nat} (within : off + n ≤ size) :
    peek (List.replicate size (0 : UInt8)) off n = List.replicate n 0 := by
  rw [peek, List.drop_replicate, List.take_replicate, Nat.min_eq_left (by omega)]

theorem ldLong_zeros {file : File} {off : Nat} (zeros : peek file off 8 = List.replicate 8 0) :
    ldLong file off = 0 := by
  rw [ldLong, zeros]
  decide

theorem orderly {addr : Nat} (mapped : t.Mapped addr) (fits : DescFits t.args.desc)
    (whole : t.Whole addr) (now : Int) :
    Orderly (List.replicate t.segSz 0) (headerPatches t.args.shape t.page ++ [descPatch t.args.desc])
      ((t.args.shape.recordPtrs addr).map (· - addr)) [createdPatch now, magicPatch] := by
  have long := segSz_ge mapped
  have length : (List.replicate t.segSz (0 : UInt8)).length = t.segSz := List.length_replicate
  apply orderly_fields mapped.1.1.1 fits now (by omega)
  · rw [List.append_assoc]
    exact List.Sublist.refl _
  · rw [length]
    exact Or.inr ⟨rfl, whole⟩

/-- No lock is held in a new file, so that there is none to release. -/
theorem releaseRecords_fresh {addr : Nat} (mapped : t.Mapped addr) (fits : DescFits t.args.desc)
    (whole : t.Whole addr) :
    releaseRecords t.args.shape t.page addr (patch (List.replicate t.segSz 0)
      (headerPatches t.args.shape t.page ++ [descPatch t.args.desc])) =
    some (patch (List.replicate t.segSz 0)
      (headerPatches t.args.shape t.page ++ [descPatch t.args.desc])) := by
  have tidy := orderly mapped fits whole 0
  have length : (List.replicate t.segSz (0 : UInt8)).length = t.segSz := List.length_replicate
  have free : ∀ o ∈ (t.args.shape.recordPtrs addr).map (· - addr), 0 ≤ ldLong
      (patch (List.replicate t.segSz 0)
        (headerPatches t.args.shape t.page ++ [descPatch t.args.desc])) o := by
    intro o here
    obtain ⟨behind, inside⟩ := tidy.records o here
    rw [ldLong_zeros]
    rw [peek_patch_apart, peek_zeros (by omega)]
    · exact fun p there => tidy.within p (List.mem_append_left _ there)
    · intro p there
      have low : p.off + p.data.length ≤ 1408 := tidy.header p (List.mem_append_left _ there)
      exact Or.inl (by omega)
  have same := release_free free
  rw [List.foldl_map] at same
  exact (if_pos whole).trans (congrArg some same)

/-! ## What a call can come to -/

theorem openFile_fresh (opened : t.Opened) : openFile t.args.flags t.sys none = .ok [] := by
  unfold openFile
  rw [opened.2.1]
  exact if_pos opened.2.2

theorem resize_nil (size : Nat) : resize [] size = List.replicate size 0 := by
  simp [resize]

theorem sizeFile_fresh (new : t.args.flags.creat = true) (done : t.sys.ftruncate = none)
    (small : t.segSz < 9223372036854775808) :
    sizeFile t.args.flags.creat (t.args.shape.segSz t.page) t.sys [] =
      .ok (List.replicate t.segSz 0) := by
  have fine : ¬ 9223372036854775808 ≤ t.args.shape.segSz t.page := Nat.not_le.mpr small
  unfold sizeFile
  rw [if_pos new, done]
  dsimp only
  rw [if_neg fine, resize_nil]
  rfl

/-- The file of a mapped segment: it is filled in completely, or the handle is destroyed. -/
theorem initCreate_mapped {addr : Nat} (mapped : t.Mapped addr) (named : t.sys.xstrdup = true)
    {b : Built} (built : initCreate t.page t.args t.sys none = some b) :
    ∃ st file, b = ⟨st, some file, true, true, true⟩ ∧
      ((∃ now, t.Done addr now ∧ st = Status.ok ∧ file = t.complete now) ∨
       (Status.Failed st ∧ ∀ now, ¬ t.Done addr now)) := by
  have new := mapped.1.2.2
  have here : mapFile (t.args.shape.segSz t.page) t.sys = .ok addr := mapped.2.2.2
  unfold initCreate at built
  rw [openFile_fresh mapped.1] at built
  dsimp only at built
  rw [sizeFile_fresh new mapped.2.1 mapped.2.2.1] at built
  dsimp only at built
  rw [here] at built
  dsimp only at built
  rw [named, if_neg nofun] at built
  unfold fillHeader at built
  rw [if_pos new] at built
  by_cases fits : DescFits t.args.desc
  · rw [if_pos fits, ← patch_append] at built
    dsimp only at built
    -- without `O_EXCL` the loop over the records has nothing to do
    have ends : some (finish t.args.flags.creat t.sys (patch (List.replicate t.segSz 0)
        (headerPatches t.args.shape t.page ++ [descPatch t.args.desc]))) = some b ∧
        (t.args.flags.excl = false → t.Whole addr) := by
      by_cases excl : t.args.flags.excl = true
      · rw [if_pos ⟨new, excl⟩] at built
        refine ⟨built, fun other => ?_⟩
        rw [excl] at other
        cases other
      · rw [if_neg fun both => excl both.2] at built
        by_cases whole : t.Whole addr
        · rw [releaseRecords_fresh mapped fits whole] at built
          exact ⟨built, fun _ => whole⟩
        · have missing : releaseRecords t.args.shape t.page addr (patch (List.replicate t.segSz 0)
              (headerPatches t.args.shape t.page ++ [descPatch t.args.desc])) = none := if_neg whole
          rw [missing] at built
          cases built
    obtain ⟨ends, whole⟩ := ends
    obtain rfl := Option.some.inj ends
    unfold finish
    cases timed : t.sys.clockTime with
    | error e =>
      refine ⟨_, _, rfl, Or.inr ⟨e.2, fun now done => ?_⟩⟩
      have := done.timed
      rw [timed] at this
      cases this
    | ok now =>
      dsimp only
      cases synced : t.sys.msync with
      | some e =>
        refine ⟨_, _, rfl, Or.inr ⟨e.2, fun now done => ?_⟩⟩
        have := done.synced
        rw [synced] at this
        cases this
      | none =>
        refine ⟨_, _, rfl, Or.inl ⟨now, ⟨mapped, named, fits, whole, timed, synced⟩, rfl, ?_⟩⟩
        rw [complete, writes, new, if_pos rfl, ← patch_append, List.append_assoc]
        rfl
  · rw [if_neg fits] at built
    obtain rfl := Option.some.inj built
    refine ⟨_, _, rfl, Or.inr ⟨(by decide : Status.Failed Status.bufferTooSmall), ?_⟩⟩
    exact fun _ done => fits done.fits

/-- A file that is made but not mapped holds zeros only. -/
theorem initCreate_unmapped (opened : t.Opened) (unmapped : ∀ addr, ¬ t.Mapped addr) {b : Built}
    (built : initCreate t.page t.args t.sys none = some b) :
    Status.Failed b.status ∧ (∃ n, b.disk = some (List.replicate n 0)) ∧ b.fd = true ∧
      b.seg = false := by
  have new := opened.2.2
  unfold initCreate at built
  rw [openFile_fresh opened] at built
  dsimp only at built
  split at built
  · rename_i e _
    cases built
    exact ⟨e.2, ⟨0, rfl⟩, rfl, rfl⟩
  · rename_i sized size
    obtain ⟨done, small⟩ : t.sys.ftruncate = none ∧ t.segSz < 9223372036854775808 := by
      unfold sizeFile at size
      rw [if_pos new] at size
      split at size
      · cases size
      · rename_i done
        split at size
        · cases size
        · rename_i small
          exact ⟨done, Nat.not_le.mp small⟩
    rw [sizeFile_fresh new done small] at size
    obtain rfl := Except.ok.inj size
    split at built
    · rename_i e _
      cases built
      exact ⟨e.2, ⟨_, rfl⟩, rfl, rfl⟩
    · rename_i addr here
      exact absurd ⟨opened, done, small, here⟩ (unmapped addr)

/-- What the call can come to: there is no file; it is not mapped; it is mapped and not
finished; or nothing fails. -/
def Outcome (t : FreshCall) (st : Int) (disk : Option File) (alive : Bool) : Prop :=
  (¬ t.Opened ∧ Status.Failed st ∧ disk = none ∧ alive = false) ∨
  (t.Opened ∧ (∀ addr, ¬ t.Mapped addr) ∧ Status.Failed st ∧
    (∃ n, disk = some (List.replicate n 0)) ∧ alive = t.sys.close.isSome) ∨
  (∃ addr, t.Mapped addr ∧ (∀ now, ¬ t.Done addr now) ∧ Status.Failed st ∧
    (alive = false → disk = none) ∧
    (alive = true ↔ t.sys.close.isSome ∨ t.sys.munmap.isSome ∨ t.sys.unlink.isSome)) ∨
  (∃ addr now, t.Done addr now ∧ st = Status.ok ∧ disk = some (t.complete now) ∧ alive = true)

/-- The end of a handle that is open and mapped, for a file that is not meant to persist. -/
theorem storageDestroy_mapped {sys : SysCalls} {b : Built} (fd : b.fd = true) (seg : b.seg = true)
    {left : Option File} (destroyed : storageDestroy false sys b = some left) :
    (handleFreed false sys b = true → left = none) ∧
      (handleFreed false sys b = false ↔
        sys.close.isSome ∨ sys.munmap.isSome ∨ sys.unlink.isSome) := by
  unfold storageDestroy at destroyed
  unfold handleFreed
  cases close : sys.close.isSome <;> cases munmap : sys.munmap.isSome <;>
    cases unlink : sys.unlink.isSome <;> simp_all

/-- A handle that does not come to a file. -/
theorem initCreate_unopened (checked : t.args.Checked t.sys) (unopened : ¬ t.Opened) {b : Built}
    (built : initCreate t.page t.args t.sys none = some b) :
    Status.Failed b.status ∧ b.disk = none ∧ b.fd = false ∧ b.seg = false := by
  unfold initCreate at built
  split at built
  · rename_i e _
    cases built
    exact ⟨e.2, rfl, rfl, rfl⟩
  · rename_i file opens
    refine absurd ⟨checked, ?_⟩ unopened
    unfold openFile at opens
    cases found : t.sys.openFile with
    | some e =>
      rw [found] at opens
      cases opens
    | none =>
      rw [found] at opens
      dsimp only at opens
      split at opens
      · rename_i new
        exact ⟨rfl, new⟩
      · cases opens

/-- A handle whose file name is not kept is mapped. -/
theorem initCreate_unnamed {addr : Nat} (mapped : t.Mapped addr)
    (unnamed : t.sys.xstrdup = false) {b : Built}
    (built : initCreate t.page t.args t.sys none = some b) :
    Status.Failed b.status ∧ b.fd = true ∧ b.seg = true := by
  have here : mapFile (t.args.shape.segSz t.page) t.sys = .ok addr := mapped.2.2.2
  unfold initCreate at built
  rw [openFile_fresh mapped.1] at built
  dsimp only at built
  rw [sizeFile_fresh mapped.1.2.2 mapped.2.1 mapped.2.2.1] at built
  dsimp only at built
  rw [here] at built
  dsimp only at built
  rw [if_pos unnamed] at built
  obtain rfl := Option.some.inj built
  exact ⟨(by decide : Status.Failed Status.noMemory), rfl, rfl⟩

theorem outcome (fleeting : t.args.persist = false) {st : Int} {disk : Option File}
    (ran : storageCreate t.page t.args t.sys none = some (st, disk)) :
    t.Outcome st disk (handleLeft t.page t.args t.sys none) := by
  unfold handleLeft
  by_cases checked : t.args.Checked t.sys
  swap
  · obtain ⟨failed, rfl⟩ := storageCreate_unchecked checked ran
    refine Or.inl ⟨fun opened => checked opened.1, failed, rfl, ?_⟩
    rw [decide_eq_false checked]
    rfl
  rw [storageCreate_checked checked, fleeting] at ran
  obtain ⟨b, built, more⟩ := Option.bind_eq_some_iff.mp ran
  rw [built, decide_eq_true checked, fleeting]
  dsimp only
  -- the handle is destroyed
  have destroys (failed : Status.Failed b.status) : st = b.status ∧ storageDestroy false t.sys b =
    some disk := by
    rw [if_pos failed] at more
    obtain ⟨left, destroyed, eq⟩ := Option.map_eq_some_iff.mp more
    cases eq
    exact ⟨rfl, destroyed⟩
  by_cases opened : t.Opened
  swap
  · obtain ⟨failed, nothing, fd, seg⟩ := initCreate_unopened checked opened built
    obtain ⟨rfl, destroyed⟩ := destroys failed
    refine Or.inl ⟨opened, failed, ?_, ?_⟩
    · simp only [storageDestroy, fd, seg, nothing, Bool.false_eq_true, false_and,
        if_false] at destroyed
      exact (Option.some.inj destroyed).symm
    · rw [decide_eq_true failed, handleFreed, fd, seg]
      rfl
  by_cases mapped : ∃ addr, t.Mapped addr
  swap
  · have unmapped : ∀ addr, ¬ t.Mapped addr := fun addr h => mapped ⟨addr, h⟩
    obtain ⟨failed, ⟨n, file⟩, fd, seg⟩ := initCreate_unmapped opened unmapped built
    obtain ⟨rfl, destroyed⟩ := destroys failed
    refine Or.inr (Or.inl ⟨opened, unmapped, failed, ⟨n, ?_⟩, ?_⟩)
    · simp only [storageDestroy, seg, Bool.false_eq_true, if_false, ite_self, file] at destroyed
      exact (Option.some.inj destroyed).symm
    · rw [decide_eq_true failed, handleFreed, fd, seg]
      simp
  obtain ⟨addr, mapped⟩ := mapped
  right
  right
  -- a handle that fails behind the mapping
  have behind (failed : Status.Failed b.status) (fd : b.fd = true) (seg : b.seg = true)
      (undone : ∀ now, ¬ t.Done addr now) :
      ∃ addr, t.Mapped addr ∧ (∀ now, ¬ t.Done addr now) ∧ Status.Failed st ∧
        ((true && !(decide (Status.Failed b.status) && handleFreed false t.sys b)) = false →
          disk = none) ∧
        ((true && !(decide (Status.Failed b.status) && handleFreed false t.sys b)) = true ↔
          t.sys.close.isSome ∨ t.sys.munmap.isSome ∨ t.sys.unlink.isSome) := by
    obtain ⟨rfl, destroyed⟩ := destroys failed
    obtain ⟨gone, freed⟩ := storageDestroy_mapped fd seg destroyed
    rw [decide_eq_true failed]
    simp only [Bool.true_and, Bool.not_eq_true', Bool.not_eq_false']
    exact ⟨addr, mapped, undone, failed, gone, freed⟩
  by_cases named : t.sys.xstrdup = true
  · obtain ⟨st', file, rfl, made⟩ := initCreate_mapped mapped named built
    rcases made with ⟨now, done, rfl, rfl⟩ | ⟨failed, undone⟩
    · right
      rw [if_neg (by decide : ¬ Status.Failed Status.ok)] at more
      cases more
      refine ⟨addr, now, done, rfl, rfl, ?_⟩
      rw [decide_eq_false (by decide : ¬ Status.Failed Status.ok)]
      rfl
    · exact Or.inl (behind failed rfl rfl undone)
  · obtain ⟨failed, fd, seg⟩ := initCreate_unnamed mapped (by simpa using named) built
    exact Or.inl (behind failed fd seg fun _ done => named done.named)

/-- A call in which nothing fails makes the complete file. -/
theorem result_of_done {addr : Nat} {now : Int} (done : t.Done addr now) :
    storageCreate t.page t.args t.sys none = some (Status.ok, some (t.complete now)) := by
  have mapped := done.mapped
  have built : ∃ b, initCreate t.page t.args t.sys none = some b := by
    have here : mapFile (t.args.shape.segSz t.page) t.sys = .ok addr := mapped.2.2.2
    unfold initCreate
    rw [openFile_fresh mapped.1]
    dsimp only
    rw [sizeFile_fresh mapped.1.2.2 mapped.2.1 mapped.2.2.1]
    dsimp only
    rw [here]
    dsimp only
    rw [done.named, if_neg nofun, fillHeader, if_pos mapped.1.2.2]
    dsimp only
    rw [if_pos done.fits, ← patch_append]
    dsimp only
    split
    · exact ⟨_, rfl⟩
    · rename_i shared
      have plainOpen : t.args.flags.excl = false := by
        by_contra excl
        exact shared ⟨mapped.1.2.2, by simpa using excl⟩
      rw [releaseRecords_fresh mapped done.fits (done.whole plainOpen)]
      exact ⟨_, rfl⟩
  obtain ⟨b, built⟩ := built
  obtain ⟨st, file, rfl, made⟩ := initCreate_mapped mapped done.named built
  rw [storageCreate_checked mapped.1.1, built]
  rcases made with ⟨now', done', rfl, rfl⟩ | ⟨_, undone⟩
  · have same := done.timed
    rw [done'.timed] at same
    cases same
    rfl
  · exact absurd done (undone now)

/-! ## The complete file -/

section Complete

variable {addr : Nat} {now : Int} (done : t.Done addr now)

include done

theorem Done.within : ∀ p ∈ t.writes now, p.Within (List.replicate t.segSz (0 : UInt8)).length := by
  intro p here
  have low := (fields_apart t.args.shape t.page done.fits now).1 p here
  have long := segSz_ge done.mapped
  unfold Patch.Within at low ⊢
  rw [List.length_replicate]
  omega

theorem Done.length : (t.complete now).length = t.segSz := by
  rw [complete, length_patch done.within, List.length_replicate]

theorem Done.found : ∀ p ∈ t.writes now, p.Found (t.complete now) :=
  found_patch done.within (fields_apart t.args.shape t.page done.fits now).2

/-- Behind the header there are zeros. -/
theorem Done.zeros {off n : Nat} (behind : 1408 ≤ off) (inside : off + n ≤ t.segSz) :
    peek (t.complete now) off n = List.replicate n 0 := by
  rw [complete, peek_patch_apart done.within, peek_zeros inside]
  intro p here
  have low : p.off + p.data.length ≤ 1408 :=
    (fields_apart t.args.shape t.page done.fits now).1 p here
  exact Or.inl (by omega)

end Complete

end FreshCall

end Lancaster
