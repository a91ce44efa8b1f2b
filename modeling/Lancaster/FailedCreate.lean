import Lancaster.CreateOutcomes

/-!
# A failed `storage_create`

A call that fails early leaves an existing file alone. Once the file is sized and mapped,
a failure finds it changed by the steps before, and a file that is not meant to persist is
removed even if its header was only compared.
-/

namespace Lancaster

open Bytes

namespace Attempt

variable {t : Attempt}

theorem Named.unique {addr addr' : Nat} (h : t.Named addr) (h' : t.Named addr') : addr' = addr := by
  have same := h.1.2
  rw [h'.1.2] at same
  exact Except.ok.inj same

/-- The file has its size already, or is not sized. -/
theorem sized_eq_iff : t.sized = t.file ↔ (t.creat → t.file.length = t.segSz) := by
  unfold Attempt.sized
  split
  · rename_i new
    constructor
    · intro same _
      rw [← same]
      exact length_resize _ _
    · intro size
      rw [← size new]
      exact resize_self _
  · rename_i old
    exact iff_of_true rfl fun new => absurd new old

/-- The file is as before exactly if it had its size, and held what was written. -/
theorem written_eq_file_iff {addr : Nat} (named : t.Named addr) {ps qs : List Patch}
    {offs : List Nat} (h : Orderly t.sized ps offs qs) :
    written t.sized ps offs qs = t.file ↔ (t.creat → t.file.length = t.segSz) ∧
      (∀ p ∈ ps ++ qs, p.Found t.file) ∧ ∀ o ∈ offs, 0 ≤ ldLong t.file o := by
  have length := h.length_written
  rw [length_sized named.1.1] at length
  constructor
  · intro same
    have size : t.file.length = t.segSz := by
      rw [← same]
      exact length
    have sized := sized_eq_iff.mpr fun _ => size
    rw [sized] at same h
    exact ⟨fun _ => size, h.written_eq_iff.mp same⟩
  · rintro ⟨size, all⟩
    have sized := sized_eq_iff.mpr size
    rw [sized] at h ⊢
    exact h.written_eq_iff.mpr all

variable (t) in
/-- Of the steps that the call takes before it fails, none changes the file: a file that is
sized has its size, one that is named is not removed, and every write to it and every
release of a lock finds what it would leave. -/
structure Harmless : Prop where
  size : t.Sized → t.creat → t.file.length = t.segSz
  kept : ∀ addr, t.Named addr → t.Kept
  header : ∀ addr, t.Named addr → t.creat → ∀ p ∈ headerPatches t.args.shape t.page, p.Found t.file
  desc : ∀ addr, t.Filled addr → t.creat → (descPatch t.args.desc).Found t.file
  locks : ∀ addr, t.Filled addr → ∀ o ∈ t.locks addr, 0 ≤ ldLong t.file o
  created : ∀ addr now, t.Timed addr now → (createdPatch now).Found t.file
  magic : ∀ addr now, t.Timed addr now → t.creat → magicPatch.Found t.file

theorem headerWrites_found : (∀ p ∈ t.headerWrites, p.Found t.file) ↔
    (t.creat → ∀ p ∈ headerPatches t.args.shape t.page, p.Found t.file) := by
  unfold headerWrites
  split
  · rename_i new
    exact ⟨fun all _ => all, fun all => all new⟩
  · rename_i old
    exact iff_of_true nofun fun new => absurd new old

theorem firstWrites_found : (∀ p ∈ t.firstWrites, p.Found t.file) ↔
    (t.creat → ∀ p ∈ headerPatches t.args.shape t.page, p.Found t.file) ∧
    (t.creat → (descPatch t.args.desc).Found t.file) := by
  unfold firstWrites
  split
  · rename_i new
    rw [List.forall_mem_append, List.forall_mem_singleton]
    exact ⟨fun both => ⟨fun _ => both.1, fun _ => both.2⟩, fun both => ⟨both.1 new, both.2 new⟩⟩
  · rename_i old
    exact iff_of_true nofun ⟨fun new => absurd new old, fun new => absurd new old⟩

theorem lastWrites_found {now : Int} : (∀ p ∈ t.lastWrites now, p.Found t.file) ↔
    (createdPatch now).Found t.file ∧ (t.creat → magicPatch.Found t.file) := by
  unfold lastWrites
  rw [List.forall_mem_cons]
  refine and_congr_right fun _ => ?_
  split
  · rename_i new
    rw [List.forall_mem_singleton]
    exact ⟨fun found _ => found, fun found => found new⟩
  · rename_i old
    exact iff_of_true nofun fun new => absurd new old

/-- The steps behind the name of a file leave it alone exactly if they are harmless. -/
theorem ends_eq_iff {addr : Nat} (named : t.Named addr) (kept : t.Kept) {st : Int} {last : File}
    (ends : t.Ends addr st last) : last = t.file ↔ t.Harmless := by
  have only : ∀ addr', t.Named addr' → addr' = addr := fun _ named' => named.unique named'
  rcases ends with ⟨unfilled, _, rfl⟩ | ⟨filled, untimed, whole, _, rfl⟩ |
    ⟨now, timed, whole, _, rfl⟩
  · have tidy : Orderly t.sized t.headerWrites [] [] := by
      apply orderly named descFits_none 0 _ (Or.inl rfl)
      rw [List.append_nil, headerWrites]
      split
      · exact List.sublist_append_left _ _
      · exact List.nil_sublist _
    have unfilled' : ∀ addr', ¬ t.Filled addr' := by
      intro addr' filled
      rw [only addr' filled.1] at filled
      exact unfilled filled
    have same : patch t.sized t.headerWrites = written t.sized t.headerWrites [] [] := rfl
    rw [same, written_eq_file_iff named tidy, List.append_nil, headerWrites_found]
    constructor
    · rintro ⟨size, header, _⟩
      refine ⟨fun _ => size, fun _ _ => kept, fun _ _ => header, ?_, ?_, ?_, ?_⟩
      · exact fun addr' filled => absurd filled (unfilled' addr')
      · exact fun addr' filled => absurd filled (unfilled' addr')
      · exact fun addr' _ timed => absurd timed.1 (unfilled' addr')
      · exact fun addr' _ timed => absurd timed.1 (unfilled' addr')
    · intro h
      exact ⟨h.size named.1.1, h.header addr named, by simp⟩
  · have tidy : Orderly t.sized t.firstWrites (t.locks addr) [] := by
      have all := filled.orderly whole 0
      refine ⟨all.long, ?_, ?_, all.records, all.words⟩
      · intro p here
        rw [List.append_nil] at here
        exact all.header p (List.mem_append_left _ here)
      · rw [List.append_nil]
        exact all.apart.sublist (List.sublist_append_left _ _)
    rw [written_eq_file_iff named tidy, List.append_nil, firstWrites_found]
    constructor
    · rintro ⟨size, ⟨header, desc⟩, locks⟩
      refine ⟨fun _ => size, fun _ _ => kept, fun _ _ => header, fun _ _ => desc, ?_, ?_, ?_⟩
      · intro addr' filled'
        rw [only addr' filled'.1]
        exact locks
      · intro addr' now timed
        rw [only addr' timed.1.1] at timed
        exact absurd timed (untimed now)
      · intro addr' now timed
        rw [only addr' timed.1.1] at timed
        exact absurd timed (untimed now)
    · intro h
      exact ⟨h.size named.1.1, ⟨h.header addr named, h.desc addr filled⟩, h.locks addr filled⟩
  · have filled := timed.1
    have once : ∀ addr' now', t.Timed addr' now' → now' = now := by
      intro addr' now' timed'
      have := timed'.2
      rw [timed.2] at this
      exact (Except.ok.inj this).symm
    rw [written_eq_file_iff named (filled.orderly whole now), List.forall_mem_append,
      firstWrites_found, lastWrites_found]
    constructor
    · rintro ⟨size, ⟨⟨header, desc⟩, created, magic⟩, locks⟩
      refine ⟨fun _ => size, fun _ _ => kept, fun _ _ => header, fun _ _ => desc, ?_, ?_, ?_⟩
      · intro addr' filled'
        rw [only addr' filled'.1]
        exact locks
      · intro addr' now' timed'
        rw [once addr' now' timed']
        exact created
      · exact fun _ _ _ => magic
    · intro h
      exact ⟨h.size named.1.1, ⟨⟨h.header addr named, h.desc addr filled⟩,
        h.created addr now timed, h.magic addr now timed⟩, h.locks addr filled⟩

end Attempt

open Attempt in
/-- A call of `storage_create` that fails leaves an existing file alone exactly if the steps
before the failure are harmless. -/
theorem failed_create {t : Attempt} {st : Int} {disk : Option File}
    (ran : t.result = some (st, disk))
    (failed : Status.Failed st) : disk = some t.file ↔ t.Harmless := by
  rcases outcome ran with ⟨early, _, rfl⟩ | ⟨size, unnamed, _, rfl⟩ |
    ⟨addr, last, named, ends, left⟩
  · refine iff_of_true rfl ⟨?_, ?_, ?_, ?_, ?_, ?_, ?_⟩
    · exact fun size => absurd size early
    · exact fun _ named => absurd named.1.1 early
    · exact fun _ named => absurd named.1.1 early
    · exact fun _ filled => absurd filled.1.1.1 early
    · exact fun _ filled => absurd filled.1.1.1 early
    · exact fun _ _ timed => absurd timed.1.1.1.1 early
    · exact fun _ _ timed => absurd timed.1.1.1.1 early
  · rw [Option.some.injEq, sized_eq_iff]
    constructor
    · intro same
      refine ⟨fun _ => same, ?_, ?_, ?_, ?_, ?_, ?_⟩
      · exact fun addr named => absurd named (unnamed addr)
      · exact fun addr named => absurd named (unnamed addr)
      · exact fun addr filled => absurd filled.1 (unnamed addr)
      · exact fun addr filled => absurd filled.1 (unnamed addr)
      · exact fun addr _ timed => absurd timed.1.1 (unnamed addr)
      · exact fun addr _ timed => absurd timed.1.1 (unnamed addr)
    · exact fun harmless => harmless.size size
  rcases left with ⟨rfl, kept⟩ | ⟨rfl, _, gone⟩
  swap
  · exact iff_of_false nofun fun harmless => gone (harmless.kept addr named)
  rw [Option.some.injEq]
  exact ends_eq_iff named (kept failed) ends

/-- The storage of two records is opened without `O_CREAT`, over a file of zeros. -/
def smallAttempt (persist : Bool) (size : Nat) : Attempt where
  page := smallPage
  args := ⟨⟨2, false, false, false, false⟩, persist,
    smallShape 0 2 zero_lt_sizeLimit two_lt_sizeLimit, none⟩
  sys := smallSys
  file := List.replicate size 0

/-- What a call of `storage_create` for two records leaves that fails at the clock. -/
def headerOnly : File :=
  patch (List.replicate 4096 0)
    (headerPatches (smallShape 0 2 zero_lt_sizeLimit two_lt_sizeLimit) smallPage ++
    [descPatch none])

/-- The same call over that file, with the same failure. -/
def secondAttempt : Attempt where
  page := smallPage
  args := ⟨⟨2, true, false, false, false⟩, true,
    smallShape 0 2 zero_lt_sizeLimit two_lt_sizeLimit, none⟩
  sys := { smallSys with clockTime := .error ⟨-22, by decide⟩ }
  file := headerOnly

theorem secondAttempt_filled : secondAttempt.Filled 65536 := by
  have opened : secondAttempt.Opened := by
    refine ⟨?_, rfl, rfl, rfl, rfl, by decide⟩
    show (smallShape 0 2 _ _).Accepted
    decide
  have size : secondAttempt.segSz = 4096 := by
    show (smallShape 0 2 _ _).segSz smallPage = 4096
    decide
  have mapped : mapFile secondAttempt.segSz secondAttempt.sys = .ok 65536 := by
    rw [size]
    rfl
  have small : secondAttempt.segSz < 9223372036854775808 := by omega
  exact ⟨⟨⟨⟨opened, rfl, small⟩, mapped⟩, rfl⟩, by decide⟩

/-- Sizing the file and writing its header changes nothing the second time. -/
theorem failed_create_small : secondAttempt.Filled 65536 ∧ secondAttempt.creat = true ∧
    secondAttempt.result = some (-22, some secondAttempt.file) ∧ secondAttempt.Harmless := by
  have filled := secondAttempt_filled
  obtain ⟨low, apart⟩ := fields_apart (smallShape 0 2 zero_lt_sizeLimit two_lt_sizeLimit) smallPage
    (by decide : DescFits none) 0
  have front : (headerPatches (smallShape 0 2 zero_lt_sizeLimit two_lt_sizeLimit) smallPage ++
      [descPatch none]).Sublist
        (headerPatches (smallShape 0 2 zero_lt_sizeLimit two_lt_sizeLimit) smallPage ++
      [descPatch none, createdPatch 0, magicPatch]) := (List.Sublist.refl _).append (by simp)
  have within : ∀ p ∈ headerPatches (smallShape 0 2 zero_lt_sizeLimit two_lt_sizeLimit) smallPage ++
      [descPatch none], p.Within (List.replicate 4096 (0 : UInt8)).length := by
    intro p here
    rw [List.length_replicate]
    exact le_trans (low p (front.subset here)) (by decide)
  have found := found_patch within (apart.sublist front)
  have harmless : secondAttempt.Harmless := by
    refine ⟨fun _ _ => ?_, fun _ _ => Or.inl rfl, ?_, ?_, ?_, ?_, ?_⟩
    · show headerOnly.length = (smallShape 0 2 zero_lt_sizeLimit two_lt_sizeLimit).segSz smallPage
      rw [headerOnly, length_patch within, List.length_replicate]
      decide
    · exact fun _ _ _ p here => found p (List.mem_append_left _ here)
    · exact fun _ _ _ => found _ (List.mem_append_right _ (List.mem_singleton_self _))
    · intro addr other
      have same := other.1.1.2
      rw [filled.1.1.2] at same
      obtain rfl := Except.ok.inj same
      decide +kernel
    · intro addr now timed
      cases timed.2
    · intro addr now timed
      cases timed.2
  have failed : secondAttempt.result.any (fun r => decide (r.1 = -22)) = true := by decide +kernel
  obtain ⟨⟨st, disk⟩, ran, is⟩ := (Option.any_eq_true _ _).mp failed
  obtain rfl : st = -22 := of_decide_eq_true is
  have same := (failed_create ran (by decide)).mpr harmless
  exact ⟨filled, rfl, by rw [ran, same], harmless⟩

/-- A file of the right size with another version is removed, if it is not meant to persist. -/
theorem wrong_version_removed : ∃ t : Attempt, t.args.flags.creat = false ∧
    t.result = some (Status.wrongFileVersion, none) :=
  ⟨smallAttempt false 4096, rfl, by decide +kernel⟩

end Lancaster
