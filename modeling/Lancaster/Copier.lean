import Lancaster.RecordArray
import Mathlib.Order.Fin.Basic

/-!
# Copying records between storages

For each source record that it is given, `copier` looks for the next unused record of the
destination and locks it, locks the source record, copies, and gives both locks back with the
revision of the source. It does so also when the two storages have sizes that do not allow a copy:
the destination record then passes for a used one although nothing has been copied.

The two files may be one. The storages that are open are indexed by their files, so that a write to
the one is seen in the other.
-/

namespace Lancaster

def Status.storageFull : Int := -245

namespace RecordStore

variable {F : Type} [DecidableEq F] {attrs : F → Attributes}

/-- The storages, by the files they are mapped from. -/
abbrev Files (attrs : F → Attributes) := (f : F) → RecordStore (attrs f)

/-- One pass of the loop of `copier`, for the source record `rec` and the destination record of the
pass before: the status, the destination record and the storages. -/
def copyOne (src dst : F) (mem : Files attrs) (prior : Option (Handle (attrs dst)))
    (rec : Handle (attrs src)) : Int × Option (Handle (attrs dst)) × Files attrs :=
  match storageFindNextUnused true (mem dst) prior with
  | (st, none, s) =>
    (if Status.Failed st then st else Status.storageFull, prior, Function.update mem dst s)
  | (_, some (d, destRev), s) =>
    let mem : Files attrs := Function.update mem dst s
    match (mem src).recordWriteLock rec with
    | .error e => (e.val, some d, Function.update mem dst ((mem dst).recordSetRevision d destRev))
    | .ok (srcRev, held) =>
      let mem : Files attrs := Function.update mem src held
      let source := (mem src).record rec
      let copied := storageCopyRecord source (mem dst) d source.ts true
      let mem : Files attrs := Function.update mem dst copied.2
      let mem : Files attrs := Function.update mem dst ((mem dst).recordSetRevision d srcRev)
      let mem : Files attrs := Function.update mem src ((mem src).recordSetRevision rec srcRev)
      (copied.1, some d, mem)

structure Pass (attrs : F → Attributes) (src dst : F) where
  before : Files attrs
  prior : Option (Handle (attrs dst))
  srcRec : Handle (attrs src)
  status : Int
  chosen : Option (Handle (attrs dst))
  after : Files attrs

/-- The loop ends with the first pass that fails. -/
def copyLoop (src dst : F) (mem : Files attrs) (prior : Option (Handle (attrs dst))) :
    List (Handle (attrs src)) → List (Pass attrs src dst)
  | [] => []
  | rec :: rest =>
    let r := copyOne src dst mem prior rec
    ⟨mem, prior, rec, r.1, r.2.1, r.2.2⟩ ::
      if Status.Failed r.1 then [] else copyLoop src dst r.2.2 r.2.1 rest

/-- The passes of `copier`; none is made unless every identifier has a record. -/
def copier (src dst : F) (mem : Files attrs) (ids : List Int) : List (Pass attrs src dst) :=
  match ids.mapM (storageGetRecord (attrs src)) with
  | .error _ => []
  | .ok recs => copyLoop src dst mem none recs

structure NextUnused {a : Attributes} (s : RecordStore a) (prior : Option (Handle a))
    (d : Handle a) :
    Prop where
  behind : ∀ p ∈ prior, p < d
  unused : (s.record d).rev = 0
  lowest : ∀ i, (∀ p ∈ prior, p < i) → i < d → (s.record i).rev ≠ 0

/-- The search gets to `d`: no record on the way is locked. -/
def Reaches {a : Attributes} (s : RecordStore a) (prior : Option (Handle a)) (d : Handle a) :
    Prop :=
  s.isReadOnly = false ∧ NextUnused s prior d ∧
    ∀ i, (∀ p ∈ prior, p < i) → i < d → 0 ≤ (s.record i).rev

namespace Pass

variable {src dst : F} (p : Pass attrs src dst)

def source : FullRecord (attrs src) := (p.before src).record p.srcRec

/-- The pass has succeeded, and the destination record equals the source record. -/
structure Exact : Prop where
  status : p.status = Status.ok
  copied : ∃ d, p.chosen = some d ∧ NextUnused (p.before dst) p.prior d ∧
    ((p.after dst).record d).rev = p.source.rev ∧ 0 ≤ p.source.rev ∧
    ((p.after dst).record d).ts = p.source.ts ∧
    ((p.after dst).record d).val.toList = p.source.val.toList ∧
    ((p.after dst).record d).prop.toList = p.source.prop.toList ∧
    ∀ i, i ≠ d → (p.after dst).record i = (p.before dst).record i
  others : ∀ f, f ≠ dst → p.after f = p.before f

structure NoEffect : Prop where
  status : Status.Failed p.status
  same : p.after = p.before

def Copies : Prop := 0 ≤ p.source.rev ∧ ∃ d, Reaches (p.before dst) p.prior d

end Pass

/-! ## The search -/

variable {a : Attributes}

/-- Everything a search for an unused record can come to. -/
theorem findNextUnused_cases (s : RecordStore a) (prior : Option (Handle a)) :
    (∃ d, Reaches s prior d ∧ storageFindNextUnused true s prior =
      (Status.true, some (d, 0), s.recordSetRevision d (lockedWord 0))) ∨
    ((¬ ∃ d, Reaches s prior d) ∧ ∃ st, st ≤ 0 ∧
      storageFindNextUnused true s prior = (st, none, s)) := by
  unfold storageFindNextUnused
  by_cases readOnly : s.isReadOnly = true
  · refine Or.inr ⟨?_, Status.storageReadOnly, by decide, by simp [readOnly]⟩
    rintro ⟨d, writable, -⟩
    simp [readOnly] at writable
  · have writable : s.isReadOnly = false := by simpa using readOnly
    rw [if_neg (by simp [writable])]
    rcases s.seek_cases (fun rev => decide (rev = 0)) (onward prior) with
      ⟨exhausted, all⟩ | ⟨before, r, after, split, passed, result⟩
    · refine Or.inr ⟨?_, Status.false, by decide, exhausted⟩
      rintro ⟨d, -, ⟨behind, unused, -⟩, -⟩
      have := (all d (mem_onward.mpr behind)).2
      simp [unused] at this
    · have sorted := onward_sorted prior
      rw [split, List.pairwise_append] at sorted
      have lower : ∀ i, (∀ p ∈ prior, p < i) → i < r → i ∈ before := by
        intro i behind less
        have among := mem_onward.mpr behind
        rw [split, List.mem_append, List.mem_cons] at among
        rcases among with among | rfl | among
        · exact among
        · exact absurd less (lt_irrefl _)
        · have := (List.pairwise_cons.mp sorted.2.1).1 i among
          exact absurd less (not_lt_of_gt this)
      rcases result with ⟨locked, failed⟩ | ⟨free, unused, found⟩
      · refine Or.inr ⟨?_, Status.deadlockDetected, by decide, failed⟩
        rintro ⟨d, -, ⟨behind, unused, -⟩, clear⟩
        -- the record that would be found is not before the locked one, which is in its way
        have place := mem_onward.mpr behind
        rw [split, List.mem_append, List.mem_cons] at place
        have way : ∀ p ∈ prior, p < r := mem_onward.mp (by rw [split]; simp)
        rcases place with early | rfl | late
        · have := (passed d early).2
          simp [unused] at this
        · omega
        · have := clear r way ((List.pairwise_cons.mp sorted.2.1).1 d late)
          omega
      · have zero : (s.record r).rev = 0 := by simpa using unused
        rw [zero] at found
        refine Or.inl ⟨r, ⟨writable, ⟨mem_onward.mp (by rw [split]; simp), zero, ?_⟩, ?_⟩, found⟩
        · intro i behind less same
          have := (passed i (lower i behind less)).2
          simp [same] at this
        · intro i behind less
          exact (passed i (lower i behind less)).1

theorem NextUnused.unique {s : RecordStore a} {prior : Option (Handle a)} {d e : Handle a}
    (h : NextUnused s prior d) (h' : NextUnused s prior e) : d = e := by
  rcases lt_trichotomy d e with less | same | less
  · exact absurd h.unused (h'.lowest d h.behind less)
  · exact same
  · exact absurd h'.unused (h.lowest e h'.behind less)

/-! ## One pass -/

variable {src dst : F} {mem : Files attrs} {prior : Option (Handle (attrs dst))}
  {rec : Handle (attrs src)}

/-- The search finds nothing. -/
theorem copyOne_unfound (rec : Handle (attrs src)) (unreached : ¬ ∃ d, Reaches (mem dst) prior d) :
    ∃ st, Status.Failed st ∧ copyOne src dst mem prior rec = (st, prior, mem) := by
  rcases findNextUnused_cases (mem dst) prior with ⟨d, found, -⟩ | ⟨-, st, low, search⟩
  · exact absurd ⟨d, found⟩ unreached
  · unfold copyOne
    rw [search]
    by_cases failed : Status.Failed st
    · exact ⟨st, failed, by simp [failed]⟩
    · exact ⟨Status.storageFull, by decide, by simp [failed]⟩

/-- The source is locked, perhaps by the search itself. -/
theorem copyOne_locked {d : Handle (attrs dst)} (found : Reaches (mem dst) prior d)
    (locked : ((Function.update mem dst
      ((mem dst).recordSetRevision d (lockedWord 0)) src).record rec).rev < 0) :
    copyOne src dst mem prior rec = (Status.deadlockDetected, some d, mem) := by
  rcases findNextUnused_cases (mem dst) prior with ⟨e, found', search⟩ | ⟨unreached, -⟩
  · obtain rfl := found.2.1.unique found'.2.1
    unfold copyOne
    rw [search]
    rcases recordWriteLock_cases (Function.update mem dst
      ((mem dst).recordSetRevision d (lockedWord 0)) src) rec with ⟨-, taken⟩ | ⟨free, -⟩
    · simp only [taken, Function.update_self, Function.update_idem]
      have back := unlock_lock (mem dst) d (lockedWord 0)
      rw [found.2.1.unused] at back
      rw [back, Function.update_eq_self]
    · omega
  · exact absurd ⟨d, found⟩ unreached

/-- A copy does not look at the lock words, and the revision that is set afterwards covers them. -/
theorem copy_unlocked {a b : Attributes} (x : FullRecord a) (s : RecordStore b) (d : Handle b)
    (ts word word' rev : Int) :
    (storageCopyRecord { x with rev := word } (s.recordSetRevision d word') d ts true).1 =
      (storageCopyRecord x s d ts true).1 ∧
    (storageCopyRecord { x with rev := word } (s.recordSetRevision d word') d ts
        true).2.recordSetRevision d rev =
      (storageCopyRecord x s d ts true).2.recordSetRevision d rev := by
  unfold storageCopyRecord
  rw [setRevision_isReadOnly]
  split_ifs
  · exact ⟨rfl, by simp [recordSetRevision]⟩
  · exact ⟨rfl, by simp [recordSetRevision]⟩
  · exact ⟨rfl, by simp [recordSetRevision, copyOver]⟩

/-- The lock of another record goes through a copy. -/
theorem copy_other {a b : Attributes} (x : FullRecord a) (s : RecordStore b) {d r : Handle b}
    (apart : r ≠ d) (ts word : Int) :
    (storageCopyRecord x (s.recordSetRevision r word) d ts true).1 =
      (storageCopyRecord x s d ts true).1 ∧
    (storageCopyRecord x (s.recordSetRevision r word) d ts true).2 =
      (storageCopyRecord x s d ts true).2.recordSetRevision r word := by
  unfold storageCopyRecord
  rw [setRevision_isReadOnly]
  split_ifs
  · exact ⟨rfl, rfl⟩
  · exact ⟨rfl, rfl⟩
  · refine ⟨rfl, ?_⟩
    simp only [recordSetRevision]
    rw [set_other s _ (Ne.symm apart), set_other s _ apart, set_comm s apart]

/-- The two records are copied or left alone, and both get the revision of the source. -/
theorem copyOne_free {d : Handle (attrs dst)} (found : Reaches (mem dst) prior d)
    (free : 0 ≤ ((Function.update mem dst
      ((mem dst).recordSetRevision d (lockedWord 0)) src).record rec).rev) :
    copyOne src dst mem prior rec =
      ((storageCopyRecord ((mem src).record rec) (mem dst) d ((mem src).record rec).ts true).1,
        some d, Function.update mem dst
          ((storageCopyRecord ((mem src).record rec) (mem dst) d ((mem src).record rec).ts
            true).2.recordSetRevision d ((mem src).record rec).rev)) := by
  rcases findNextUnused_cases (mem dst) prior with ⟨e, found', search⟩ | ⟨unreached, -⟩
  · obtain rfl := found.2.1.unique found'.2.1
    unfold copyOne
    rw [search]
    rcases recordWriteLock_cases (Function.update mem dst
      ((mem dst).recordSetRevision d (lockedWord 0)) src) rec with ⟨locked, -⟩ | ⟨-, taken⟩
    · omega
    · simp only [taken]
      clear taken search found found'
      by_cases one : src = dst
      · subst one
        simp only [Function.update_self, Function.update_idem] at free ⊢
        have apart : rec ≠ d := by
          rintro rfl
          rw [setRevision_same] at free
          exact absurd free (show ¬ 0 ≤ lockedWord 0 by decide)
        rw [setRevision_other _ _ apart, setRevision_same, setRevision_other _ _ apart]
        obtain ⟨status, store⟩ := copy_unlocked ((mem src).record rec) (mem src) d
          ((mem src).record rec).ts (lockedWord ((mem src).record rec).rev) (lockedWord 0)
          ((mem src).record rec).rev
        obtain ⟨status', store'⟩ := copy_other
          { (mem src).record rec with rev := lockedWord ((mem src).record rec).rev }
          ((mem src).recordSetRevision d (lockedWord 0)) apart ((mem src).record rec).ts
          (lockedWord ((mem src).record rec).rev)
        rw [status', status, store', setRevision_comm _ apart, setRevision_setRevision, store,
          setRevision_self]
        rw [setRevision_other _ _ apart, copyRecord_other _ _ _ _ apart]
      · simp only [Function.update_self, Function.update_of_ne one,
          Function.update_of_ne (Ne.symm one), Function.update_idem, setRevision_same]
        obtain ⟨status, store⟩ := copy_unlocked ((mem src).record rec) (mem dst) d
          ((mem src).record rec).ts (lockedWord ((mem src).record rec).rev) (lockedWord 0)
          ((mem src).record rec).rev
        rw [status, store, unlock_lock]
        congr 2
        funext f
        by_cases atDst : f = dst
        · subst atDst
          rw [Function.update_of_ne (Ne.symm one), Function.update_self, Function.update_self]
        · by_cases atSrc : f = src
          · subst atSrc
            rw [Function.update_self, Function.update_of_ne atDst]
          · simp only [Function.update_of_ne atDst, Function.update_of_ne atSrc]
  · exact absurd ⟨d, found⟩ unreached

/-- The lock word of the source once the destination record is locked. -/
theorem source_word {d : Handle (attrs dst)} (rec : Handle (attrs src))
    (found : Reaches (mem dst) prior d) :
    (((mem src).record rec).rev = 0 ∧ ((Function.update mem dst
      ((mem dst).recordSetRevision d (lockedWord 0)) src).record rec).rev < 0) ∨
    ((Function.update mem dst
      ((mem dst).recordSetRevision d (lockedWord 0)) src).record rec).rev =
        ((mem src).record rec).rev := by
  by_cases one : src = dst
  · subst one
    rw [Function.update_self]
    by_cases here : rec = d
    · subst here
      rw [setRevision_same]
      exact Or.inl ⟨found.2.1.unused, show lockedWord 0 < 0 by decide⟩
    · exact Or.inr (by rw [setRevision_other _ _ here])
  · exact Or.inr (by rw [Function.update_of_ne one])

/-- The sizes of values and properties are the same in both storages. -/
def SameSizes (attrs : F → Attributes) (src dst : F) : Prop :=
  (attrs src).valSize = (attrs dst).valSize ∧ (attrs src).propSize = (attrs dst).propSize

/-- A pass on storages of the same sizes that gets as far as the copy. -/
theorem exact_of_sameSizes {d : Handle (attrs dst)} (found : Reaches (mem dst) prior d)
    (free : 0 ≤ ((mem src).record rec).rev) (sizes : SameSizes attrs src dst) :
    storageCopyRecord ((mem src).record rec) (mem dst) d ((mem src).record rec).ts true =
      (Status.ok, (mem dst).set d (copyOver ((mem src).record rec) ((mem dst).record d)
        ((mem src).record rec).ts true)) ∧
    Pass.Exact ⟨mem, prior, rec, Status.ok, some d, Function.update mem dst
      (((mem dst).set d (copyOver ((mem src).record rec) ((mem dst).record d)
        ((mem src).record rec).ts true)).recordSetRevision d ((mem src).record rec).rev)⟩ := by
  constructor
  · have equal : ¬ ((attrs src).valSize ≠ (attrs dst).valSize ∨
        (true = true ∧ (attrs src).propSize ≠ (attrs dst).propSize)) := by
      rw [sizes.1, sizes.2]
      simp
    rw [storageCopyRecord, if_neg (by simp [found.1]), if_neg equal]
  · refine ⟨rfl, ⟨d, rfl, found.2.1, ?_⟩, fun f other => Function.update_of_ne other ..⟩
    simp only [Function.update_self, setRevision_same, set_same]
    refine ⟨rfl, free, rfl, toList_memcpy_all _ _ sizes.1, ?_, fun i other => ?_⟩
    · exact toList_memcpy_all _ _ sizes.2
    · rw [setRevision_other _ _ other, set_other _ _ other]

/-- The step lemma: what one pass comes to, from any storages. -/
theorem pass_iff (mem : Files attrs) (prior : Option (Handle (attrs dst)))
    (rec : Handle (attrs src)) {p : Pass attrs src dst}
    (made : p = ⟨mem, prior, rec, (copyOne src dst mem prior rec).1,
      (copyOne src dst mem prior rec).2.1, (copyOne src dst mem prior rec).2.2⟩) :
    (p.Exact ∨ p.NoEffect) ↔ (SameSizes attrs src dst ∨ p.source.rev = 0 ∨ ¬ p.Copies) := by
  by_cases found : ∃ d, Reaches (mem dst) prior d
  · obtain ⟨d, found⟩ := found
    by_cases free : 0 ≤ ((Function.update mem dst
      ((mem dst).recordSetRevision d (lockedWord 0)) src).record rec).rev
    · have ran := copyOne_free found free
      have word : 0 ≤ ((mem src).record rec).rev := by
        rcases source_word rec found with ⟨zero, -⟩ | same
        · omega
        · omega
      by_cases sizes : SameSizes attrs src dst
      · obtain ⟨copied, fine⟩ := exact_of_sameSizes found word sizes
        rw [copied] at ran
        rw [ran] at made
        rw [made]
        exact iff_of_true (Or.inl fine) (Or.inl sizes)
      · -- the copy is refused, and the destination record has got a revision all the same
        have unequal : (attrs src).valSize ≠ (attrs dst).valSize ∨
            (true = true ∧ (attrs src).propSize ≠ (attrs dst).propSize) := by
          by_contra same
          rw [not_or, not_and, not_not, not_not] at same
          exact sizes ⟨same.1, same.2 rfl⟩
        rw [storageCopyRecord, if_neg (by simp [found.1]), if_pos unequal] at ran
        rw [ran] at made
        rw [made]
        constructor
        · rintro (fine | ⟨-, same⟩)
          · exact absurd fine.status (show ¬ Status.storageUnequal = Status.ok by decide)
          · have revision := congrArg (fun m : Files attrs => ((m dst).record d).rev) same
            simp only [Function.update_self, setRevision_same, found.2.1.unused] at revision
            exact Or.inr (Or.inl revision)
        · rintro (equal | zero | stopped)
          · exact absurd equal sizes
          · have unused : ((mem dst).record d).rev = ((mem src).record rec).rev := by
              rw [found.2.1.unused]
              exact zero.symm
            refine Or.inr ⟨show Status.Failed Status.storageUnequal by decide, ?_⟩
            show Function.update mem dst _ = mem
            rw [setRevision_self unused, Function.update_eq_self]
          · exact absurd ⟨word, d, found⟩ stopped
    · have ran := copyOne_locked found (not_le.mp free)
      rw [ran] at made
      rw [made]
      refine iff_of_true (Or.inr ⟨show Status.Failed Status.deadlockDetected by decide, rfl⟩)
        (Or.inr ?_)
      rcases source_word rec found with ⟨zero, -⟩ | same
      · exact Or.inl zero
      · refine Or.inr fun copies => free ?_
        rw [same]
        exact copies.1
  · obtain ⟨st, failed, ran⟩ := copyOne_unfound rec found
    rw [ran] at made
    rw [made]
    refine iff_of_true (Or.inr ⟨failed, rfl⟩) (Or.inr (Or.inr fun copies => found copies.2))

/-! ## A run -/

theorem copyLoop_pass (recs : List (Handle (attrs src))) (mem : Files attrs)
    (prior : Option (Handle (attrs dst))) :
    ∀ p ∈ copyLoop src dst mem prior recs,
      (p.Exact ∨ p.NoEffect) ↔ (SameSizes attrs src dst ∨ p.source.rev = 0 ∨ ¬ p.Copies) := by
  induction recs generalizing mem prior with
  | nil => exact fun p hp => absurd hp List.not_mem_nil
  | cons rec rest ih =>
    intro p hp
    rcases List.mem_cons.mp hp with made | later
    · exact pass_iff mem prior rec made
    · split_ifs at later
      · exact absurd later List.not_mem_nil
      · exact ih _ _ p later

/-- In every run of `copier`, a pass is exact or has no effect unless it gets as far as the copy of
a used record between storages of different sizes. -/
theorem copier_exact (src dst : F) (mem : Files attrs) (ids : List Int) :
    ∀ p ∈ copier src dst mem ids,
      (p.Exact ∨ p.NoEffect) ↔ (SameSizes attrs src dst ∨ p.source.rev = 0 ∨ ¬ p.Copies) := by
  intro p hp
  unfold copier at hp
  split at hp
  · exact absurd hp List.not_mem_nil
  · exact copyLoop_pass _ mem none p hp

/-- A source with values of one byte, and a destination with values of `v` bytes. -/
def twoFiles (v : Nat) : Bool → Attributes
  | false => ⟨0, 1, 1, 0, 0, by decide⟩
  | true => ⟨0, 1, v, 0, 0, by decide⟩

/-- One used record in the source, and one unused in the destination. -/
def oneUsed (v : Nat) : Files (twoFiles v)
  | false => ⟨fun _ => ⟨2, 7, #v[5], #v[]⟩, 0, fun _ => 0, false⟩
  | true => ⟨fun _ => clearedRecord _, 0, fun _ => 0, false⟩

theorem copier_exact_small :
    ∃ p ∈ copier false true (oneUsed 1) [0], p.status = Status.ok ∧ (p.Exact ∨ p.NoEffect) := by
  refine ⟨_, List.mem_cons_self, rfl, ?_⟩
  exact (copier_exact false true (oneUsed 1) [0] _ List.mem_cons_self).mpr (Or.inl ⟨rfl, rfl⟩)

/-- A destination with longer values: the call fails, and the unused record has the revision of the
source. -/
theorem copier_marks_used :
    ∃ p ∈ copier false true (oneUsed 2) [0], p.status = Status.storageUnequal ∧
      ((p.before true).record ⟨0, by decide⟩).rev = 0 ∧
      ((p.after true).record ⟨0, by decide⟩).rev = 2 ∧ ¬ (p.Exact ∨ p.NoEffect) := by
  refine ⟨_, List.mem_cons_self, rfl, rfl, rfl, ?_⟩
  rintro (fine | ⟨-, same⟩)
  · exact absurd fine.status (by decide)
  · have revision := congrArg (fun m : Files (twoFiles 2) => ((m true).record ⟨0, by decide⟩).rev) same
    exact absurd revision (by decide)

end RecordStore

end Lancaster
