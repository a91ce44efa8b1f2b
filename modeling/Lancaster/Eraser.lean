import Lancaster.Base.Compaction
import Lancaster.RecordArray
import Mathlib.Data.Fintype.Fin
import Mathlib.Order.Fin.Basic

/-!
# Erasing records, with compaction

`eraser` clears the records that it is given. With `-c` it then goes through them once more, and for
each one looks downwards for the next used record, from where the last search ended; if that record
is behind the erased one, it is moved there.

A record that is given twice may be filled twice, and what was moved there first is lost. And a
search that ends at a record before the one to be filled is spent: that used record is not looked at
again, and a hole that would have been filled from it stays.
-/

namespace Lancaster

namespace RecordStore

open Compaction

variable {a : Attributes}

def eraseLoop (s : RecordStore a) : List (Handle a) → Int × RecordStore a
  | [] => (Status.ok, s)
  | r :: rest =>
    match s.recordWriteLock r with
    | .error e => (e.val, s)
    | .ok (rev, held) =>
      let cleared := held.storageClearRecord r
      if Status.Failed cleared.1 then (cleared.1, cleared.2.recordSetRevision r rev)
      else eraseLoop cleared.2 rest

/-- The loop that compacts; `last` is the record the last search ended at. -/
def compactLoop (s : RecordStore a) (last : Option (Handle a)) :
    List (Handle a) → Int × RecordStore a
  | [] => (Status.ok, s)
  | p :: rest =>
    match storageFindPrevUsed true s last with
    | (st, none, s) => if Status.Failed st then (st, s) else (Status.ok, s)
    | (_, some (c, lastRev), s) =>
      if c ≤ p then compactLoop (s.recordSetRevision c lastRev) (some c) rest
      else
        match s.recordWriteLock p with
        | .error e => (e.val, s.recordSetRevision c lastRev)
        | .ok (rev, s) =>
          let copied := storageCopyRecord (s.record c) s p (s.record c).ts true
          if Status.Failed copied.1 then
            (copied.1, (copied.2.recordSetRevision c lastRev).recordSetRevision p rev)
          else
            let cleared := copied.2.storageClearRecord c
            if Status.Failed cleared.1 then (cleared.1, cleared.2.recordSetRevision c lastRev)
            else compactLoop (cleared.2.recordSetRevision p lastRev) (some c) rest

/-- `eraser`, which opens the storage with `O_RDWR`; nothing happens unless every identifier has a
record. -/
def eraser (s : RecordStore a) (compact : Bool) (ids : List Int) : Int × RecordStore a :=
  let s := { s with isReadOnly := false }
  match ids.mapM (storageGetRecord a) with
  | .error e => (e.val, s)
  | .ok recs =>
    let erased := eraseLoop s recs
    if Status.Failed erased.1 then erased
    else if compact then compactLoop erased.2 none recs
    else erased

/-! ## What the calls come to -/

def without (s : RecordStore a) (recs : List (Handle a)) : RecordStore a :=
  { s with record := fun r => if r ∈ recs then clearedRecord a else s.record r }

theorem clearRecord_eq {s : RecordStore a} (writable : s.isReadOnly = false) (r : Handle a) :
    s.storageClearRecord r = (Status.ok, s.set r (clearedRecord a)) := by
  rw [storageClearRecord, writable]
  rfl

theorem eraseLoop_eq {s : RecordStore a} {recs : List (Handle a)} (writable : s.isReadOnly = false)
    (passed : ¬ Status.Failed (eraseLoop s recs).1) :
    eraseLoop s recs = (Status.ok, s.without recs) := by
  induction recs generalizing s with
  | nil => simp [eraseLoop, without]
  | cons r rest ih =>
    rw [eraseLoop] at passed ⊢
    rcases s.recordWriteLock_cases r with ⟨locked, taken⟩ | ⟨free, taken⟩
    · rw [taken] at passed
      exact absurd (by decide : Status.Failed Status.deadlockDetected) passed
    · have cleared : (s.recordSetRevision r (lockedWord (s.record r).rev)).storageClearRecord r =
          (Status.ok, s.set r (clearedRecord a)) := by
        rw [clearRecord_eq (by simpa using writable), recordSetRevision, set_set]
      simp only [taken, cleared, show ¬ Status.Failed Status.ok by decide, if_false] at passed ⊢
      rw [ih (by simpa using writable) passed]
      congr 1
      unfold without
      congr 1
      funext i
      by_cases later : i ∈ rest
      · simp [later]
      · by_cases here : i = r
        · simp [here]
        · simp [later, here, set_other s _ here]

def usedPlaces (s : RecordStore a) : Finset (Handle a) :=
  Finset.univ.filter fun r => (s.record r).rev ≠ 0

@[simp] theorem mem_usedPlaces {s : RecordStore a} {r : Handle a} :
    r ∈ s.usedPlaces ↔ (s.record r).rev ≠ 0 := by
  simp [usedPlaces]

/-- Everything a search for a used record can come to. -/
theorem findPrevUsed_cases {s : RecordStore a} (writable : s.isReadOnly = false)
    (prior : Option (Handle a)) :
    (storageFindPrevUsed true s prior = (Status.false, none, s) ∧
      (∀ r, (∀ p ∈ prior, r < p) → (s.record r).rev = 0)) ∨
    storageFindPrevUsed true s prior = (Status.deadlockDetected, none, s) ∨
    ∃ c, IsTop s.usedPlaces prior c ∧ 0 < (s.record c).rev ∧ storageFindPrevUsed true s prior =
      (Status.true, some (c, (s.record c).rev),
        s.recordSetRevision c (lockedWord (s.record c).rev)) := by
  unfold storageFindPrevUsed
  rw [if_neg (by simp [writable])]
  rcases s.seek_cases (fun rev => decide (rev ≠ 0)) (backward prior) with
    ⟨exhausted, all⟩ | ⟨before, r, after, split, passed, ⟨locked, failed⟩ | ⟨free, used, found⟩⟩
  · refine Or.inl ⟨exhausted, fun r under => ?_⟩
    simpa using (all r (mem_backward.mpr under)).2
  · exact Or.inr (Or.inl failed)
  · have nonzero : (s.record r).rev ≠ 0 := by simpa using used
    refine Or.inr (Or.inr ⟨r, ⟨mem_usedPlaces.mpr nonzero, ?_, ?_⟩, by omega, found⟩)
    · exact mem_backward.mp (by rw [split]; simp)
    · intro x hx under
      have among := mem_backward.mpr under
      rw [split, List.mem_append, List.mem_cons] at among
      rcases among with among | rfl | among
      · have zero : (s.record x).rev = 0 := by simpa using (passed x among).2
        exact absurd zero (mem_usedPlaces.mp hx)
      · exact le_refl _
      · have sorted := backward_sorted prior
        rw [split, List.pairwise_append] at sorted
        exact le_of_lt ((List.pairwise_cons.mp sorted.2.1).1 x among)

/-- A record is moved: its old place is cleared. -/
def moved (s : RecordStore a) (c p : Handle a) : RecordStore a :=
  (s.set p (s.record c)).set c (clearedRecord a)

/-- What the loop does to the records, locks apart. -/
inductive Compacts : RecordStore a → Option (Handle a) → List (Handle a) → RecordStore a → Prop
  | done {s : RecordStore a} {last : Option (Handle a)} : Compacts s last [] s
  | exhausted {s : RecordStore a} {last : Option (Handle a)} {p : Handle a} {rest : List (Handle a)}
      (bare : ∀ c, ¬ IsTop s.usedPlaces last c) : Compacts s last (p :: rest) s
  | keep {s s' : RecordStore a} {last : Option (Handle a)} {p c : Handle a} {rest : List (Handle a)}
      (top : IsTop s.usedPlaces last c) (low : c ≤ p) (next : Compacts s (some c) rest s') :
      Compacts s last (p :: rest) s'
  | move {s s' : RecordStore a} {last : Option (Handle a)} {p c : Handle a} {rest : List (Handle a)}
      (top : IsTop s.usedPlaces last c) (free : 0 < (s.record c).rev) (high : p < c)
      (next : Compacts (s.moved c p) (some c) rest s') : Compacts s last (p :: rest) s'

theorem copyRecord_eq {s : RecordStore a} (writable : s.isReadOnly = false) (x : FullRecord a)
    (r : Handle a) (ts : Int) :
    storageCopyRecord x s r ts true = (Status.ok, s.set r (copyOver x (s.record r) ts true)) := by
  rw [storageCopyRecord, writable, if_neg (by simp), if_neg (by simp)]

theorem copyOver_same (x old : FullRecord a) (rev : Int) :
    { copyOver x old x.ts true with rev } = { x with rev } := by
  simp [copyOver, memcpy_all]

theorem setRevision_set (s : RecordStore a) (r : Handle a) (x : FullRecord a) (rev : Int) :
    (s.set r x).recordSetRevision r rev = s.set r { x with rev } := by
  rw [recordSetRevision, set_same, set_set]

theorem setRevision_set_other (s : RecordStore a) {r q : Handle a} (apart : q ≠ r)
    (x : FullRecord a)
    (rev : Int) : (s.set r x).recordSetRevision q rev = (s.recordSetRevision q rev).set r x := by
  rw [recordSetRevision, recordSetRevision, set_other s _ apart, set_comm s apart.symm]

/-- Both locks are held when the record is copied, and its old place is cleared before the new one
is unlocked. -/
theorem move_eq (s : RecordStore a) {c p : Handle a} (apart : p ≠ c) (word word' : Int) :
    ((((s.recordSetRevision c word).recordSetRevision p word').set p
        (copyOver { s.record c with rev := word } ((s.recordSetRevision c word).recordSetRevision p
          word' |>.record p) (s.record c).ts true)).set c (clearedRecord a)).recordSetRevision p
        (s.record c).rev = s.moved c p := by
  rw [setRevision_set_other _ apart, setRevision_set]
  have whole := copyOver_same { s.record c with rev := word }
    (((s.recordSetRevision c word).recordSetRevision p word').record p) (s.record c).rev
  rw [whole, moved]
  rw [recordSetRevision, recordSetRevision, set_set, set_comm _ apart.symm, set_set]

theorem compactLoop_ok {s s' : RecordStore a} {last : Option (Handle a)} {recs : List (Handle a)}
    (writable : s.isReadOnly = false) (ran : compactLoop s last recs = (Status.ok, s')) :
    Compacts s last recs s' := by
  induction recs generalizing s last with
  | nil =>
    obtain rfl := (Prod.mk.inj ran).2
    exact .done
  | cons p rest ih =>
    rw [compactLoop] at ran
    rcases findPrevUsed_cases writable last with ⟨found, nothing⟩ | found | ⟨c, top, free, found⟩
    · simp only [found, show ¬ Status.Failed Status.false by decide, if_false] at ran
      obtain rfl := (Prod.mk.inj ran).2
      exact .exhausted fun c top => mem_usedPlaces.mp top.mem (nothing c top.under)
    · simp only [found, show Status.Failed Status.deadlockDetected by decide, if_true] at ran
      exact absurd (Prod.mk.inj ran).1 (by decide)
    · simp only [found] at ran
      by_cases low : c ≤ p
      · rw [if_pos low, unlock_lock] at ran
        exact .keep top low (ih writable ran)
      · have high := not_le.mp low
        have apart : p ≠ c := ne_of_lt high
        rw [if_neg low] at ran
        rcases (s.recordSetRevision c (lockedWord (s.record c).rev)).recordWriteLock_cases p with
          ⟨locked, taken⟩ | ⟨-, taken⟩
        · rw [taken] at ran
          exact absurd (Prod.mk.inj ran).1 (by decide)
        · rw [setRevision_other _ _ apart] at taken
          have source : ((s.recordSetRevision c (lockedWord (s.record c).rev)).recordSetRevision p
              (lockedWord (s.record p).rev)).record c =
              { s.record c with rev := lockedWord (s.record c).rev } := by
            rw [setRevision_other _ _ apart.symm, setRevision_same]
          simp only [taken, source] at ran
          rw [copyRecord_eq (by simpa using writable)] at ran
          simp only [show ¬ Status.Failed Status.ok by decide, if_false] at ran
          rw [clearRecord_eq (by simpa using writable)] at ran
          simp only [show ¬ Status.Failed Status.ok by decide, if_false] at ran
          rw [move_eq s apart] at ran
          exact .move top free high (ih writable ran)

/-! ## Places -/

theorem usedPlaces_moved {s : RecordStore a} {c p : Handle a} (used : c ∈ s.usedPlaces)
    (apart : p ≠ c) : (s.moved c p).usedPlaces = insert p (s.usedPlaces.erase c) := by
  ext x
  rw [mem_usedPlaces, Finset.mem_insert, Finset.mem_erase, mem_usedPlaces]
  by_cases atOld : x = c
  · subst atOld
    simp [moved, clearedRecord, apart.symm]
  · by_cases atNew : x = p
    · subst atNew
      have nonzero := mem_usedPlaces.mp used
      simp [moved, set_other _ _ atOld, nonzero]
    · simp [moved, set_other _ _ atOld, set_other _ _ atNew, atOld, atNew]

/-- The places that are used are filled from the top. -/
theorem Compacts.fill {s s' : RecordStore a} {last : Option (Handle a)} {recs : List (Handle a)}
    (h : Compacts s last recs s') : Fill s.usedPlaces last recs s'.usedPlaces := by
  induction h with
  | done => exact .done
  | exhausted bare => exact .exhausted bare
  | keep top low next ih => exact .keep top low ih
  | move top free high next ih =>
    rw [usedPlaces_moved top.mem (ne_of_lt high)] at ih
    exact .move top high ih

/-- No lock is there at the end that was not there before. -/
theorem Compacts.locks {s s' : RecordStore a} {last : Option (Handle a)} {recs : List (Handle a)}
    (h : Compacts s last recs s') (r : Handle a) (locked : (s'.record r).rev < 0) :
    s'.record r = s.record r := by
  induction h with
  | done => rfl
  | exhausted bare => rfl
  | keep top low next ih => exact ih locked
  | @move s s' last p c rest top free high next ih =>
    have same := ih locked
    rw [same] at locked ⊢
    by_cases atOld : r = c
    · subst atOld
      simp [moved, clearedRecord] at locked
    · by_cases atNew : r = p
      · subst atNew
        simp only [moved, set_other _ _ atOld, set_same] at locked
        omega
      · simp only [moved, set_other _ _ atOld, set_other _ _ atNew]

/-! ## Records -/

def usedRecords (s : RecordStore a) : Multiset (FullRecord a) :=
  (Finset.univ.val.map s.record).filter fun x => x.rev ≠ 0

def recordsAt (s : RecordStore a) (places : Finset (Handle a)) : Multiset (FullRecord a) :=
  (places.val.map s.record).filter fun x => x.rev ≠ 0

/-- One place apart, the records are the same. -/
theorem usedRecords_set (s : RecordStore a) (r : Handle a) (x : FullRecord a) :
    (s.set r x).usedRecords + Multiset.filter (fun y => y.rev ≠ 0) {s.record r} =
      s.usedRecords + Multiset.filter (fun y => y.rev ≠ 0) {x} := by
  have split : (Finset.univ : Finset (Handle a)).val = r ::ₘ (Finset.univ.erase r).val := by
    rw [Finset.erase_val, Multiset.cons_erase (Finset.mem_univ r)]
  have others : (Finset.univ.erase r).val.map (s.set r x).record =
      (Finset.univ.erase r).val.map s.record := by
    apply Multiset.map_congr rfl
    intro i hi
    exact set_other s x (Finset.ne_of_mem_erase (Finset.mem_val.mp hi))
  unfold usedRecords
  rw [split, Multiset.map_cons, Multiset.map_cons, others, set_same, ← Multiset.singleton_add,
    ← Multiset.singleton_add, Multiset.filter_add, Multiset.filter_add, add_comm, ← add_assoc,
    add_right_comm]

/-- A record that is moved replaces what was in its new place. -/
theorem usedRecords_moved (s : RecordStore a) {c p : Handle a} (apart : p ≠ c) :
    (s.moved c p).usedRecords + Multiset.filter (fun y => y.rev ≠ 0) {s.record p} =
      s.usedRecords := by
  have first := s.usedRecords_set p (s.record c)
  have second := (s.set p (s.record c)).usedRecords_set c (clearedRecord a)
  rw [set_other s _ apart.symm] at second
  have nothing : Multiset.filter (fun y : FullRecord a => y.rev ≠ 0) {clearedRecord a} = 0 := by
    simp [clearedRecord]
  rw [nothing, add_zero] at second
  rw [← second, add_right_comm] at first
  exact add_right_cancel first

/-- Records are lost exactly when a place is filled twice. -/
theorem Compacts.records {s s' : RecordStore a} {last : Option (Handle a)} {recs : List (Handle a)}
    (h : Compacts s last recs s') {T : Finset (Handle a)}
    (same : ∀ x, (∀ b ∈ last, x < b) → (x ∈ s.usedPlaces ↔ x ∈ T)) :
    s'.usedRecords ≤ s.usedRecords ∧
      (s'.usedRecords = s.usedRecords ↔ ¬ Overwrites T last recs) := by
  induction h generalizing T with
  | done => exact ⟨le_refl _, iff_of_true rfl not_overwrites_nil⟩
  | exhausted bare =>
    refine ⟨le_refl _, iff_of_true rfl (not_overwrites_exhausted fun c top => bare c ?_)⟩
    exact (IsTop.congr same).mpr top
  | @keep s s' last p c rest top low next ih =>
    have top' := (IsTop.congr same).mp top
    obtain ⟨less, iff⟩ := ih (T := insert p T) fun x under => by
      have lower := under c rfl
      rw [same x fun b hb => lt_trans lower (top.under b hb), Finset.mem_insert]
      exact ⟨Or.inr, fun h => h.resolve_left (ne_of_lt (lt_of_lt_of_le lower low))⟩
    refine ⟨less, iff.trans (not_congr ?_)⟩
    rw [overwrites_cons top']
    exact ⟨Or.inr, fun h => h.resolve_left fun taken => absurd taken.2 (not_lt_of_ge low)⟩
  | @move s s' last p c rest top free high next ih =>
    have apart := ne_of_lt high
    have top' := (IsTop.congr same).mp top
    have total := s.usedRecords_moved apart
    obtain ⟨less, iff⟩ := ih (T := insert p T) fun x under => by
      have lower := under c rfl
      rw [usedPlaces_moved top.mem apart, Finset.mem_insert, Finset.mem_erase, Finset.mem_insert,
        same x fun b hb => lt_trans lower (top.under b hb)]
      exact or_congr_right ⟨And.right, fun h => ⟨ne_of_lt lower, h⟩⟩
    have before : (s.moved c p).usedRecords ≤ s.usedRecords := by
      rw [← total]
      exact Multiset.le_add_right ..
    refine ⟨le_trans less before, ?_⟩
    rw [overwrites_cons top']
    have inT := same p fun b hb => lt_trans high (top.under b hb)
    by_cases taken : p ∈ T
    · -- the record that was in the place is gone for good
      have lost : (s.moved c p).usedRecords.card < s.usedRecords.card := by
        rw [← total, Multiset.card_add, Multiset.filter_eq_self.mpr, Multiset.card_singleton]
        · omega
        · intro x hx
          rw [Multiset.mem_singleton.mp hx]
          exact mem_usedPlaces.mp (inT.mpr taken)
      refine iff_of_false (fun equal => ?_) (not_not.mpr (Or.inl ⟨taken, high⟩))
      have count := Multiset.card_le_card less
      rw [equal] at count
      omega
    · have free : (s.record p).rev = 0 := by
        by_contra used
        exact taken (inT.mp (mem_usedPlaces.mpr used))
      rw [Multiset.filter_eq_nil.mpr, add_zero] at total
      · rw [← total, iff]
        exact not_congr ⟨Or.inr, fun h => h.resolve_left fun both => taken both.1⟩
      · intro x hx
        rw [Multiset.mem_singleton.mp hx]
        exact not_not.mpr free

/-! ## The whole program -/

theorem usedPlaces_without (s : RecordStore a) (recs : List (Handle a)) :
    (s.without recs).usedPlaces = s.usedPlaces \ recs.toFinset := by
  ext r
  by_cases listed : r ∈ recs
  · simp [without, listed, clearedRecord]
  · simp [without, listed]

theorem usedRecords_without (s : RecordStore a) (recs : List (Handle a)) :
    (s.without recs).usedRecords + s.recordsAt recs.toFinset = s.usedRecords := by
  have listed : recs.toFinset = Finset.univ.filter (· ∈ recs) := by
    ext r
    simp
  have others : (Finset.univ.val.filter (· ∉ recs)).map (s.without recs).record =
      (Finset.univ.val.filter (· ∉ recs)).map s.record := by
    apply Multiset.map_congr rfl
    intro r hr
    simp [without, (Multiset.mem_filter.mp hr).2]
  have erased : ((Finset.univ.val.filter (· ∈ recs)).map (s.without recs).record).filter
      (fun x => x.rev ≠ 0) = 0 := by
    rw [Multiset.filter_eq_nil]
    intro x hx
    obtain ⟨r, hr, rfl⟩ := Multiset.mem_map.mp hx
    simp [without, (Multiset.mem_filter.mp hr).2, clearedRecord]
  have split : ∀ t : RecordStore a, t.usedRecords =
      ((Finset.univ.val.filter (· ∈ recs)).map t.record).filter (fun x => x.rev ≠ 0) +
      ((Finset.univ.val.filter (· ∉ recs)).map t.record).filter (fun x => x.rev ≠ 0) := by
    intro t
    rw [← Multiset.filter_add, ← Multiset.map_add, Multiset.filter_add_not]
    rfl
  rw [split, split s, erased, others, zero_add, add_comm, recordsAt, listed, Finset.filter_val]

/-- A run to the end: the listed records are erased, and the others moved. -/
theorem eraser_compacts {s s' : RecordStore a} {ids : List Int} {recs : List (Handle a)}
    (parsed : ids.mapM (storageGetRecord a) = .ok recs)
    (ran : s.eraser true ids = (Status.ok, s')) :
    Compacts (without { s with isReadOnly := false } recs) none recs s' := by
  simp only [eraser, parsed, if_true] at ran
  split at ran
  · rename_i failed
    exact absurd (congrArg Prod.fst ran) (ne_of_lt failed)
  · rename_i passed
    rw [eraseLoop_eq rfl passed] at ran
    exact compactLoop_ok rfl ran

/-- The records that are left after a run to the end are the used ones without the listed ones, and
no lock is left behind, exactly if no record is given again at a time when the search still finds a
used one behind it. -/
theorem eraser_keeps_records {s s' : RecordStore a} {ids : List Int} {recs : List (Handle a)}
    (parsed : ids.mapM (storageGetRecord a) = .ok recs)
    (ran : s.eraser true ids = (Status.ok, s')) :
    (s'.usedRecords = s.usedRecords - s.recordsAt recs.toFinset ∧
      ∀ r, (s'.record r).rev < 0 → s'.record r = s.record r) ↔
    ¬ ∃ before p after c, recs = before ++ p :: after ∧ p ∈ before ∧
      Finds (s.usedPlaces \ recs.toFinset) none before c ∧ p < c := by
  have compacts := eraser_compacts parsed ran
  have left : (without { s with isReadOnly := false } recs).usedRecords =
      s.usedRecords - s.recordsAt recs.toFinset := by
    rw [← usedRecords_without s recs, Multiset.add_sub_cancel_right]
    rfl
  have places : (without { s with isReadOnly := false } recs).usedPlaces =
      s.usedPlaces \ recs.toFinset := usedPlaces_without s recs
  obtain ⟨-, iff⟩ := compacts.records fun x _ => Iff.rfl
  have locks : ∀ r, (s'.record r).rev < 0 → s'.record r = s.record r := by
    intro r locked
    have same := compacts.locks r locked
    rw [same] at locked ⊢
    by_cases listed : r ∈ recs
    · simp [without, listed, clearedRecord] at locked
    · simp [without, listed]
  rw [← left, and_iff_left locks, iff, places]
  refine not_congr ⟨?_, ?_⟩
  · rintro ⟨before, p, after, c, split, taken, finds, high⟩
    refine ⟨before, p, after, c, split, taken.resolve_left fun here => ?_, finds, high⟩
    exact (Finset.mem_sdiff.mp here).2 (by rw [split]; simp)
  · rintro ⟨before, p, after, c, split, taken, finds, high⟩
    exact ⟨before, p, after, c, split, Or.inr taken, finds, high⟩

/-! ## Holes -/

theorem ids_of_parsed {ids : List Int} {recs : List (Handle a)}
    (parsed : ids.mapM (storageGetRecord a) = .ok recs) : ids = recs.map idOf := by
  induction ids generalizing recs with
  | nil =>
    obtain rfl := Except.ok.inj parsed
    rfl
  | cons id rest ih =>
    rw [List.mapM_cons] at parsed
    cases found : storageGetRecord a id with
    | error e =>
      rw [found] at parsed
      cases parsed
    | ok r =>
      cases others : rest.mapM (storageGetRecord a) with
      | error e =>
        rw [found, others] at parsed
        cases parsed
      | ok rs =>
        rw [found, others] at parsed
        obtain rfl := Except.ok.inj parsed
        rw [List.map_cons, ← ih others, storageGetRecord_ok found]

def firstPlaces (a : Attributes) (m : Nat) : Finset (Handle a) :=
    Finset.univ.filter fun r => r.val < m

theorem card_firstPlaces {m : Nat} (few : m ≤ a.count) : (firstPlaces a m).card = m := by
  unfold firstPlaces
  rw [Fin.card_filter_val_lt]
  exact min_eq_right few

/-- A lower set holds the places before its size. -/
theorem mem_of_val_lt {B : Finset (Handle a)} (lower : ∀ x ∈ B, ∀ y, y ≤ x → y ∈ B) {r : Handle a}
    (low : r.val < B.card) : r ∈ B := by
  by_contra out
  have inside : B ⊆ firstPlaces a r.val := by
    intro x hx
    refine Finset.mem_filter.mpr ⟨Finset.mem_univ x, ?_⟩
    by_contra high
    exact out (lower x hx r (not_lt.mp high))
  have count := Finset.card_le_card inside
  rw [card_firstPlaces (le_of_lt r.isLt)] at count
  omega

/-- With different identifiers and a storage whose used records come first, they come first again
exactly if no record that is to stay unused is given before one to be filled, unless enough of the
records that are used or given already are behind it. -/
theorem eraser_keeps_prefix {s s' : RecordStore a} {ids : List Int} {recs : List (Handle a)}
    (parsed : ids.mapM (storageGetRecord a) = .ok recs) (distinct : ids.Nodup)
    (first : ∀ x ∈ s.usedPlaces, ∀ y, y ≤ x → y ∈ s.usedPlaces)
    (ran : s.eraser true ids = (Status.ok, s')) :
    (∀ x ∈ s'.usedPlaces, ∀ y, y ≤ x → y ∈ s'.usedPlaces) ↔
      ∀ before p after, recs = before ++ p :: after →
        (s.usedPlaces \ recs.toFinset).card ≤ p.val →
        (∃ q ∈ after, q.val < (s.usedPlaces \ recs.toFinset).card) →
        before.length <
          (((s.usedPlaces \ recs.toFinset) ∪ before.toFinset).filter (p < ·)).card := by
  have fill := (eraser_compacts parsed ran).fill
  have places : (without { s with isReadOnly := false } recs).usedPlaces =
      s.usedPlaces \ recs.toFinset := usedPlaces_without s recs
  rw [places] at fill
  generalize keep : s.usedPlaces \ recs.toFinset = U at fill ⊢
  have few : U.card ≤ a.count := by
    have := Finset.card_le_univ U
    rwa [Fintype.card_fin] at this
  have low : ∀ x : Handle a, x ∈ firstPlaces a U.card ↔ x.val < U.card := by
    intro x
    simp [firstPlaces]
  have stage : Stage (firstPlaces a U.card) U U 0 := by
    refine ⟨subset_rfl, fun x hx out => absurd hx out, ?_, ?_⟩
    · exact (card_firstPlaces few).symm
    · rw [card_firstPlaces few, Nat.add_zero]
  have iff := fill.lower_iff stage (fun x _ b hb => absurd hb (by simp))
    (fun x hx y le => (low y).mpr (lt_of_le_of_lt le ((low x).mp hx)))
    (List.Nodup.of_map _ (ids_of_parsed parsed ▸ distinct))
    (by
      intro p hp here
      rw [← keep] at here
      exact (Finset.mem_sdiff.mp here).2 (List.mem_toFinset.mpr hp))
    (by
      intro x hx
      by_cases listed : x ∈ recs
      · exact Or.inr listed
      · refine Or.inl ?_
        rw [← keep, Finset.mem_sdiff, List.mem_toFinset]
        refine ⟨mem_of_val_lt first (lt_of_lt_of_le ((low x).mp hx) ?_), listed⟩
        rw [← keep]
        exact Finset.card_le_card Finset.sdiff_subset)
  rw [iff]
  simp only [Unwasted, low, not_lt, Nat.zero_add]

/-! ## Small storages -/

def sixAttributes : Attributes := ⟨0, 6, 1, 0, 0, by decide⟩

/-- The first `m` records are used, and their revisions tell them apart. -/
def firstUsed (m : Nat) : RecordStore sixAttributes where
  record := fun r => ⟨if r.val < m then r.val + 1 else 0, 7, .replicate _ 5, .replicate _ 0⟩
  qHead := 0
  changeQ := fun _ => 0
  isReadOnly := false

def place (k : Nat) (below : k < 6) : Handle sixAttributes := ⟨k, below⟩

theorem eraser_keeps_records_small :
    ((firstUsed 3).eraser true [0, 1]).1 = Status.ok ∧
      ((firstUsed 3).eraser true [0, 1]).2.usedRecords = (firstUsed 3).usedRecords -
        (firstUsed 3).recordsAt [place 0 (by decide), place 1 (by decide)].toFinset := by
  have parsed : [0, 1].mapM (storageGetRecord sixAttributes) =
    .ok [place 0 (by decide), place 1 (by decide)] := rfl
  have ran : (firstUsed 3).eraser true [0, 1] =
    (Status.ok, ((firstUsed 3).eraser true [0, 1]).2) := rfl
  refine ⟨rfl, ((eraser_keeps_records parsed ran).mpr ?_).1⟩
  rintro ⟨before, p, after, c, split, again, -⟩
  have distinct : [place 0 (by decide), place 1 (by decide)].Nodup := by decide
  rw [split, List.nodup_middle] at distinct
  exact (List.nodup_cons.mp distinct).1 (List.mem_append_left _ again)

/-- Record 0 is given twice while records 1 and 2 are used: both are moved there, one after the
other. -/
theorem eraser_loses_record :
    ((firstUsed 3).eraser true [0, 0]).1 = Status.ok ∧
      ((firstUsed 3).eraser true [0, 0]).2.usedRecords ≠ (firstUsed 3).usedRecords -
        (firstUsed 3).recordsAt [place 0 (by decide), place 0 (by decide)].toFinset := by
  constructor
  · rfl
  · decide

/-- Records 3 and 0 of five: record 4 is moved to the first of them, and then to the second. -/
theorem eraser_keeps_prefix_small :
    ((firstUsed 5).eraser true [3, 0]).1 = Status.ok ∧
      ∀ x ∈ ((firstUsed 5).eraser true [3, 0]).2.usedPlaces, ∀ y, y ≤ x →
        y ∈ ((firstUsed 5).eraser true [3, 0]).2.usedPlaces := by
  have parsed : [3, 0].mapM (storageGetRecord sixAttributes) =
    .ok [place 3 (by decide), place 0 (by decide)] := rfl
  have ran : (firstUsed 5).eraser true [3, 0] =
    (Status.ok, ((firstUsed 5).eraser true [3, 0]).2) := rfl
  have kept := eraser_keeps_prefix parsed (by decide) (by decide) ran
  refine ⟨rfl, kept.mpr ?_⟩
  intro before p after split high later
  match before, split with
  | [], split =>
    obtain ⟨rfl, -⟩ := List.cons.inj split
    decide
  | [_], split =>
    obtain ⟨rfl, -⟩ := List.cons.inj (List.cons.inj split).2
    exact absurd high (by decide)
  | _ :: _ :: _, split => simp at split

/-- Records 4 and 1 of five: the search for record 4 ends at record 3, which stays. -/
theorem eraser_leaves_hole :
    ((firstUsed 5).eraser true [4, 1]).1 = Status.ok ∧
      place 3 (by decide) ∈ ((firstUsed 5).eraser true [4, 1]).2.usedPlaces ∧
      place 2 (by decide) ∉ ((firstUsed 5).eraser true [4, 1]).2.usedPlaces := by
  refine ⟨rfl, ?_, ?_⟩
  · decide
  · decide

end RecordStore

end Lancaster
