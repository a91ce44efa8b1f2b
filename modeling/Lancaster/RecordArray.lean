import Lancaster.LockRecovery

/-!
# The record array as the utilities see it

The batch calls, the eraser and the copier work on whole records, properties included, and nobody
else writes meanwhile. A record handle is a position in the array, so that a handle outside the
array cannot be had. A lock word that is negative stays so: who asks for the lock fails in the end.
-/

namespace Lancaster

structure Attributes where
  baseId : Int
  maxId : Int
  valSize : Nat
  propSize : Nat
  qCapacity : Nat
  base_lt_max : baseId < maxId

def Attributes.count (a : Attributes) : Nat := (a.maxId - a.baseId).toNat

abbrev Handle (a : Attributes) := Fin a.count

structure FullRecord (a : Attributes) where
  rev : Int
  ts : Int
  val : Vector UInt8 a.valSize
  prop : Vector UInt8 a.propSize
  deriving DecidableEq

structure RecordStore (a : Attributes) where
  record : Handle a → FullRecord a
  qHead : Nat
  changeQ : Nat → Int
  isReadOnly : Bool

/-- `memcpy` of `n` bytes from offset `off` of a buffer to the beginning of `dst`. -/
def memcpy {w : Nat} (dst : Vector UInt8 w) (src : List UInt8) (off n : Nat) : Vector UInt8 w :=
  Vector.ofFn fun i => if i < n then src.getD (off + i) 0 else dst[i]

theorem toList_memcpy {w n off : Nat} (dst : Vector UInt8 w) {src : List UInt8} (fits : n ≤ w)
    (there : off + n ≤ src.length) :
    (memcpy dst src off n).toList = (src.drop off).take n ++ dst.toList.drop n := by
  apply List.ext_getElem
  · simp only [Vector.length_toList, List.length_append, List.length_take, List.length_drop]
    omega
  · intro i hi hi'
    have inside : i < w := by simpa using hi
    have taken : ((src.drop off).take n).length = n := by
      rw [List.length_take, List.length_drop]
      omega
    rw [Vector.getElem_toList, List.getElem_append]
    simp only [memcpy, Vector.getElem_ofFn]
    by_cases front : i < n
    · have read : off + i < src.length := by omega
      simp [front, taken, List.getD_eq_getElem?_getD, read]
    · have back : n + (i - n) = i := by omega
      simp [front, taken, back]

/-- A copy with equal sizes. -/
theorem toList_memcpy_all {v w : Nat} (x : Vector UInt8 v) (old : Vector UInt8 w) (same : v = w) :
    (memcpy old x.toList 0 v).toList = x.toList := by
  subst same
  have length := x.length_toList
  rw [toList_memcpy old (le_refl v) (by omega), List.drop_zero, List.take_of_length_le (by omega),
    List.drop_of_length_le (by rw [Vector.length_toList]), List.append_nil]

theorem memcpy_all {v : Nat} (old x : Vector UInt8 v) : memcpy old x.toList 0 v = x :=
  Vector.toList_inj.mp (toList_memcpy_all x old rfl)

namespace RecordStore

variable {a b : Attributes}

def set (s : RecordStore a) (r : Handle a) (x : FullRecord a) : RecordStore a :=
  { s with record := Function.update s.record r x }

@[simp] theorem set_same (s : RecordStore a) (r : Handle a) (x : FullRecord a) :
    (s.set r x).record r = x := Function.update_self ..

theorem set_other (s : RecordStore a) {r i : Handle a} (x : FullRecord a) (other : i ≠ r) :
    (s.set r x).record i = s.record i := Function.update_of_ne other ..

@[simp] theorem set_isReadOnly (s : RecordStore a) (r : Handle a) (x : FullRecord a) :
    (s.set r x).isReadOnly = s.isReadOnly := rfl

@[simp] theorem set_qHead (s : RecordStore a) (r : Handle a) (x : FullRecord a) :
    (s.set r x).qHead = s.qHead := rfl

@[simp] theorem set_changeQ (s : RecordStore a) (r : Handle a) (x : FullRecord a) :
    (s.set r x).changeQ = s.changeQ := rfl

@[simp] theorem set_set (s : RecordStore a) (r : Handle a) (x y : FullRecord a) :
    (s.set r x).set r y = s.set r y := by
  simp [set]

theorem set_comm (s : RecordStore a) {r q : Handle a} (apart : r ≠ q) (x y : FullRecord a) :
    (s.set r x).set q y = (s.set q y).set r x := by
  unfold set
  rw [Function.update_comm apart]

@[simp] theorem set_record (s : RecordStore a) (r : Handle a) : s.set r (s.record r) = s := by
  simp [set]

/-! ## Lock words -/

def recordSetRevision (s : RecordStore a) (r : Handle a) (rev : Int) : RecordStore a :=
  s.set r { s.record r with rev }

@[simp] theorem setRevision_isReadOnly (s : RecordStore a) (r : Handle a) (rev : Int) :
    (s.recordSetRevision r rev).isReadOnly = s.isReadOnly := rfl

@[simp] theorem setRevision_same (s : RecordStore a) (r : Handle a) (rev : Int) :
    (s.recordSetRevision r rev).record r = { s.record r with rev } := set_same ..

theorem setRevision_other (s : RecordStore a) {r i : Handle a} (rev : Int) (other : i ≠ r) :
    (s.recordSetRevision r rev).record i = s.record i := set_other s _ other

@[simp] theorem setRevision_setRevision (s : RecordStore a) (r : Handle a) (word rev : Int) :
    (s.recordSetRevision r word).recordSetRevision r rev = s.recordSetRevision r rev := by
  simp [recordSetRevision]

theorem setRevision_comm (s : RecordStore a) {r q : Handle a} (apart : r ≠ q) (word rev : Int) :
    (s.recordSetRevision r word).recordSetRevision q rev =
      (s.recordSetRevision q rev).recordSetRevision r word := by
  unfold recordSetRevision
  rw [set_other s _ apart.symm, set_other s _ apart, set_comm s apart]

/-- A record that is given the revision it has. -/
theorem setRevision_self {s : RecordStore a} {r : Handle a} {rev : Int}
    (same : (s.record r).rev = rev) :
    s.recordSetRevision r rev = s := by
  subst same
  exact s.set_record r

def recordReadLock (s : RecordStore a) (r : Handle a) : Except Failure Int :=
  spin (s.record r).rev

/-- The old revision, and the record with its lock taken. -/
def recordWriteLock (s : RecordStore a) (r : Handle a) : Except Failure (Int × RecordStore a) :=
  (spin (s.record r).rev).map fun rev => (rev, s.recordSetRevision r (lockedWord rev))

/-- Everything a write lock can come to. -/
theorem recordWriteLock_cases (s : RecordStore a) (r : Handle a) :
    ((s.record r).rev < 0 ∧
      s.recordWriteLock r = .error ⟨Status.deadlockDetected, Status.failed_deadlockDetected⟩) ∨
    (0 ≤ (s.record r).rev ∧ s.recordWriteLock r =
      .ok ((s.record r).rev, s.recordSetRevision r (lockedWord (s.record r).rev))) := by
  unfold recordWriteLock
  by_cases locked : (s.record r).rev < 0
  · rw [spin_negative locked]
    exact Or.inl ⟨locked, rfl⟩
  · rw [spin_free (by omega)]
    exact Or.inr ⟨by omega, rfl⟩

theorem recordReadLock_free (s : RecordStore a) {r : Handle a} (free : 0 ≤ (s.record r).rev) :
    s.recordReadLock r = .ok (s.record r).rev := spin_free free

/-- A lock that is given back with the revision it was taken at leaves no trace. -/
theorem unlock_lock (s : RecordStore a) (r : Handle a) (word : Int) :
    (s.recordSetRevision r word).recordSetRevision r (s.record r).rev = s := by
  rw [setRevision_setRevision, setRevision_self rfl]

/-! ## The functions of the storage -/

def storageGetRecord (a : Attributes) (id : Int) : Except Failure (Handle a) :=
  if h : id < a.baseId ∨ a.maxId ≤ id then .error ⟨Status.invalidRecord,
    Status.failed_invalidRecord⟩
  else .ok ⟨(id - a.baseId).toNat, by unfold Attributes.count; omega⟩

/-- `storage_write_queue`; the mask of a storage without a queue has all bits set. -/
def storageWriteQueue (s : RecordStore a) (id : Int) : Except Failure (RecordStore a) :=
  if s.isReadOnly then .error .storageReadOnly
  else if a.qCapacity = 0 then .error .noChangeQueue
  else .ok { s with
    changeQ := fun j => if j = Storage.slot a.qCapacity s.qHead then id else s.changeQ j
    qHead := s.qHead + 1 }

/-- The loop of `storage_find_next_unused` and `storage_find_prev_used` over the records it comes
by: the first one whose revision is wanted, with its revision. With `locks` that one stays
locked. -/
def seek (locks : Bool) (wanted : Int → Bool) (s : RecordStore a) :
    List (Handle a) → Int × Option (Handle a × Int) × RecordStore a
  | [] => (Status.false, none, s)
  | r :: rest =>
    if locks then
      match s.recordWriteLock r with
      | .error e => (e.val, none, s)
      | .ok (rev, held) =>
        if wanted rev then (Status.true, some (r, rev), held)
        else seek locks wanted (held.recordSetRevision r rev) rest
    else
      let rev := (s.record r).rev
      if wanted rev then (Status.true, some (r, rev), s) else seek locks wanted s rest

/-- The records behind `prior`, or all of them, upwards. -/
def onward (prior : Option (Handle a)) : List (Handle a) :=
  (List.finRange a.count).filter fun r => decide (∀ p ∈ prior, p < r)

/-- The records before `prior`, or all of them, downwards. -/
def backward (prior : Option (Handle a)) : List (Handle a) :=
  ((List.finRange a.count).filter fun r => decide (∀ p ∈ prior, r < p)).reverse

def storageFindNextUnused (locks : Bool) (s : RecordStore a) (prior : Option (Handle a)) :
    Int × Option (Handle a × Int) × RecordStore a :=
  if locks ∧ s.isReadOnly then (Status.storageReadOnly, none, s)
  else seek locks (fun rev => rev = 0) s (onward prior)

def storageFindPrevUsed (locks : Bool) (s : RecordStore a) (prior : Option (Handle a)) :
    Int × Option (Handle a × Int) × RecordStore a :=
  if locks ∧ s.isReadOnly then (Status.storageReadOnly, none, s)
  else seek locks (fun rev => rev ≠ 0) s (backward prior)

def clearedRecord (a : Attributes) : FullRecord a :=
  ⟨0, 0, Vector.replicate a.valSize 0, Vector.replicate a.propSize 0⟩

def storageClearRecord (s : RecordStore a) (r : Handle a) : Int × RecordStore a :=
  if s.isReadOnly then (Status.storageReadOnly, s) else (Status.ok, s.set r (clearedRecord a))

/-- `old` with the value of `source`, and with its property if that is asked for. -/
def copyOver (source : FullRecord a) (old : FullRecord b) (ts : Int) (withProp : Bool) :
    FullRecord b :=
  { old with
    val := memcpy old.val source.val.toList 0 a.valSize
    prop := if withProp then memcpy old.prop source.prop.toList 0 a.propSize else old.prop
    ts := ts }

def storageCopyRecord (source : FullRecord a) (s : RecordStore b) (r : Handle b) (ts : Int)
    (withProp : Bool) : Int × RecordStore b :=
  if s.isReadOnly then (Status.storageReadOnly, s)
  else if a.valSize ≠ b.valSize ∨ (withProp ∧ a.propSize ≠ b.propSize) then
    (Status.storageUnequal, s)
  else (Status.ok, s.set r (copyOver source (s.record r) ts withProp))

theorem copyRecord_other (source : FullRecord a) (s : RecordStore b) {r i : Handle b} (ts : Int)
    (withProp : Bool) (other : i ≠ r) :
    (storageCopyRecord source s r ts withProp).2.record i = s.record i := by
  unfold storageCopyRecord
  split_ifs
  · rfl
  · rfl
  · exact set_other s _ other

/-! ## Identifiers and handles -/

def idOf (r : Handle a) : Int := a.baseId + r.val

theorem storageGetRecord_idOf (r : Handle a) : storageGetRecord a (idOf r) = .ok r := by
  have below := r.isLt
  unfold Attributes.count at below
  have inside : ¬ (idOf r < a.baseId ∨ a.maxId ≤ idOf r) := by
    unfold idOf
    omega
  rw [storageGetRecord, dif_neg inside]
  congr 1
  apply Fin.ext
  show (idOf r - a.baseId).toNat = r.val
  unfold idOf
  omega

theorem storageGetRecord_ok {id : Int} {r : Handle a} (h : storageGetRecord a id = .ok r) :
    id = idOf r := by
  unfold storageGetRecord at h
  split at h
  · cases h
  · rename_i inside
    obtain rfl := Except.ok.inj h
    show id = a.baseId + ((id - a.baseId).toNat : Int)
    omega

theorem idOf_inj {r q : Handle a} : idOf r = idOf q ↔ r = q := by
  constructor
  · intro same
    apply Fin.ext
    unfold idOf at same
    omega
  · exact fun same => congrArg idOf same

/-! ## What a search comes to -/

theorem mem_onward {prior : Option (Handle a)} {r : Handle a} :
    r ∈ onward prior ↔ ∀ p ∈ prior, p < r := by
  simp [onward]

theorem onward_sorted (prior : Option (Handle a)) : (onward prior).Pairwise (· < ·) :=
  List.Pairwise.filter _ (List.pairwise_lt_finRange a.count)

theorem mem_backward {prior : Option (Handle a)} {r : Handle a} :
    r ∈ backward prior ↔ ∀ p ∈ prior, r < p := by
  simp [backward]

theorem backward_sorted (prior : Option (Handle a)) : (backward prior).Pairwise (· > ·) := by
  unfold backward
  rw [List.pairwise_reverse]
  exact List.Pairwise.filter _ (List.pairwise_lt_finRange a.count)

theorem seek_cases (wanted : Int → Bool) (s : RecordStore a) (l : List (Handle a)) :
    (seek true wanted s l = (Status.false, none, s) ∧
      ∀ r ∈ l, 0 ≤ (s.record r).rev ∧ wanted (s.record r).rev = false) ∨
    ∃ before r after, l = before ++ r :: after ∧
      (∀ p ∈ before, 0 ≤ (s.record p).rev ∧ wanted (s.record p).rev = false) ∧
      (((s.record r).rev < 0 ∧ seek true wanted s l = (Status.deadlockDetected, none, s)) ∨
       (0 ≤ (s.record r).rev ∧ wanted (s.record r).rev = true ∧
         seek true wanted s l = (Status.true, some (r, (s.record r).rev),
           s.recordSetRevision r (lockedWord (s.record r).rev)))) := by
  induction l with
  | nil => exact Or.inl ⟨rfl, fun r hr => absurd hr List.not_mem_nil⟩
  | cons r rest ih =>
    rcases s.recordWriteLock_cases r with ⟨locked, taken⟩ | ⟨free, taken⟩
    · refine Or.inr ⟨[], r, rest, rfl, fun p hp => absurd hp List.not_mem_nil, Or.inl ⟨locked, ?_⟩⟩
      simp only [seek, if_true, taken]
    · by_cases fine : wanted (s.record r).rev = true
      · refine Or.inr ⟨[], r, rest, rfl, fun p hp => absurd hp List.not_mem_nil,
          Or.inr ⟨free, fine, ?_⟩⟩
        simp only [seek, if_true, taken, fine]
      · have onwards : seek true wanted s (r :: rest) = seek true wanted s rest := by
          simp only [seek, if_true, taken, fine, unlock_lock]
          simp
        have here : 0 ≤ (s.record r).rev ∧ wanted (s.record r).rev = false :=
          ⟨free, by simpa using fine⟩
        rw [onwards]
        rcases ih with ⟨done, all⟩ | ⟨before, q, after, rfl, passed, result⟩
        · refine Or.inl ⟨done, fun p hp => ?_⟩
          rcases List.mem_cons.mp hp with rfl | hp
          · exact here
          · exact all p hp
        · refine Or.inr ⟨r :: before, q, after, rfl, fun p hp => ?_, result⟩
          rcases List.mem_cons.mp hp with rfl | hp
          · exact here
          · exact passed p hp

end RecordStore

end Lancaster
