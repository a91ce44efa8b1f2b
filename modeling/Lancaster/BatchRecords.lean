import Lancaster.RecordArray
import Mathlib.Data.List.Count
import Mathlib.Logic.Function.Iterate

/-!
# Writing and reading records in batches

`batch_write_records` takes its values from a buffer, one every `copy_size` bytes, and copies as
much of each as a record can hold; `batch_read_records` puts them back at the same distance. An
identifier may be listed several times: its record then holds the last of its values, and its
revision has moved once for each.
-/

namespace Lancaster

namespace RecordStore

open Bytes

variable {a : Attributes}

/-- `val_sz`: what is copied of a value. -/
def copyLength (a : Attributes) (copySize : Nat) : Nat :=
  if copySize < a.valSize then copySize else a.valSize

theorem copyLength_le (a : Attributes) (copySize : Nat) :
    copyLength a copySize ≤ a.valSize ∧ copyLength a copySize ≤ copySize := by
  unfold copyLength
  split <;> omega

/-- The loop of `batch_write_records` from the identifier with index `n` on; `clock` is what
`clock_time` answers each time. -/
def writeLoop (copySize : Nat) (values : List UInt8) (clock : Nat → Except Failure Int) :
    Nat → List Int → RecordStore a → Int × RecordStore a
  | _, [], s => (Status.ok, s)
  | n, id :: rest, s =>
    match storageGetRecord a id with
    | .error e => (e.val, s)
    | .ok r =>
      match clock n with
      | .error e => (e.val, s)
      | .ok now =>
        match s.recordWriteLock r with
        | .error e => (e.val, s)
        | .ok (rev, held) =>
          let old := held.record r
          let val := memcpy old.val values (n * copySize) (copyLength a copySize)
          let s := (held.set r { old with val, ts := now }).recordSetRevision r (nextRev rev)
          if 0 < a.qCapacity then
            match s.storageWriteQueue id with
            | .error e => (e.val, s)
            | .ok s => writeLoop copySize values clock (n + 1) rest s
          else writeLoop copySize values clock (n + 1) rest s

/-- `batch_write_records`; a pointer may be NULL. -/
def batchWriteRecords (s : RecordStore a) (copySize : Nat) (ids : Option (List Int))
    (values : Option (List UInt8)) (clock : Nat → Except Failure Int) : Int × RecordStore a :=
  match ids, values with
  | some ids, some values =>
    if ids.length = 0 ∨ copySize = 0 then (Status.invalidArg, s)
    else writeLoop copySize values clock 0 ids s
  | _, _ => (Status.invalidArg, s)

/-- What the arrays of the caller have got; of revisions and times only if the arrays are there. -/
structure Fetched where
  values : Option (List UInt8)
  revs : List Int
  times : List Int

/-- The loop of `batch_read_records`. Nobody writes meanwhile, so that the revision after the copy
is the one before it. -/
def readLoop (s : RecordStore a) (copySize : Nat) (revs times : Bool) :
    Nat → List Int → Fetched → Int × Fetched
  | _, [], out => (Status.ok, out)
  | n, id :: rest, out =>
    match storageGetRecord a id with
    | .error e => (e.val, out)
    | .ok r =>
      match s.recordReadLock r with
      | .error e => (e.val, out)
      | .ok rev =>
        let x := s.record r
        readLoop s copySize revs times (n + 1) rest
          { values := out.values.map fun buf =>
              poke buf (n * copySize) (x.val.toList.take (copyLength a copySize))
            revs := if revs then out.revs ++ [rev] else out.revs
            times := if times then out.times ++ [x.ts] else out.times }

def batchReadRecords (s : RecordStore a) (copySize : Nat) (ids : Option (List Int))
    (values : Option (List UInt8)) (revs times : Bool) : Int × Fetched :=
  match ids with
  | some ids =>
    if ids.length = 0 ∨ (values = none ∧ revs = false ∧ times = false) ∨
        (values ≠ none ∧ copySize = 0) then (Status.invalidArg, ⟨values, [], []⟩)
    else readLoop s copySize revs times 0 ids ⟨values, [], []⟩
  | none => (Status.invalidArg, ⟨values, [], []⟩)

/-! ## One record -/

def renewed (copySize : Nat) (values : List UInt8) (n : Nat) (now : Int) (x : FullRecord a) :
    FullRecord a where
  rev := nextRev x.rev
  ts := now
  val := memcpy x.val values (n * copySize) (copyLength a copySize)
  prop := x.prop

def queued (s : RecordStore a) (id : Int) : RecordStore a :=
  if 0 < a.qCapacity then
    { s with
      changeQ := fun j => if j = Storage.slot a.qCapacity s.qHead then id else s.changeQ j
      qHead := s.qHead + 1 }
  else s

@[simp] theorem queued_record (s : RecordStore a) (id : Int) : (s.queued id).record = s.record := by
  unfold queued
  split <;> rfl

theorem writeLoop_cons {copySize n : Nat} {values : List UInt8} {clock : Nat → Except Failure Int}
    {id : Int} {rest : List Int} {s s' : RecordStore a}
    (ran : writeLoop copySize values clock n (id :: rest) s = (Status.ok, s')) :
    ∃ r now, id = idOf r ∧ clock n = .ok now ∧ 0 ≤ (s.record r).rev ∧
      writeLoop copySize values clock (n + 1) rest
        ((s.set r (renewed copySize values n now (s.record r))).queued id) = (Status.ok, s') := by
  have failed : ∀ (e : Failure) (x : RecordStore a), (e.val, x) ≠ (Status.ok, s') := by
    intro e x same
    exact absurd (Prod.mk.inj same).1 (ne_of_lt e.property)
  unfold writeLoop at ran
  cases found : storageGetRecord a id with
  | error e =>
    rw [found] at ran
    exact absurd ran (failed e s)
  | ok r =>
    rw [found] at ran
    cases time : clock n with
    | error e =>
      simp only [time] at ran
      exact absurd ran (failed e s)
    | ok now =>
      simp only [time] at ran
      rcases s.recordWriteLock_cases r with ⟨locked, taken⟩ | ⟨free, taken⟩
      · rw [taken] at ran
        exact absurd ran (failed _ s)
      · rw [taken] at ran
        refine ⟨r, now, storageGetRecord_ok found, rfl, free, ?_⟩
        -- the lock is held over the copy and gone with the new revision
        have made : ((s.recordSetRevision r (lockedWord (s.record r).rev)).set r
            { (s.recordSetRevision r (lockedWord (s.record r).rev)).record r with
              val := memcpy ((s.recordSetRevision r (lockedWord (s.record r).rev)).record r).val
                values (n * copySize) (copyLength a copySize), ts := now }).recordSetRevision r
              (nextRev (s.record r).rev) =
            s.set r (renewed copySize values n now (s.record r)) := by
          simp [recordSetRevision, renewed]
        simp only [made] at ran
        unfold queued
        split at ran
        · rename_i queue
          cases written : storageWriteQueue (s.set r (renewed copySize values n now (s.record r))) id with
          | error e =>
            rw [written] at ran
            exact absurd ran (failed e _)
          | ok x =>
            rw [written] at ran
            unfold storageWriteQueue at written
            split_ifs at written
            obtain rfl := Except.ok.inj written
            rw [if_pos queue]
            exact ran
        · rename_i unqueued
          rw [if_neg unqueued]
          exact ran

/-! ## The whole list -/

/-- A renewed value: its first bytes come from the buffer, the others are the old ones. -/
theorem toList_renewed {copySize n : Nat} {values : List UInt8} (now : Int) (x : FullRecord a)
    (there : (n + 1) * copySize ≤ values.length) :
    (renewed copySize values n now x).val.toList =
      (values.drop (n * copySize)).take (copyLength a copySize) ++
        x.val.toList.drop (copyLength a copySize) := by
  obtain ⟨fits, stride⟩ := copyLength_le a copySize
  rw [Nat.succ_mul] at there
  exact toList_memcpy x.val fits (by omega)

/-- What the writes of a list of identifiers, the first of them with index `n`, do to the
records. -/
structure Wrote (copySize : Nat) (values : List UInt8) (n : Nat) (ids : List Int)
    (s s' : RecordStore a) : Prop where
  unlisted : ∀ r, idOf r ∉ ids → s'.record r = s.record r
  last : ∀ r before after, ids = before ++ idOf r :: after → idOf r ∉ after →
    (s'.record r).val.toList =
      (values.drop ((n + before.length) * copySize)).take (copyLength a copySize) ++
        (s.record r).val.toList.drop (copyLength a copySize)
  rev : ∀ r, (s'.record r).rev = nextRev^[ids.count (idOf r)] (s.record r).rev
  prop : ∀ r, (s'.record r).prop = (s.record r).prop
  free : ∀ r, idOf r ∈ ids → 0 ≤ (s'.record r).rev

theorem nextRev_nonneg (v : Int) : 0 ≤ nextRev v := by
  unfold nextRev
  omega

theorem Wrote.nil {copySize n : Nat} {values : List UInt8} (s : RecordStore a) :
    Wrote copySize values n [] s s where
  unlisted _ _ := rfl
  last r before after split := absurd split (by simp)
  rev _ := rfl
  prop _ := rfl
  free _ listed := absurd listed List.not_mem_nil

/-- The first of the writes, and the others. -/
theorem Wrote.cons {copySize n : Nat} {values : List UInt8} {rest : List Int} {q : Handle a}
    {now : Int} {s s₁ s' : RecordStore a} (there : (n + 1) * copySize ≤ values.length)
    (first : s₁.record = (s.set q (renewed copySize values n now (s.record q))).record)
    (h : Wrote copySize values (n + 1) rest s₁ s') :
    Wrote copySize values n (idOf q :: rest) s s' := by
  have same : s₁.record q = renewed copySize values n now (s.record q) := by
    rw [first, set_same]
  have others : ∀ r, r ≠ q → s₁.record r = s.record r := by
    intro r other
    rw [first, set_other s _ other]
  constructor
  · intro r unlisted
    rw [List.mem_cons, not_or, idOf_inj] at unlisted
    rw [h.unlisted r unlisted.2, others r unlisted.1]
  · intro r before after split absent
    cases before with
    | nil =>
      obtain ⟨here, rfl⟩ := List.cons.inj split
      obtain rfl := idOf_inj.mp here
      rw [h.unlisted q absent, same]
      exact toList_renewed now (s.record q) there
    | cons b before =>
      obtain ⟨-, rfl⟩ := List.cons.inj split
      have tail : (s₁.record r).val.toList.drop (copyLength a copySize) =
          (s.record r).val.toList.drop (copyLength a copySize) := by
        by_cases other : r = q
        · -- a value that is written over keeps what the copies do not reach
          subst other
          obtain ⟨-, stride⟩ := copyLength_le a copySize
          have taken : ((values.drop (n * copySize)).take (copyLength a copySize)).length =
              copyLength a copySize := by
            rw [List.length_take, List.length_drop]
            rw [Nat.succ_mul] at there
            omega
          rw [same, toList_renewed now _ there]
          nth_rewrite 1 [← taken]
          rw [List.drop_left]
        · rw [others r other]
      rw [h.last r before after rfl absent, tail, List.length_cons]
      congr 4
      omega
  · intro r
    rw [h.rev r]
    by_cases other : r = q
    · subst other
      rw [same, List.count_cons_self, Function.iterate_succ_apply]
      rfl
    · rw [others r other, List.count_cons_of_ne fun here => other (idOf_inj.mp here.symm)]
  · intro r
    rw [h.prop r]
    by_cases other : r = q
    · rw [other, same]
      rfl
    · rw [others r other]
  · intro r listed
    by_cases later : idOf r ∈ rest
    · exact h.free r later
    · rcases List.mem_cons.mp listed with here | here
      · rw [h.unlisted r later, idOf_inj.mp here, same]
        exact nextRev_nonneg _
      · exact absurd here later

theorem writeLoop_wrote {copySize n : Nat} {values : List UInt8} {clock : Nat → Except Failure Int}
    {ids : List Int} {s s' : RecordStore a} (packed : (n + ids.length) * copySize ≤ values.length)
    (ran : writeLoop copySize values clock n ids s = (Status.ok, s')) :
    Wrote copySize values n ids s s' := by
  induction ids generalizing n s with
  | nil =>
    obtain rfl := (Prod.mk.inj ran).2
    exact .nil s
  | cons id rest ih =>
    obtain ⟨r, now, rfl, -, -, next⟩ := writeLoop_cons ran
    rw [List.length_cons] at packed
    have there : (n + 1) * copySize ≤ values.length :=
      le_trans (Nat.mul_le_mul_right _ (by omega)) packed
    apply Wrote.cons there (queued_record _ _)
    apply ih _ next
    rwa [Nat.add_assoc, Nat.add_comm 1]

/-! ## The queue -/

/-- The queue holds the identifiers of the list behind what it held before: each of them in its
slot, unless a later one has come round to it. -/
structure Appended (cap : Nat) (ids : List Int) (head : Nat) (q : Nat → Int) (head' : Nat)
    (q' : Nat → Int) : Prop where
  moved : head' = head + ids.length
  entry : ∀ (k : Nat) (id : Int), ids[k]? = some id → ids.length ≤ k + cap →
    q' (Storage.slot cap (head + k)) = id
  other : ∀ j, (∀ k < ids.length, Storage.slot cap (head + k) ≠ j) → q' j = q j

theorem Appended.cons {cap : Nat} {id : Int} {rest : List Int} {head head' : Nat} {q q' : Nat → Int}
    (h : Appended cap rest (head + 1) (fun j => if j = Storage.slot cap head then id else q j)
      head' q') : Appended cap (id :: rest) head q head' q' := by
  constructor
  · rw [h.moved, List.length_cons]
    omega
  · intro k x here near
    rw [List.length_cons] at near
    cases k with
    | zero =>
      obtain rfl : id = x := by simpa using here
      rw [Nat.add_zero, h.other]
      · simp
      · intro k below same
        exact Storage.slot_ne (show head < head + 1 + k by omega) (by omega) same.symm
    | succ k =>
      have later := h.entry k x (by simpa using here) (by omega)
      rwa [Nat.add_assoc, Nat.add_comm 1] at later
  · intro j apart
    rw [h.other]
    · have first := apart 0 (by simp)
      rw [Nat.add_zero] at first
      exact if_neg (Ne.symm first)
    · intro k below
      have next := apart (k + 1) (by simp; omega)
      rwa [Nat.add_assoc, Nat.add_comm 1]

theorem writeLoop_queue {copySize n : Nat} {values : List UInt8} {clock : Nat → Except Failure Int}
    {ids : List Int} {s s' : RecordStore a}
    (ran : writeLoop copySize values clock n ids s = (Status.ok, s')) :
    (0 < a.qCapacity → Appended a.qCapacity ids s.qHead s.changeQ s'.qHead s'.changeQ) ∧
    (a.qCapacity = 0 → s'.qHead = s.qHead ∧ s'.changeQ = s.changeQ) := by
  induction ids generalizing n s with
  | nil =>
    obtain rfl := (Prod.mk.inj ran).2
    exact ⟨fun _ => ⟨rfl, fun k id here => absurd here (by simp), fun _ _ => rfl⟩,
      fun _ => ⟨rfl, rfl⟩⟩
  | cons id rest ih =>
    obtain ⟨r, now, rfl, -, -, next⟩ := writeLoop_cons ran
    obtain ⟨positive, unqueued⟩ := ih next
    constructor
    · intro queue
      have later := positive queue
      simp only [queued, if_pos queue] at later
      exact Appended.cons later
    · intro queue
      have later := unqueued queue
      have idle : ¬ 0 < a.qCapacity := by omega
      simp only [queued, if_neg idle] at later
      exact later

/-! ## Reading it back -/

/-- What `batch_read_records` copies into the buffer of values. -/
def readPatches (s : RecordStore a) (copySize : Nat) : Nat → List (Handle a) → List Patch
  | _, [] => []
  | n, r :: rest =>
    ⟨n * copySize, (s.record r).val.toList.take (copyLength a copySize)⟩ ::
      readPatches s copySize (n + 1) rest

theorem readLoop_free {s : RecordStore a} {rs : List (Handle a)}
    (free : ∀ r ∈ rs, 0 ≤ (s.record r).rev) (copySize : Nat) (times : Bool) (n : Nat)
    (buf : List UInt8) (revs ts : List Int) :
    ∃ ts', readLoop s copySize true times n (rs.map idOf) ⟨some buf, revs, ts⟩ =
      (Status.ok, ⟨some (patch buf (readPatches s copySize n rs)),
        revs ++ rs.map fun r => (s.record r).rev, ts'⟩) := by
  induction rs generalizing n buf revs ts with
  | nil => exact ⟨ts, by simp [readLoop, readPatches, patch]⟩
  | cons r rest ih =>
    have here := s.recordReadLock_free (free r List.mem_cons_self)
    obtain ⟨ts', done⟩ := ih (fun q hq => free q (List.mem_cons_of_mem r hq)) (n + 1)
      (poke buf (n * copySize) ((s.record r).val.toList.take (copyLength a copySize)))
      (revs ++ [(s.record r).rev]) (if times then ts ++ [(s.record r).ts] else ts)
    refine ⟨ts', ?_⟩
    simp only [List.map_cons, readLoop, storageGetRecord_idOf, here, Option.map_some, if_true]
    rw [done]
    simp [readPatches, patch]

theorem mem_readPatches {s : RecordStore a} {copySize n : Nat} {rs : List (Handle a)} {p : Patch} :
    p ∈ readPatches s copySize n rs ↔ ∃ k r, rs[k]? = some r ∧
      p = ⟨(n + k) * copySize, (s.record r).val.toList.take (copyLength a copySize)⟩ := by
  induction rs generalizing n with
  | nil => simp [readPatches]
  | cons q rest ih =>
    rw [readPatches, List.mem_cons, ih]
    constructor
    · rintro (rfl | ⟨k, r, there, rfl⟩)
      · exact ⟨0, q, rfl, rfl⟩
      · exact ⟨k + 1, r, there, by rw [Nat.add_assoc, Nat.add_comm 1]⟩
    · rintro ⟨k, r, there, rfl⟩
      cases k with
      | zero =>
        obtain rfl : q = r := by simpa using there
        exact Or.inl rfl
      | succ k => exact Or.inr ⟨k, r, there, by rw [Nat.add_assoc, Nat.add_comm 1]⟩

theorem length_copied (s : RecordStore a) (copySize : Nat) (r : Handle a) :
    ((s.record r).val.toList.take (copyLength a copySize)).length = copyLength a copySize := by
  rw [List.length_take, Vector.length_toList]
  exact min_eq_left (copyLength_le a copySize).1

theorem readPatches_apart (s : RecordStore a) (copySize n : Nat) (rs : List (Handle a)) :
    (readPatches s copySize n rs).Pairwise Patch.Apart := by
  obtain ⟨-, stride⟩ := copyLength_le a copySize
  induction rs generalizing n with
  | nil => exact List.Pairwise.nil
  | cons r rest ih =>
    refine List.pairwise_cons.mpr ⟨fun p hp => Or.inl ?_, ih (n + 1)⟩
    obtain ⟨k, q, -, rfl⟩ := mem_readPatches.mp hp
    show n * copySize + _ ≤ (n + 1 + k) * copySize
    rw [length_copied]
    have step : (n + 1) * copySize ≤ (n + 1 + k) * copySize := Nat.mul_le_mul_right _ (by omega)
    rw [Nat.succ_mul] at step
    omega

/-- The buffer holds each value at its place. -/
theorem peek_readPatches {s : RecordStore a} {copySize : Nat} {rs : List (Handle a)}
    {buf : List UInt8} (room : rs.length * copySize ≤ buf.length) {k : Nat} {r : Handle a}
    (there : rs[k]? = some r) :
    peek (patch buf (readPatches s copySize 0 rs)) (k * copySize) (copyLength a copySize) =
      (s.record r).val.toList.take (copyLength a copySize) := by
  obtain ⟨-, stride⟩ := copyLength_le a copySize
  have within : ∀ p ∈ readPatches s copySize 0 rs, p.Within buf.length := by
    intro p hp
    obtain ⟨j, q, here, rfl⟩ := mem_readPatches.mp hp
    have below : j < rs.length := (List.getElem?_eq_some_iff.mp here).1
    have step : (j + 1) * copySize ≤ rs.length * copySize := Nat.mul_le_mul_right _ below
    rw [Nat.succ_mul] at step
    show (0 + j) * copySize + _ ≤ _
    rw [length_copied, Nat.zero_add]
    omega
  have found := found_patch within (readPatches_apart s copySize 0 rs) _
    (mem_readPatches.mpr ⟨k, r, there, rfl⟩)
  rwa [Patch.Found, length_copied, Nat.zero_add] at found

theorem handles_of_ids {ids : List Int} (valid : ∀ id ∈ ids, a.baseId ≤ id ∧ id < a.maxId) :
    ∃ rs : List (Handle a), ids = rs.map idOf := by
  induction ids with
  | nil => exact ⟨[], rfl⟩
  | cons id rest ih =>
    obtain ⟨rs, rfl⟩ := ih fun x hx => valid x (List.mem_cons_of_mem id hx)
    obtain ⟨low, high⟩ := valid id List.mem_cons_self
    refine ⟨⟨(id - a.baseId).toNat, by unfold Attributes.count; omega⟩ :: rs, ?_⟩
    rw [List.map_cons, List.cons.injEq]
    refine ⟨?_, rfl⟩
    show id = a.baseId + ((id - a.baseId).toNat : Int)
    omega

/-- A batch that is written and read back. Exactly the first bytes of the listed records change, to
the last value listed for each, and revisions move once for each time a record is listed; the
identifiers go to the queue in order; and a batch that reads the same identifiers finds those bytes
and revisions. -/
theorem batch_write_read {s s' : RecordStore a} {copySize : Nat} {ids : List Int}
    {values buf : List UInt8} {clock : Nat → Except Failure Int} (stride : 1 ≤ copySize)
    (nonempty : ids ≠ []) (valid : ∀ id ∈ ids, a.baseId ≤ id ∧ id < a.maxId)
    (packed : ids.length * copySize ≤ values.length) (room : ids.length * copySize ≤ buf.length)
    (ran : s.batchWriteRecords copySize (some ids) (some values) clock = (Status.ok, s')) :
    (∀ r, idOf r ∉ ids → s'.record r = s.record r) ∧
    (∀ r before after, ids = before ++ idOf r :: after → idOf r ∉ after →
      (s'.record r).val.toList =
        (values.drop (before.length * copySize)).take (min copySize a.valSize) ++
          (s.record r).val.toList.drop (min copySize a.valSize)) ∧
    (∀ r, (s'.record r).rev = nextRev^[ids.count (idOf r)] (s.record r).rev ∧
      (s'.record r).prop = (s.record r).prop) ∧
    (0 < a.qCapacity → Appended a.qCapacity ids s.qHead s.changeQ s'.qHead s'.changeQ) ∧
    (a.qCapacity = 0 → s'.qHead = s.qHead ∧ s'.changeQ = s.changeQ) ∧
    ∃ got bytes, s'.batchReadRecords copySize (some ids) (some buf) true true = (Status.ok, got) ∧
      got.values = some bytes ∧ ∀ (k : Nat) (r : Handle a), ids[k]? = some (idOf r) →
        peek bytes (k * copySize) (min copySize a.valSize) =
          (s'.record r).val.toList.take (min copySize a.valSize) ∧
        got.revs[k]? = some (s'.record r).rev := by
  have length : copyLength a copySize = min copySize a.valSize := by
    unfold copyLength
    split <;> omega
  have given : ¬ (ids.length = 0 ∨ copySize = 0) := by
    rw [List.length_eq_zero_iff]
    rintro (empty | zero)
    · exact nonempty empty
    · omega
  rw [batchWriteRecords, if_neg given] at ran
  have wrote := writeLoop_wrote (by rwa [Nat.zero_add]) ran
  obtain ⟨rs, rfl⟩ := handles_of_ids valid
  have free : ∀ r ∈ rs, 0 ≤ (s'.record r).rev := fun r hr => wrote.free r (List.mem_map_of_mem hr)
  obtain ⟨ts, fetched⟩ := readLoop_free free copySize true 0 buf [] []
  rw [← length]
  refine ⟨wrote.unlisted, fun r before after split absent => ?_,
    fun r => ⟨wrote.rev r, wrote.prop r⟩, (writeLoop_queue ran).1, (writeLoop_queue ran).2,
    ⟨some (patch buf (readPatches s' copySize 0 rs)), rs.map fun r => (s'.record r).rev, ts⟩,
    patch buf (readPatches s' copySize 0 rs), ?_, rfl, fun k r there => ?_⟩
  · have last := wrote.last r before after split absent
    rwa [Nat.zero_add] at last
  · have asked : ¬ ((rs.map idOf).length = 0 ∨ (some buf = none ∧ true = false ∧ true = false) ∨
        (some buf ≠ none ∧ copySize = 0)) := by
      simpa using given
    simp only [batchReadRecords, if_neg asked, fetched, List.nil_append]
  · have here : rs[k]? = some r := by
      rw [List.getElem?_map, Option.map_eq_some_iff] at there
      obtain ⟨q, found, same⟩ := there
      rwa [← idOf_inj.mp same]
    rw [List.length_map] at room
    exact ⟨peek_readPatches room here, by simp [here]⟩

theorem two_identifiers : (0 : Int) < 2 := by decide

/-- Two records with values of two bytes, and a queue of two entries. -/
def twoAttributes : Attributes := ⟨0, 2, 2, 1, 2, two_identifiers⟩

def twoRecords : RecordStore twoAttributes where
  record := fun _ => ⟨0, 0, #v[0, 0], #v[9]⟩
  qHead := 0
  changeQ := fun _ => 0
  isReadOnly := false

def second : Handle twoAttributes := ⟨1, by decide⟩

/-- The last of three values for record 1, at a distance of three bytes. -/
theorem batch_write_read_small :
    ∃ s', twoRecords.batchWriteRecords 3 (some [1, 0, 1]) (some [1, 2, 3, 4, 5, 6, 7, 8, 9])
        (fun _ => .ok 5) = (Status.ok, s') ∧
      (s'.record second).val.toList = [7, 8] ∧ (s'.record second).rev = 2 ∧ s'.qHead = 3 := by
  have ran : twoRecords.batchWriteRecords 3 (some [1, 0, 1]) (some [1, 2, 3, 4, 5, 6, 7, 8, 9])
      (fun _ => .ok 5) = (Status.ok, (twoRecords.batchWriteRecords 3 (some [1, 0, 1])
        (some [1, 2, 3, 4, 5, 6, 7, 8, 9]) (fun _ => .ok 5)).2) := rfl
  obtain ⟨-, last, rev, queue, -, -⟩ := batch_write_read (by decide) (by decide) (by decide)
    (by decide) (show 3 * 3 ≤ (List.replicate 9 (0 : UInt8)).length by decide) ran
  exact ⟨_, ran, last second [1, 0] [] rfl (by simp), (rev second).1, (queue (by decide)).moved⟩

end RecordStore

end Lancaster
