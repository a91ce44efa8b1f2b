import Mathlib.Data.List.Nodup
import Mathlib.Tactic.Common

/-!
# The index of a store

`Update` reads the records from where it ended the last time, up to the first that is not used,
and adds their keys to the index. The records are read without the mutex, which is taken to add
one key at a time.

Keys are of any type: what the keyer makes of a record. A store does not change during a call.
-/

namespace Lancaster

variable {K V : Type} [DecidableEq K]

/-- A store with base id 0, as the keyer sees it. -/
structure KeyedStore (K : Type) where
  maxId : Nat
  /-- The key of a record, nothing if its revision is zero, or why it could not be read. -/
  record : Nat → Except String (Option K)

/-- `GetRecord`, as far as `storage_get_record` lets it. -/
def KeyedStore.getRecord (store : KeyedStore K) (id : Nat) : Except String (Option K) :=
  if id < store.maxId then store.record id else .error "storage_get_record: invalid identifier"

omit [DecidableEq K] in
theorem KeyedStore.getRecord_lt {store : KeyedStore K} {id : Nat} {used : Option K}
    (read : store.getRecord id = .ok used) : id < store.maxId := by
  unfold getRecord at read
  split at read
  · assumption
  · cases read

inductive UpdateError (K V : Type) where
  /-- "Failed to read record: %v, reason: %v" -/
  | read (id : Nat) (reason : String)
  /-- "index: duplicate key %v. original: %v new %v" -/
  | duplicate (key : K) (original new : V)

structure Keyed (K V : Type) where
  index : K → Option V
  locked : Bool

def Keyed.empty : Keyed K V := ⟨fun _ => none, false⟩

def Keyed.insert (keyed : Keyed K V) (key : K) (val : V) : Keyed K V :=
  { keyed with index := fun k => if k = key then some val else keyed.index k }

/-- A look at the map; nothing if it waits for the mutex for ever. -/
def Keyed.get (keyed : Keyed K V) (key : K) : Option (Option V) :=
  if keyed.locked then none else some (keyed.index key)

/-- The loop of `Update` from a record on: where it ends, or its error. It returns nothing if
it waits for the mutex for ever. -/
def pass (store : KeyedStore K) (loc : Nat → V) (keyed : Keyed K V) (cur : Nat) :
    Option (Except (UpdateError K V) Nat × Keyed K V) :=
  match _read : store.getRecord cur with
  | .error reason => some (.error (.read cur reason), keyed)
  | .ok none => some (.ok cur, keyed)
  | .ok (some key) =>
    if keyed.locked then none
    else
      match keyed.index key with
      -- this return is between the lock and the unlock
      | some original => some (.error (.duplicate key original (loc cur)), { keyed with locked := true })
      | none => pass store loc (keyed.insert key (loc cur)) (cur + 1)
termination_by store.maxId - cur
decreasing_by
  have := KeyedStore.getRecord_lt _read
  omega

/-- The keys of the used records from one on, up to the first that is not used or not readable. -/
def newKeys (store : KeyedStore K) (cur : Nat) : List K :=
  match read : store.getRecord cur with
  | .error _ => []
  | .ok none => []
  | .ok (some key) => key :: newKeys store (cur + 1)
termination_by store.maxId - cur
decreasing_by
  have := KeyedStore.getRecord_lt read
  omega

def AllNew (keyed : Keyed K V) (keys : List K) : Prop :=
    keys.Nodup ∧ ∀ key ∈ keys, keyed.index key = none

/-- The map with the keys of consecutive records added. -/
structure Added (keyed : Keyed K V) (loc : Nat → V) (cur : Nat) (keys : List K)
    (after : Keyed K V) : Prop where
  index_iff : ∀ key val, after.index key = some val ↔
    keyed.index key = some val ∨ ∃ i, keys[i]? = some key ∧ val = loc (cur + i)
  locked_eq : after.locked = false

def passEnd (store : KeyedStore K) (stop : Nat) : Except (UpdateError K V) Nat :=
  match store.getRecord stop with
  | .error reason => .error (.read stop reason)
  | .ok _ => .ok stop

/-! ## One pass -/

section Pass

variable {store : KeyedStore K} {loc : Nat → V} {keyed after : Keyed K V} {cur : Nat}

omit [DecidableEq K] in
theorem newKeys_used {key : K} (read : store.getRecord cur = .ok (some key)) :
    newKeys store cur = key :: newKeys store (cur + 1) := by
  rw [newKeys]
  split
  · rename_i eq
    rw [read] at eq
    cases eq
  · rename_i eq
    rw [read] at eq
    cases eq
  · rename_i eq
    rw [read] at eq
    cases eq
    rfl

omit [DecidableEq K] in
theorem newKeys_end (read : ∀ key, store.getRecord cur ≠ .ok (some key)) :
    newKeys store cur = [] := by
  rw [newKeys]
  split
  · rfl
  · rfl
  · rename_i key eq
    exact absurd eq (read key)

theorem allNew_cons {key : K} {val : V} {keys : List K} :
    AllNew keyed (key :: keys) ↔ keyed.index key = none ∧ AllNew (keyed.insert key val) keys := by
  unfold AllNew Keyed.insert
  constructor
  · rintro ⟨distinct, absent⟩
    obtain ⟨other, distinct⟩ := List.nodup_cons.mp distinct
    refine ⟨absent key (List.mem_cons_self ..), distinct, ?_⟩
    intro k here
    dsimp only
    have apart : k ≠ key := by
      rintro rfl
      exact other here
    rw [if_neg apart]
    exact absent k (List.mem_cons_of_mem _ here)
  · rintro ⟨first, distinct, absent⟩
    have apart : ∀ k ∈ keys, k ≠ key ∧ keyed.index k = none := by
      intro k here
      have := absent k here
      dsimp only at this
      split at this
      · cases this
      · rename_i other
        exact ⟨other, this⟩
    refine ⟨List.nodup_cons.mpr ⟨fun here => (apart key here).1 rfl, distinct⟩, ?_⟩
    intro k here
    rcases List.mem_cons.mp here with rfl | here
    · exact first
    · exact (apart k here).2

omit [DecidableEq K] in
theorem added_nil (free : keyed.locked = false) : Added keyed loc cur [] keyed := by
  refine ⟨?_, free⟩
  intro key val
  constructor
  · exact Or.inl
  · rintro (here | ⟨i, here, _⟩)
    · exact here
    · simp at here

theorem Added.cons {key : K} {keys : List K} (absent : keyed.index key = none)
    (h : Added (keyed.insert key (loc cur)) loc (cur + 1) keys after) :
    Added keyed loc cur (key :: keys) after := by
  refine ⟨?_, h.locked_eq⟩
  intro k val
  rw [h.index_iff]
  unfold Keyed.insert
  dsimp only
  constructor
  · rintro (here | ⟨i, here, rfl⟩)
    · split at here
      · rename_i same
        cases here
        exact Or.inr ⟨0, by rw [same]; rfl, rfl⟩
      · exact Or.inl here
    · exact Or.inr ⟨i + 1, here, by rw [Nat.add_right_comm]; rfl⟩
  · rintro (here | ⟨i, here, rfl⟩)
    · left
      rw [if_neg]
      · exact here
      · rintro rfl
        rw [absent] at here
        cases here
    · cases i with
      | zero =>
        left
        cases here
        exact if_pos rfl
      | succ i => exact Or.inr ⟨i, here, by rw [Nat.add_right_comm]; rfl⟩

omit [DecidableEq K] in
theorem AllNew.append_left {keys more : List K} (new : AllNew keyed (keys ++ more)) :
    AllNew keyed keys :=
  ⟨(List.nodup_append.mp new.1).1, fun key here => new.2 key (List.mem_append_left _ here)⟩

omit [DecidableEq K] in
/-- Keys that are new along with others are still new after those. -/
theorem Added.allNew {keys more : List K}
    (added : Added keyed loc cur keys after) (new : AllNew keyed (keys ++ more)) :
    AllNew after more := by
  obtain ⟨_, distinct, apart⟩ := List.nodup_append.mp new.1
  refine ⟨distinct, ?_⟩
  intro key here
  cases found : after.index key with
  | none => rfl
  | some val =>
    rcases (added.index_iff key val).mp found with before | ⟨i, there, _⟩
    · rw [new.2 key (List.mem_append_right _ here)] at before
      cases before
    · exact absurd rfl (apart key (List.mem_of_getElem? there) key here)

/-- What a pass comes to with the mutex free: with new keys only it adds them all, and ends as the
record after them is read; else it ends at the first that is not new, with the mutex locked. -/
inductive Passed (store : KeyedStore K) (loc : Nat → V) (keyed : Keyed K V) (cur : Nat) :
    Option (Except (UpdateError K V) Nat × Keyed K V) → Prop where
  | added (after : Keyed K V) (new : AllNew keyed (newKeys store cur))
      (added : Added keyed loc cur (newKeys store cur) after) :
      Passed store loc keyed cur (some (passEnd store (cur + (newKeys store cur).length), after))
  | repeated (error : UpdateError K V) (after : Keyed K V) (old : ¬ AllNew keyed (newKeys store cur))
      (locked : after.locked = true) : Passed store loc keyed cur (some (.error error, after))

theorem pass_passed (store : KeyedStore K) (loc : Nat → V) (keyed : Keyed K V) (cur : Nat)
    (free : keyed.locked = false) : Passed store loc keyed cur (pass store loc keyed cur) := by
  have ended {keyed : Keyed K V} {cur : Nat} (free : keyed.locked = false)
      (read : ∀ key, store.getRecord cur ≠ .ok (some key)) :
      Passed store loc keyed cur (some (passEnd store cur, keyed)) := by
    have empty := newKeys_end read
    have nothing : AllNew keyed (newKeys store cur) := by
      rw [empty]
      exact ⟨List.nodup_nil, fun key here => absurd here List.not_mem_nil⟩
    have passed : Passed store loc keyed cur
        (some (passEnd store (cur + (newKeys store cur).length), keyed)) :=
      .added keyed nothing (empty ▸ added_nil free)
    rw [empty] at passed
    exact passed
  fun_induction pass store loc keyed cur with
  | case1 keyed cur reason read =>
    have stop : passEnd (V := V) store cur = .error (.read cur reason) := by rw [passEnd, read]
    rw [← stop]
    exact ended free fun key eq => by rw [read] at eq; cases eq
  | case2 keyed cur read =>
    have stop : passEnd (V := V) store cur = .ok cur := by rw [passEnd, read]
    rw [← stop]
    exact ended free fun key eq => by rw [read] at eq; cases eq
  | case3 keyed cur key read locked => exact absurd (free.symm.trans locked) nofun
  | case4 keyed cur key read locked original here =>
    refine .repeated _ _ ?_ rfl
    rw [newKeys_used read]
    intro new
    have absent := new.2 key (List.mem_cons_self ..)
    rw [here] at absent
    cases absent
  | case5 keyed cur key read locked absent ih =>
    have more := newKeys_used read
    have length : cur + (newKeys store cur).length =
      cur + 1 + (newKeys store (cur + 1)).length := by
      rw [more, List.length_cons, Nat.add_right_comm]
      rfl
    have passed := ih free
    generalize pass store loc (keyed.insert key (loc cur)) (cur + 1) = result at passed
    cases passed with
    | added after new added =>
      rw [← length]
      refine .added after ?_ ?_
      · rw [more]
        exact allNew_cons.mpr ⟨absent, new⟩
      · rw [more]
        exact added.cons absent
    | repeated error after old locked =>
      refine .repeated error after ?_ locked
      rw [more]
      exact fun new => old (allNew_cons.mp new).2

end Pass

/-! ## Stores whose used records come first -/

/-- A store whose used records are the first ones, all readable. -/
def KeyedStore.ofKeys (maxId : Nat) (keys : List K) : KeyedStore K :=
    ⟨maxId, fun id => .ok keys[id]?⟩

section OfKeys

variable {maxId : Nat} {keys : List K}

omit [DecidableEq K] in
theorem newKeys_ofKeys (fits : keys.length ≤ maxId) (cur : Nat) :
    newKeys (KeyedStore.ofKeys maxId keys) cur = keys.drop cur := by
  induction left : keys.length - cur generalizing cur with
  | zero =>
    rw [List.drop_of_length_le (by omega)]
    apply newKeys_end
    intro key read
    unfold KeyedStore.getRecord KeyedStore.ofKeys at read
    dsimp only at read
    split at read
    · rw [List.getElem?_eq_none (by omega)] at read
      cases read
    · cases read
  | succ left ih =>
    have less : cur < keys.length := by omega
    have read : (KeyedStore.ofKeys maxId keys).getRecord cur = .ok (some keys[cur]) := by
      unfold KeyedStore.getRecord KeyedStore.ofKeys
      dsimp only
      rw [if_pos (by omega), List.getElem?_eq_getElem less]
    rw [newKeys_used read, ih (cur + 1) (by omega), List.drop_eq_getElem_cons less]

omit [DecidableEq K] in
/-- A pass ends well if a record that is not used follows. -/
theorem passEnd_ofKeys :
    passEnd (V := V) (KeyedStore.ofKeys maxId keys) keys.length =
      if keys.length < maxId then .ok keys.length
      else .error (.read keys.length "storage_get_record: invalid identifier") := by
  unfold passEnd KeyedStore.getRecord KeyedStore.ofKeys
  dsimp only
  by_cases less : keys.length < maxId
  · rw [if_pos less, if_pos less]
  · rw [if_neg less, if_neg less]

end OfKeys

/-! ## `Index` -/

structure Index (K : Type) where
  keyed : Keyed K Nat
  maxRecord : Nat

namespace Index

def newIndexer : Index K := ⟨Keyed.empty, 0⟩

/-- The id of a key. `ErrNotFound` is no id. -/
def getIndex (i : Index K) (key : K) : Option (Option Nat) := i.keyed.get key

/-- The place to go on from is only kept if there is no error. -/
def update (i : Index K) (store : KeyedStore K) : Option (Option (UpdateError K Nat) × Index K) :=
  (pass store id i.keyed i.maxRecord).map fun
    | (.error error, keyed) => (some error, { i with keyed := keyed })
    | (.ok cur, keyed) => (none, ⟨keyed, cur⟩)

/-- If the call fails, neither a look nor another call has to wait. -/
def Releases (i : Index K) (store : KeyedStore K) : Prop :=
  ∃ error after, i.update store = some (error, after) ∧
    (error ≠ none → (∀ key, after.getIndex key ≠ none) ∧ ∀ store, after.update store ≠ none)

theorem update_ne_none {i : Index K} (free : i.keyed.locked = false) (store : KeyedStore K) :
    i.update store ≠ none := by
  have passed := pass_passed store id i.keyed i.maxRecord free
  unfold update
  generalize pass store id i.keyed i.maxRecord = result at passed
  cases passed <;> exact nofun

/-- A call that fails releases the mutex exactly if it has met no key for the second time. -/
theorem releases_iff {i : Index K} (free : i.keyed.locked = false) (store : KeyedStore K) :
    i.Releases store ↔ AllNew i.keyed (newKeys store i.maxRecord) := by
  have passed := pass_passed store id i.keyed i.maxRecord free
  unfold Releases update
  generalize pass store id i.keyed i.maxRecord = result at passed
  cases passed with
  | added after new added =>
    refine iff_of_true ?_ new
    cases passEnd store (i.maxRecord + (newKeys store i.maxRecord).length) with
    | error error =>
      refine ⟨_, _, rfl, fun _ => ⟨?_, ?_⟩⟩
      · intro key
        rw [getIndex, Keyed.get, added.locked_eq]
        exact nofun
      · exact update_ne_none (i := { i with keyed := after }) added.locked_eq
    | ok cur => exact ⟨_, _, rfl, fun failed => absurd rfl failed⟩
  | repeated error after old locked =>
    refine iff_of_false ?_ old
    rintro ⟨error', after', eq, released⟩
    cases eq
    obtain ⟨looks, _⟩ := released (Option.some_ne_none error)
    cases keys : newKeys store i.maxRecord with
    | nil =>
      rw [keys] at old
      exact old ⟨List.nodup_nil, fun key here => absurd here List.not_mem_nil⟩
    | cons key _ =>
      apply looks key
      rw [getIndex, Keyed.get, locked]
      rfl

omit [DecidableEq K] in
/-- A place in a list is one in its beginning, or in the rest. -/
theorem getElem?_take_or_drop {keys : List K} {key : K} {id : Nat} (k : Nat) :
    ((keys.take k)[id]? = some key ∨ ∃ j, (keys.drop k)[j]? = some key ∧ id = k + j) ↔
    keys[id]? = some key := by
  constructor
  · rintro (here | ⟨j, here, rfl⟩)
    · rw [List.getElem?_take] at here
      split at here
      · exact here
      · cases here
    · rw [List.getElem?_drop] at here
      exact here
  · intro here
    by_cases less : id < k
    · left
      rw [List.getElem?_take, if_pos less]
      exact here
    · right
      refine ⟨id - k, ?_, by omega⟩
      rw [List.getElem?_drop, Nat.add_sub_cancel' (by omega)]
      exact here

/-- A store to which records are appended between calls: its keys in the end, and how many of its
records are used at each call. -/
structure History (K : Type) where
  maxId : Nat
  keys : List K
  calls : List Nat
  fits : keys.length ≤ maxId
  distinct : keys.Nodup
  written : ∀ k ∈ calls, k ≤ keys.length
  appended : calls.Pairwise (· ≤ ·)

def History.store (h : History K) (k : Nat) : KeyedStore K :=
    KeyedStore.ofKeys h.maxId (h.keys.take k)

/-- The index maps the keys of so many records to their ids, and nothing else. -/
structure Exact (h : History K) (k : Nat) (i : Index K) : Prop where
  index_iff : ∀ key id, i.keyed.index key = some id ↔ (h.keys.take k)[id]? = some key
  locked_eq : i.keyed.locked = false

/-- Each call returns nil, with an exact index. -/
def Serves (h : History K) : Index K → List Nat → Prop
  | _, [] => True
  | i, k :: calls =>
    ∃ after, i.update (h.store k) = some (none, after) ∧ Exact h k after ∧ Serves h after calls

variable {h : History K} {i : Index K} {k k' : Nat}

omit [DecidableEq K] in
theorem exact_new : Exact h 0 newIndexer := by
  refine ⟨?_, rfl⟩
  intro key id
  rw [List.take_zero]
  exact iff_of_false nofun nofun

omit [DecidableEq K] in
theorem Exact.allNew (indexed : Exact h k i) : AllNew i.keyed ((h.keys.take k').drop k) := by
  constructor
  · exact (h.distinct.sublist (List.take_sublist ..)).sublist (List.drop_sublist ..)
  · intro key here
    by_contra found
    obtain ⟨id, found⟩ := Option.ne_none_iff_exists'.mp found
    rw [indexed.index_iff, List.getElem?_take] at found
    obtain ⟨j, here⟩ := List.mem_iff_getElem?.mp here
    rw [List.getElem?_drop, List.getElem?_take] at here
    split at found
    · split at here
      · -- one key at two places
        rename_i low high
        obtain ⟨less, _⟩ := List.getElem?_eq_some_iff.mp found
        have same := (List.getElem?_inj less h.distinct).mp (found.trans here.symm)
        omega
      · cases here
    · cases found

/-- A call with more records used: it is right if a record that is not used follows them. -/
theorem Exact.update (indexed : Exact h k i) (start : i.maxRecord = k) (more : k ≤ k')
    (most : k' ≤ h.keys.length) :
    (k' < h.maxId ∧ ∃ after, i.update (h.store k') = some (none, after) ∧ Exact h k' after ∧
    after.maxRecord = k') ∨
    (k' = h.maxId ∧ ∃ error after, i.update (h.store k') = some (some error, after)) := by
  have length : (h.keys.take k').length = k' := List.length_take_of_le most
  have fits : (h.keys.take k').length ≤ h.maxId := by
    have := h.fits
    omega
  have keys := newKeys_ofKeys fits k
  have passed := pass_passed (h.store k') id i.keyed k indexed.locked_eq
  unfold Index.update
  rw [start]
  generalize pass (h.store k') id i.keyed k = result at passed
  cases passed with
  | repeated error after old locked =>
    rw [History.store, keys] at old
    exact absurd indexed.allNew old
  | added after new added =>
    rw [History.store, keys] at added
    have stop : k + (newKeys (h.store k') k).length = (h.keys.take k').length := by
      rw [History.store, keys, List.length_drop, length]
      omega
    have ended := @passEnd_ofKeys K Nat h.maxId (h.keys.take k')
    rw [stop, History.store, ended, length]
    by_cases less : k' < h.maxId
    · left
      rw [if_pos less]
      refine ⟨less, _, rfl, ⟨?_, added.locked_eq⟩, rfl⟩
      intro key id
      dsimp only
      rw [added.index_iff, indexed.index_iff]
      have earlier : h.keys.take k = (h.keys.take k').take k := by
        rw [List.take_take, Nat.min_eq_left more]
      rw [earlier]
      exact getElem?_take_or_drop k
    · right
      rw [if_neg less]
      exact ⟨by omega, _, _, rfl⟩

theorem serves_iff (indexed : Exact h k i) (start : i.maxRecord = k) {calls : List Nat}
    (written : ∀ k' ∈ calls, k' ≤ h.keys.length) (appended : (k :: calls).Pairwise (· ≤ ·)) :
    Serves h i calls ↔ ∀ k' ∈ calls, k' < h.maxId := by
  induction calls generalizing i k with
  | nil => exact iff_of_true trivial fun k' here => absurd here List.not_mem_nil
  | cons k' calls ih =>
    obtain ⟨later, appended⟩ := List.pairwise_cons.mp appended
    have here : k' ∈ k' :: calls := List.mem_cons_self ..
    rcases indexed.update start (later k' here) (written k' here) with
      ⟨less, after, eq, indexed, start⟩ | ⟨full, error, after, eq⟩
    · have rest := ih indexed start (fun k'' there => written k'' (List.mem_cons_of_mem _ there)) appended
      rw [List.forall_mem_cons, Serves, ← rest]
      constructor
      · rintro ⟨after', eq', _, serves⟩
        rw [eq] at eq'
        cases eq'
        exact ⟨less, serves⟩
      · rintro ⟨_, serves⟩
        exact ⟨after, eq, indexed, serves⟩
    · refine iff_of_false ?_ ?_
      · rintro ⟨after', eq', _⟩
        rw [eq] at eq'
        cases eq'
      · intro all
        exact absurd (all k' here) (by omega)

/-- The calls of every history return nil with an exact index, if and only if at each of them a
record that is not used follows the used ones; and a call that fails on any store releases the
mutex, if and only if it meets no key for the second time. -/
theorem index_update_exact :
    (∀ h : History K, Serves h newIndexer h.calls ↔ ∀ k ∈ h.calls, k < h.maxId) ∧
    ∀ (i : Index K) (store : KeyedStore K), i.keyed.locked = false →
      (i.Releases store ↔ AllNew i.keyed (newKeys store i.maxRecord)) := by
  constructor
  · intro h
    apply serves_iff exact_new rfl h.written
    exact List.pairwise_cons.mpr ⟨fun k _ => Nat.zero_le k, h.appended⟩
  · intro i store free
    exact releases_iff free store

/-- A store with room for one more record, at two calls, and one with two keys. -/
theorem index_update_exact_small :
    let h : History Nat := ⟨3, [7, 8], [1, 2], by decide, by decide, by decide, by decide⟩
    let store : KeyedStore Nat := KeyedStore.ofKeys 2 [7, 8]
    Serves h newIndexer h.calls ∧ (newIndexer : Index Nat).Releases store := by
  intro h store
  constructor
  · exact ((index_update_exact (K := Nat)).1 h).mpr (by decide)
  · apply ((index_update_exact (K := Nat)).2 newIndexer store rfl).mpr
    have keys : newKeys store 0 = [7, 8] := newKeys_ofKeys (by decide) 0
    rw [newIndexer, keys]
    exact ⟨by decide, fun _ _ => rfl⟩

/-- A full store of one record: the call returns an error. And a store with one key at two records:
the call returns with the mutex locked, so that the next look waits for ever. -/
theorem full_store_and_duplicate :
    let h : History Nat := ⟨1, [7], [1], by decide, by decide, by decide, by decide⟩
    let store : KeyedStore Nat := KeyedStore.ofKeys 3 [7, 7]
    ¬ Serves h newIndexer h.calls ∧ ¬ (newIndexer : Index Nat).Releases store := by
  intro h store
  constructor
  · intro serves
    have all := (serves_iff (h := h) exact_new rfl h.written (by decide)).mp serves
    exact absurd (all 1 (List.mem_singleton_self _)) (by decide)
  · intro releases
    have new := (releases_iff rfl store).mp releases
    have keys : newKeys store 0 = [7, 7] := newKeys_ofKeys (by decide) 0
    rw [newIndexer, keys] at new
    exact absurd new.1 (by decide)

end Index

end Lancaster
