import Lancaster.Index

/-!
# The index of several stores

`Update` of a `MultiStoreIndex` goes through its stores one by one, each from where it was left.
How far a store has been read is kept in a copy of its entry, which is gone when the helper
returns.
-/

namespace Lancaster

variable {K : Type} [DecidableEq K]

/-- A store, by its number, and where to go on in it. -/
structure IndexedStore where
  store : Nat
  maxID : Nat

/-- The index, with the location of a key as the number of its store and its id there. -/
structure MultiStoreIndex (K : Type) where
  keyed : Keyed K (Nat × Nat)
  stores : List IndexedStore

namespace MultiStoreIndex

def newMultiStoreIndexer (stores : List Nat) : MultiStoreIndex K :=
  ⟨Keyed.empty, stores.map fun s => ⟨s, 0⟩⟩

/-- The error, the map, and the entry as the helper leaves its own copy of it. -/
def updateStore (content : Nat → KeyedStore K) (keyed : Keyed K (Nat × Nat)) (s : IndexedStore) :
    Option (Option (UpdateError K (Nat × Nat)) × Keyed K (Nat × Nat) × IndexedStore) :=
  (pass (content s.store) (fun id => (s.store, id)) keyed s.maxID).map fun
    | (.error error, keyed) => (some error, keyed, s)
    | (.ok currID, keyed) => (none, keyed, { s with maxID := currID })

/-- The loop over the stores. Each entry is passed by value. -/
def updateStores (content : Nat → KeyedStore K) (keyed : Keyed K (Nat × Nat)) :
    List IndexedStore → Option (Option (UpdateError K (Nat × Nat)) × Keyed K (Nat × Nat))
  | [] => some (none, keyed)
  | s :: stores =>
    match updateStore content keyed s with
    | none => none
    | some (some error, keyed, _) => some (some error, keyed)
    | some (none, keyed, _) => updateStores content keyed stores

def update (i : MultiStoreIndex K) (content : Nat → KeyedStore K) :
    Option (Option (UpdateError K (Nat × Nat)) × MultiStoreIndex K) :=
  (updateStores content i.keyed i.stores).map fun (error, keyed) => (error, { i with keyed := keyed })

/-- Stores to which records are appended between calls: the keys in each store at each call. A
record that is not used follows in every store, and all keys are different. -/
structure Histories (K : Type) where
  stores : List Nat
  maxId : Nat → Nat
  calls : List (Nat → List K)
  room : ∀ used ∈ calls, ∀ s ∈ stores, (used s).length < maxId s
  distinct : ∀ used ∈ calls, (stores.flatMap used).Nodup
  appended : calls.Pairwise fun used later => ∀ s ∈ stores, used s <+: later s

def Histories.content (h : Histories K) (used : Nat → List K) (s : Nat) : KeyedStore K :=
  KeyedStore.ofKeys (h.maxId s) (used s)

/-- The index maps the keys of the used records to their locations, and nothing else. -/
structure Exact (h : Histories K) (used : Nat → List K) (i : MultiStoreIndex K) : Prop where
  index_iff : ∀ key s id, i.keyed.index key = some (s, id) ↔ s ∈ h.stores ∧ (used s)[id]? = some key
  locked_eq : i.keyed.locked = false

/-- Each call returns nil, with an exact index. -/
def Serves (h : Histories K) : MultiStoreIndex K → List (Nat → List K) → Prop
  | _, [] => True
  | i, used :: calls =>
    ∃ after, i.update (h.content used) = some (none, after) ∧ Exact h used after ∧
      Serves h after calls

/-! ## One call -/

section Call

variable {content : Nat → KeyedStore K} {keyed after : Keyed K (Nat × Nat)} {s : IndexedStore}
  {stores : List IndexedStore}

/-- A store that is passed without an error had new keys only, and they have been added. -/
theorem updateStores_cons_ok (free : keyed.locked = false)
    (ok : updateStores content keyed (s :: stores) = some (none, after)) :
    AllNew keyed (newKeys (content s.store) s.maxID) ∧
      ∃ next, Added keyed (fun id => (s.store, id)) s.maxID (newKeys (content s.store) s.maxID) next ∧
        updateStores content next stores = some (none, after) := by
  have passed := pass_passed (content s.store) (fun id => (s.store, id)) keyed s.maxID free
  rw [updateStores, updateStore] at ok
  generalize pass (content s.store) (fun id => (s.store, id)) keyed s.maxID = result at passed ok
  cases passed with
  | repeated error next old locked => cases ok
  | added next new added =>
    refine ⟨new, next, added, ?_⟩
    generalize passEnd (content s.store) (s.maxID + (newKeys (content s.store) s.maxID).length) =
      ended at ok
    cases ended with
    | error error => cases ok
    | ok currID => exact ok

/-- A call without an error has read no key that was in the map before. -/
theorem updateStores_ok_new (free : keyed.locked = false)
    (ok : updateStores content keyed stores = some (none, after)) :
    ∀ s ∈ stores, ∀ key ∈ newKeys (content s.store) s.maxID, keyed.index key = none := by
  induction stores generalizing keyed with
  | nil => exact fun s here => absurd here List.not_mem_nil
  | cons s stores ih =>
    obtain ⟨new, next, added, rest⟩ := updateStores_cons_ok free ok
    intro s' here key there
    rcases List.mem_cons.mp here with rfl | here
    · exact new.2 key there
    · have absent := ih added.locked_eq rest s' here key there
      cases found : keyed.index key with
      | none => rfl
      | some val =>
        rw [(added.index_iff key val).mpr (Or.inl found)] at absent
        cases absent

variable {maxId : Nat → Nat} {used : Nat → List K}

/-- A call from the beginning of all stores, with new keys only, adds all of them. -/
theorem updateStores_new (stores : List Nat) (free : keyed.locked = false)
    (room : ∀ s ∈ stores, (used s).length < maxId s) (new : AllNew keyed (stores.flatMap used)) :
    ∃ after, updateStores (fun s => KeyedStore.ofKeys (maxId s) (used s)) keyed (stores.map fun s => ⟨s, 0⟩) =
        some (none, after) ∧ after.locked = false ∧
      ∀ key s id, after.index key = some (s, id) ↔
        keyed.index key = some (s, id) ∨ s ∈ stores ∧ (used s)[id]? = some key := by
  induction stores generalizing keyed with
  | nil =>
    refine ⟨keyed, rfl, free, ?_⟩
    intro key s id
    simp
  | cons s stores ih =>
    have fits : (used s).length < maxId s := room s (List.mem_cons_self ..)
    have keys : newKeys (KeyedStore.ofKeys (maxId s) (used s)) 0 = used s :=
      newKeys_ofKeys (by omega) 0
    have ended := @passEnd_ofKeys K (Nat × Nat) (maxId s) (used s)
    rw [if_pos fits] at ended
    rw [List.flatMap_cons] at new
    have passed := pass_passed (KeyedStore.ofKeys (maxId s) (used s)) (fun id => (s, id)) keyed 0 free
    rw [List.map_cons, updateStores, updateStore]
    dsimp only
    generalize pass (KeyedStore.ofKeys (maxId s) (used s)) (fun id => (s, id)) keyed 0 = result at passed
    cases passed with
    | repeated error next old locked =>
      rw [keys] at old
      exact absurd new.append_left old
    | added next _ added =>
      rw [keys] at added
      rw [keys, Nat.zero_add, ended]
      obtain ⟨after, eq, free, index_iff⟩ := ih added.locked_eq
        (fun s' here => room s' (List.mem_cons_of_mem _ here)) (added.allNew new)
      refine ⟨after, eq, free, ?_⟩
      intro key s' id
      rw [index_iff, added.index_iff, List.mem_cons]
      constructor
      · rintro ((before | ⟨i, here, val⟩) | ⟨here, there⟩)
        · exact Or.inl before
        · cases val
          rw [Nat.zero_add]
          exact Or.inr ⟨Or.inl rfl, here⟩
        · exact Or.inr ⟨Or.inr here, there⟩
      · rintro (before | ⟨rfl | here, there⟩)
        · exact Or.inl (Or.inl before)
        · exact Or.inl (Or.inr ⟨id, there, by rw [Nat.zero_add]⟩)
        · exact Or.inr ⟨here, there⟩

end Call

/-! ## Every sequence of calls -/

variable {h : Histories K} {i : MultiStoreIndex K} {used : Nat → List K}
    {calls : List (Nat → List K)}

structure Fresh (h : Histories K) (i : MultiStoreIndex K) : Prop where
  index_eq : ∀ key, i.keyed.index key = none
  locked_eq : i.keyed.locked = false
  stores_eq : i.stores = h.stores.map fun s => ⟨s, 0⟩

def Unused (h : Histories K) (used : Nat → List K) : Prop := ∀ s ∈ h.stores, used s = []

theorem Fresh.update (fresh : Fresh h i) (here : used ∈ h.calls) :
    ∃ after, i.update (h.content used) = some (none, after) ∧ Exact h used after ∧
      after.stores = i.stores := by
  have new : AllNew i.keyed (h.stores.flatMap used) :=
    ⟨h.distinct used here, fun key _ => fresh.index_eq key⟩
  obtain ⟨after, eq, free, index_iff⟩ :=
    updateStores_new h.stores fresh.locked_eq (h.room used here) new
  unfold MultiStoreIndex.update Histories.content
  rw [fresh.stores_eq, eq]
  refine ⟨_, rfl, ⟨?_, free⟩, rfl⟩
  intro key s id
  dsimp only
  rw [index_iff, fresh.index_eq]
  exact or_iff_right nofun

omit [DecidableEq K] in
theorem Exact.fresh (indexed : Exact h used i) (unused : Unused h used)
    (stores_eq : i.stores = h.stores.map fun s => ⟨s, 0⟩) : Fresh h i := by
  refine ⟨?_, indexed.locked_eq, stores_eq⟩
  intro key
  cases found : i.keyed.index key with
  | none => rfl
  | some val =>
    obtain ⟨here, there⟩ := (indexed.index_iff key val.1 val.2).mp found
    rw [unused val.1 here] at there
    simp at there

/-- After a call with a used record the next one reads its key again. -/
theorem Exact.again (isIndexed : Exact h used i)
    (stores_eq : i.stores = h.stores.map fun s => ⟨s, 0⟩)
    (inUse : ¬ Unused h used) {later : Nat → List K} (here : later ∈ h.calls)
    (appended : ∀ s ∈ h.stores, used s <+: later s) {after : MultiStoreIndex K} :
    i.update (h.content later) ≠ some (none, after) := by
  intro eq
  unfold MultiStoreIndex.update at eq
  obtain ⟨⟨error, keyed⟩, ok, mapped⟩ := Option.map_eq_some_iff.mp eq
  cases mapped
  have new := updateStores_ok_new isIndexed.locked_eq ok
  apply inUse
  intro s store
  cases keys : used s with
  | nil => rfl
  | cons key rest =>
    exfalso
    have indexed : i.keyed.index key = some (s, 0) := by
      rw [isIndexed.index_iff, keys]
      exact ⟨store, rfl⟩
    have entry : ⟨s, 0⟩ ∈ i.stores := by
      rw [stores_eq]
      exact List.mem_map_of_mem store
    have read : key ∈ newKeys (h.content later s) 0 := by
      rw [Histories.content, newKeys_ofKeys (Nat.le_of_lt (h.room later here s store)),
        List.drop_zero]
      apply (appended s store).subset
      rw [keys]
      exact List.mem_cons_self ..
    have absent := new ⟨s, 0⟩ entry key read
    rw [indexed] at absent
    cases absent

theorem Fresh.serves_iff (fresh : Fresh h i) (within : ∀ used ∈ calls, used ∈ h.calls)
    (appended : calls.Pairwise fun used later => ∀ s ∈ h.stores, used s <+: later s) :
    Serves h i calls ↔ ∀ used ∈ calls.dropLast, Unused h used := by
  induction calls generalizing i with
  | nil => exact iff_of_true trivial fun used here => absurd here List.not_mem_nil
  | cons used calls ih =>
    obtain ⟨after, eq, indexed, stores_eq⟩ := fresh.update (within used (List.mem_cons_self ..))
    have initial := stores_eq.trans fresh.stores_eq
    cases calls with
    | nil => exact iff_of_true ⟨after, eq, indexed, trivial⟩ fun used here => absurd here List.not_mem_nil
    | cons later calls =>
      obtain ⟨longer, appended⟩ := List.pairwise_cons.mp appended
      have tail : ∀ used ∈ later :: calls, used ∈ h.calls := fun used' here =>
        within used' (List.mem_cons_of_mem _ here)
      rw [List.dropLast_cons_cons, List.forall_mem_cons]
      by_cases unused : Unused h used
      · rw [← ih (indexed.fresh unused initial) tail appended]
        constructor
        · rintro ⟨after', eq', _, serves⟩
          rw [eq] at eq'
          cases eq'
          exact ⟨unused, serves⟩
        · rintro ⟨_, serves⟩
          exact ⟨after, eq, indexed, serves⟩
      · refine iff_of_false ?_ fun all => unused all.1
        rintro ⟨after', eq', _, after'', again, _⟩
        rw [eq] at eq'
        cases eq'
        exact indexed.again initial unused (tail later (List.mem_cons_self ..))
          (longer later (List.mem_cons_self ..)) again

/-- The calls of every history return nil with an exact index, if and only if no store has a used
record at a call before the last. -/
theorem multi_store_update (h : Histories K) :
    Serves h (newMultiStoreIndexer h.stores) h.calls ↔ ∀ used ∈ h.calls.dropLast, Unused h used :=
  Fresh.serves_iff ⟨fun _ => rfl, rfl, rfl⟩ (fun _ here => here) h.appended

/-- Two stores without a used record at the first two calls, and with three at the last. -/
def lateStores : Histories Nat where
  stores := [0, 1]
  maxId := fun _ => 3
  calls := [fun _ => [], fun _ => [], fun s => if s = 0 then [7, 8] else [9]]
  room := by decide
  distinct := by decide
  appended := by simp

theorem multi_store_update_small :
    Serves lateStores (newMultiStoreIndexer lateStores.stores) lateStores.calls := by
  refine (multi_store_update lateStores).mpr fun used here => ?_
  have nothing : used = fun _ => [] := by simpa [lateStores] using here
  intro s _
  rw [nothing]

/-- One store with one used record: the second call finds its key in the index. -/
theorem second_update_fails :
    let h : Histories Nat := ⟨[0], fun _ => 2, [fun _ => [7], fun _ => [7]], by decide, by decide, by simp⟩
    ¬ Serves h (newMultiStoreIndexer h.stores) h.calls := by
  intro h serves
  have fresh : Fresh h (newMultiStoreIndexer h.stores) := ⟨fun _ => rfl, rfl, rfl⟩
  have unused := (fresh.serves_iff (fun _ here => here) h.appended).mp serves
  have empty : [7] = ([] : List Nat) := unused _ (List.mem_singleton_self _) 0 (List.mem_singleton_self _)
  cases empty

end MultiStoreIndex

end Lancaster
