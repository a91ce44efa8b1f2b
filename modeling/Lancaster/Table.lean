import Lancaster.Base.Assoc
import Lancaster.Storage

/-!
# The hash table

An array of chains. A key goes to the chain that its hash selects under the mask; a negative hash is
masked as the unsigned number it is converted to. Without a hash function a key is its own hash, and
without an equality function keys are equal when they are the same. Whether memory could be had is
told by flags. Over every sequence of calls the table is a finite map: what is found under a key is
the latest insertion of an equal key that no removal has followed, and an iteration that is never
stopped passes each such entry once.
-/

namespace Lancaster

/-- `struct table`; the array has a chain for each value of the mask. -/
structure Table (K V : Type) where
  array : List (List (K × V))
  mask : Nat
  /-- The conversion of a key to a long. -/
  long : K → Int
  hFn : Option (K → Int)
  eqFn : Option (K → K → Bool)
  size : array.length = mask + 1

namespace Table

variable {K V : Type}

def hashBy (long : K → Int) (hFn : Option (K → Int)) (key : K) : Int :=
  match hFn with
  | some h => h key
  | none => long key

def equalBy [DecidableEq K] (eqFn : Option (K → K → Bool)) (a b : K) : Bool :=
  match eqFn with
  | some eq => eq a b
  | none => decide (a = b)

/-- `(h_fn ? h_fn(key) : (long)key) & mask`. -/
def hash (t : Table K V) (key : K) : Nat :=
  (hashBy t.long t.hFn key % 2 ^ 64).toNat &&& t.mask

def equal [DecidableEq K] (t : Table K V) : K → K → Bool := equalBy t.eqFn

def chain (t : Table K V) (i : Nat) : List (K × V) := t.array.getD i []

def setChain (t : Table K V) (i : Nat) (c : List (K × V)) : Table K V :=
  { t with array := t.array.set i c, size := by simpa using t.size }

@[simp] theorem hash_setChain (t : Table K V) (i : Nat) (c : List (K × V)) :
    (t.setChain i c).hash = t.hash := rfl

theorem hash_le (t : Table K V) (key : K) : t.hash key ≤ t.mask := Nat.and_le_right

theorem chain_setChain (t : Table K V) {i : Nat} (hi : i ≤ t.mask) (c : List (K × V)) (j : Nat) :
    (t.setChain i c).chain j = if i = j then c else t.chain j := by
  have inside : i < t.array.length := by rw [t.size]; omega
  simp only [chain, setChain, List.getD_eq_getElem?_getD, List.getElem?_set, inside, if_true]
  split_ifs
  · rfl
  · rfl

theorem getElem_array (t : Table K V) {i : Nat} (hi : i < t.array.length) :
    t.array[i] = t.chain i := by
  simp [chain, List.getD_eq_getElem?_getD, hi]

end Table

/-- `table_create`, by whether each of its two allocations succeeds. Nothing comes back when the
second one fails: `table_destroy` then walks an array that is not there. -/
def tableCreate {K V : Type} (long : K → Int) (capacity : Nat) (hFn : Option (K → Int))
    (eqFn : Option (K → K → Bool)) (handle array : Bool) : Option (Int × Option (Table K V)) :=
  if h : capacity = 0 ∨ capacity &&& (capacity - 1) ≠ 0 then some (Status.invalidCapacity, none)
  else if handle = false then some (Status.noMemory, none)
  else if array = false then none
  else some (Status.ok, some
    { array := List.replicate capacity [], mask := capacity - 1, long := long, hFn := hFn,
      eqFn := eqFn, size := by simp; omega })

section

variable {K V : Type} [DecidableEq K]

def tableLookup (t : Table K V) (key : K) : Int × Option V :=
  match Assoc.find t.equal key (t.chain (t.hash key)) with
  | some val => (Status.true, some val)
  | none => (Status.false, none)

/-- `memory` tells whether a link of a chain could be had, if one was asked for. -/
def tableInsert (t : Table K V) (key : K) (val : V) (memory : Bool) : Int × Table K V :=
  let hash := t.hash key
  match t.chain hash with
  | [] => if memory then (Status.ok, t.setChain hash [(key, val)]) else (Status.noMemory, t)
  | e :: rest =>
    match Assoc.replace t.equal key val (e :: rest) with
    | some c => (Status.ok, t.setChain hash c)
    | none =>
      if memory then (Status.ok, t.setChain hash ((key, val) :: e :: rest))
      else (Status.noMemory, t)

/-- With the entry that the destructor is given. -/
def tableRemove (t : Table K V) (key : K) : Int × Table K V × Option (K × V) :=
  let hash := t.hash key
  match Assoc.unlink t.equal key (t.chain hash) with
  | some (e, c) => (Status.ok, t.setChain hash c, some e)
  | none => (Status.notFound, t, none)

end

section

variable {K V σ : Type}

/-- The inner loop of `table_iterate`; an error is a return from the function. -/
def iterateChain (iterFn : σ → K → V → Int × σ) :
    List (K × V) → Int × σ → Except (Int × σ) (Int × σ)
  | [], r => .ok r
  | e :: rest, r =>
    let r := iterFn r.2 e.1 e.2
    if Status.Failed r.1 ∨ r.1 = 0 then .error r else iterateChain iterFn rest r

def iterateArray (iterFn : σ → K → V → Int × σ) :
    List (List (K × V)) → Int × σ → Except (Int × σ) (Int × σ)
  | [], r => .ok r
  | c :: rest, r =>
    match iterateChain iterFn c r with
    | .error r => .error r
    | .ok r => iterateArray iterFn rest r

/-- What the function that is called does to the world outside is a state of its own. -/
def tableIterate (t : Table K V) (iterFn : σ → K → V → Int × σ) (s : σ) : Int × σ :=
  match iterateArray iterFn t.array (Status.true, s) with
  | .error r => r
  | .ok r => r

end

namespace Table

/-! ## Calls in a row -/

inductive Op (K V : Type) where
  | lookup (key : K)
  | insert (key : K) (val : V) (memory : Bool)
  | remove (key : K)

variable {K V : Type}

/-- A call that gives a key equal to `key` another value, or none. -/
def Touches (eq : K → K → Bool) (key : K) : Op K V × Int → Prop
  | (.lookup _, _) => False
  | (.insert k _ _, st) => eq k key = true ∧ st = Status.ok
  | (.remove k, _) => eq k key = true

/-- `val` went in with the latest insertion of a key equal to `key`, and has not been removed. -/
def Live (eq : K → K → Bool) (log : List (Op K V × Int)) (key : K) (val : V) : Prop :=
  ∃ before after k memory, log = before ++ (.insert k val memory, Status.ok) :: after ∧
    eq k key = true ∧ ∀ c ∈ after, ¬ Touches eq key c

theorem live_concat {eq : K → K → Bool} {log : List (Op K V × Int)} {c : Op K V × Int} {key : K}
    {val : V} :
    Live eq (log ++ [c]) key val ↔
      (∃ k memory, c = (.insert k val memory, Status.ok) ∧ eq k key = true) ∨
      (Live eq log key val ∧ ¬ Touches eq key c) := by
  constructor
  · rintro ⟨before, after, k, memory, split, same, quiet⟩
    rcases List.eq_nil_or_concat after with rfl | ⟨mid, last, rfl⟩
    · obtain ⟨-, here⟩ := List.append_inj' split rfl
      exact Or.inl ⟨k, memory, List.singleton_inj.mp here, same⟩
    · rw [List.concat_eq_append, ← List.cons_append, ← List.append_assoc] at split
      obtain ⟨front, here⟩ := List.append_inj' split rfl
      rw [List.singleton_inj.mp here]
      refine Or.inr ⟨⟨before, mid, k, memory, front, same, fun c hc => quiet c ?_⟩, quiet last ?_⟩
      · simp [hc]
      · simp
  · rintro (⟨k, memory, rfl, same⟩ | ⟨⟨before, after, k, memory, rfl, same, quiet⟩, still⟩)
    · exact ⟨log, [], k, memory, rfl, same, fun c hc => absurd hc List.not_mem_nil⟩
    · refine ⟨before, after ++ [c], k, memory, by simp, same, fun d hd => ?_⟩
      rcases List.mem_append.mp hd with hd | hd
      · exact quiet d hd
      · rw [List.mem_singleton.mp hd]
        exact still

variable [DecidableEq K]

def call (t : Table K V) : Op K V → Int × Table K V
  | .lookup key => ((tableLookup t key).1, t)
  | .insert key val memory => tableInsert t key val memory
  | .remove key => ((tableRemove t key).1, (tableRemove t key).2.1)

/-- The table after some calls, and each call with its status. -/
def calls (t : Table K V) : List (Op K V) → Table K V × List (Op K V × Int)
  | [] => (t, [])
  | op :: ops =>
    let r := t.call op
    let rest := calls r.2 ops
    (rest.1, (op, r.1) :: rest.2)

/-! ## Every key in the chain of its hash -/

@[simp] theorem equal_setChain (t : Table K V) (i : Nat) (c : List (K × V)) :
    (t.setChain i c).equal = t.equal := rfl

/-- The representation invariant: entries stand in the chains of their hashes, and no two keys of a
chain are equal. -/
structure Filed (t : Table K V) : Prop where
  placed : ∀ i, ∀ e ∈ t.chain i, t.hash e.1 = i
  distinct : ∀ i, Assoc.Distinct t.equal (t.chain i)

theorem Filed.setChain {t : Table K V} (filed : t.Filed) {i : Nat} (hi : i ≤ t.mask)
    {c : List (K × V)} (placed : ∀ e ∈ c, t.hash e.1 = i) (distinct : Assoc.Distinct t.equal c) :
    (t.setChain i c).Filed := by
  constructor
  · intro j e he
    rw [t.chain_setChain hi] at he
    split_ifs at he with here
    · rw [← here]
      exact placed e he
    · exact filed.placed j e he
  · intro j
    rw [t.chain_setChain hi, equal_setChain]
    split_ifs
    · exact distinct
    · exact filed.distinct j

def find (t : Table K V) (key : K) : Option V := Assoc.find t.equal key (t.chain (t.hash key))

theorem tableLookup_eq (t : Table K V) (key : K) :
    tableLookup t key =
      ((if (t.find key).isSome then Status.true else Status.false), t.find key) := by
  unfold tableLookup find
  cases Assoc.find t.equal key (t.chain (t.hash key)) with
  | none => rfl
  | some val => rfl

theorem tableLookup_found {t : Table K V} {key : K} {val : V} :
    tableLookup t key = (Status.true, some val) ↔ t.find key = some val := by
  rw [tableLookup_eq]
  cases t.find key with
  | none => simp
  | some v => simp

def Respected (t : Table K V) : Prop := ∀ a b, t.equal a b = true → t.hash a = t.hash b

/-- A chain that is changed at one key changes the map there and nowhere else. -/
theorem find_setChain {t : Table K V} (respected : t.Respected) {key : K} {c : List (K × V)}
    {now : Option V} (changed : ∀ other, Assoc.find t.equal other c =
      if t.equal key other then now else Assoc.find t.equal other (t.chain (t.hash key)))
    (other : K) :
    (t.setChain (t.hash key) c).find other = if t.equal key other then now else t.find other := by
  rw [find, hash_setChain, equal_setChain, t.chain_setChain (t.hash_le key)]
  by_cases same : t.hash key = t.hash other
  · rw [if_pos same, changed other, find, same]
  · have apart : ¬ t.equal key other = true := fun h => same (respected key other h)
    rw [if_neg same, if_neg apart, find]

/-- Everything `table_insert` can do. -/
theorem tableInsert_cases {t : Table K V} (filed : t.Filed) (respected : t.Respected)
    (equiv : Assoc.IsEquiv t.equal) (key : K) (val : V) (memory : Bool) :
    (tableInsert t key val memory = (Status.noMemory, t)) ∨
    ∃ c, tableInsert t key val memory = (Status.ok, t.setChain (t.hash key) c) ∧
      (t.setChain (t.hash key) c).Filed ∧
      ∀ other, (t.setChain (t.hash key) c).find other =
        if t.equal key other then some val else t.find other := by
  have fresh : ∀ {l : List (K × V)}, t.chain (t.hash key) = l → Assoc.find t.equal key l = none →
      (t.setChain (t.hash key) ((key, val) :: l)).Filed ∧
      ∀ other, (t.setChain (t.hash key) ((key, val) :: l)).find other =
        if t.equal key other then some val else t.find other := by
    rintro l rfl absent
    constructor
    · apply filed.setChain (t.hash_le key)
      · intro e he
        rcases List.mem_cons.mp he with rfl | he
        · rfl
        · exact filed.placed _ e he
      · exact Assoc.distinct_cons equiv (filed.distinct _) absent
    · exact find_setChain respected fun other => rfl
  cases links : t.chain (t.hash key) with
  | nil =>
    cases memory with
    | false => exact Or.inl (by simp [tableInsert, links])
    | true => exact Or.inr ⟨_, by simp [tableInsert, links], fresh links rfl⟩
  | cons e rest =>
    cases found : Assoc.replace t.equal key val (e :: rest) with
    | some c =>
      refine Or.inr ⟨c, by simp [tableInsert, links, found], ?_, ?_⟩
      · apply filed.setChain (t.hash_le key)
        · -- the keys are the ones that were there
          intro a ha
          have among : a.1 ∈ (e :: rest).map Prod.fst := by
            rw [← Assoc.keys_replace found]
            exact List.mem_map_of_mem ha
          obtain ⟨b, hb, same⟩ := List.mem_map.mp among
          rw [← same]
          exact filed.placed _ b (links ▸ hb)
        · exact Assoc.distinct_replace (links ▸ filed.distinct _) found
      · apply find_setChain respected
        rw [links]
        exact Assoc.find_replace equiv found
    | none =>
      cases memory with
      | false => exact Or.inl (by simp [tableInsert, links, found])
      | true =>
        exact Or.inr ⟨_, by simp [tableInsert, links, found], fresh links (Assoc.replace_eq_none.mp found)⟩

/-- Everything `table_remove` can do. -/
theorem tableRemove_cases {t : Table K V} (filed : t.Filed) (respected : t.Respected)
    (equiv : Assoc.IsEquiv t.equal) (key : K) :
    (tableRemove t key = (Status.notFound, t, none) ∧ t.find key = none) ∨
    ∃ e c, tableRemove t key = (Status.ok, t.setChain (t.hash key) c, some e) ∧
      t.find key ≠ none ∧ (t.setChain (t.hash key) c).Filed ∧
      ∀ other, (t.setChain (t.hash key) c).find other =
        if t.equal key other then none else t.find other := by
  cases found : Assoc.unlink t.equal key (t.chain (t.hash key)) with
  | none => exact Or.inl ⟨by simp [tableRemove, found], Assoc.unlink_eq_none.mp found⟩
  | some r =>
    obtain ⟨e, c⟩ := r
    have part := Assoc.sublist_unlink found
    refine Or.inr ⟨e, c, by simp [tableRemove, found], ?_, ?_, ?_⟩
    · intro absent
      rw [Assoc.unlink_eq_none.mpr absent] at found
      exact absurd found (by simp)
    · apply filed.setChain (t.hash_le key)
      · exact fun a ha => filed.placed _ a (part.subset ha)
      · exact List.Pairwise.sublist part (filed.distinct _)
    · exact find_setChain respected (Assoc.find_unlink equiv (filed.distinct _) found)

/-! ## The table stands for the calls that were made -/

/-- The table is filed, and holds what the calls of `log` left alive. -/
structure Represents (t : Table K V) (eq : K → K → Bool) (log : List (Op K V × Int)) : Prop where
  filed : t.Filed
  respected : t.Respected
  equal : t.equal = eq
  holds : ∀ key val, t.find key = some val ↔ Live eq log key val

variable {t : Table K V} {eq : K → K → Bool} {log : List (Op K V × Int)}

theorem Represents.call (equiv : Assoc.IsEquiv eq) (h : t.Represents eq log) (op : Op K V) :
    (t.call op).2.Represents eq (log ++ [(op, (t.call op).1)]) := by
  obtain ⟨filed, respected, rfl, holds⟩ := h
  cases op with
  | lookup key =>
    refine ⟨filed, respected, rfl, fun other val => ?_⟩
    rw [live_concat]
    simpa [Table.call, Touches] using holds other val
  | insert key val memory =>
    rcases tableInsert_cases filed respected equiv key val memory with
      failed | ⟨c, done, filed', changed⟩
    · simp only [Table.call, failed]
      refine ⟨filed, respected, rfl, fun other v => ?_⟩
      rw [live_concat]
      simpa [Touches, Status.ok, Status.noMemory] using holds other v
    · simp only [Table.call, done]
      refine ⟨filed', respected, rfl, fun other v => ?_⟩
      rw [live_concat, changed other]
      by_cases same : t.equal key other = true
      · simp [Touches, same]
      · simpa [Touches, same] using holds other v
  | remove key =>
    rcases tableRemove_cases filed respected equiv key with
      ⟨failed, absent⟩ | ⟨e, c, done, present, filed', changed⟩
    · simp only [Table.call, failed]
      refine ⟨filed, respected, rfl, fun other v => ?_⟩
      rw [live_concat]
      by_cases same : t.equal key other = true
      · -- nothing was there under an equal key either
        have gone : t.find other = none := by
          rw [find, ← respected key other same]
          apply Assoc.find_eq_none.mpr
          intro e he
          rw [equiv.comm, ← equiv.congr e.1 same, equiv.comm]
          exact Assoc.find_eq_none.mp absent e he
        simp [Touches, same, gone]
      · simpa [Touches, same] using holds other v
    · simp only [Table.call, done]
      refine ⟨filed', respected, rfl, fun other v => ?_⟩
      rw [live_concat, changed other]
      by_cases same : t.equal key other = true
      · simp [Touches, same]
      · simpa [Touches, same] using holds other v

theorem Represents.calls (equiv : Assoc.IsEquiv eq) (h : t.Represents eq log)
    (ops : List (Op K V)) :
    (t.calls ops).1.Represents eq (log ++ (t.calls ops).2) := by
  induction ops generalizing t log with
  | nil => simpa [Table.calls] using h
  | cons op ops ih =>
    have next := ih (h.call equiv op)
    rw [List.append_assoc] at next
    exact next

/-- The entries in the order in which `table_iterate` comes by them. -/
def entries (t : Table K V) : List (K × V) := t.array.flatten

theorem mem_entries {e : K × V} (filed : t.Filed) : e ∈ t.entries ↔ e ∈ t.chain (t.hash e.1) := by
  rw [entries, List.mem_flatten]
  constructor
  · rintro ⟨c, among, here⟩
    obtain ⟨i, hi, rfl⟩ := List.mem_iff_getElem.mp among
    rw [t.getElem_array hi] at here
    rwa [filed.placed i e here]
  · intro here
    have inside : t.hash e.1 < t.array.length := by
      rw [t.size]
      exact Nat.lt_succ_of_le (t.hash_le e.1)
    rw [← t.getElem_array inside] at here
    exact ⟨_, List.getElem_mem inside, here⟩

theorem distinct_entries (filed : t.Filed) (respected : t.Respected) :
    Assoc.Distinct t.equal t.entries := by
  refine List.pairwise_flatten.mpr ⟨fun c hc => ?_, List.pairwise_iff_getElem.mpr ?_⟩
  · obtain ⟨i, hi, rfl⟩ := List.mem_iff_getElem.mp hc
    rw [t.getElem_array hi]
    exact filed.distinct i
  · -- keys of different chains have different hashes
    intro i j hi hj apart a ha b hb
    rw [t.getElem_array hi] at ha
    rw [t.getElem_array hj] at hb
    have first := filed.placed i a ha
    have second := filed.placed j b hb
    by_contra same
    have := respected a.1 b.1 (by simpa using same)
    omega

theorem find_eq_some (filed : t.Filed) (respected : t.Respected) (equiv : Assoc.IsEquiv t.equal)
    {key : K} {val : V} :
    t.find key = some val ↔ ∃ k, (k, val) ∈ t.entries ∧ t.equal k key = true := by
  rw [find, Assoc.find_eq_some equiv (filed.distinct _)]
  constructor
  · rintro ⟨k, among, same⟩
    refine ⟨k, (mem_entries filed).mpr ?_, same⟩
    rwa [respected k key same]
  · rintro ⟨k, among, same⟩
    have here := (mem_entries filed).mp among
    rw [respected k key same] at here
    exact ⟨k, here, same⟩

/-! ## An iteration that is not stopped -/

variable {σ : Type} {iterFn : σ → K → V → Int × σ}

omit [DecidableEq K] in
theorem iterateChain_continues (continues : ∀ s k v, 0 < (iterFn s k v).1) (c : List (K × V))
    (r : Int × σ) :
    ∃ st, iterateChain iterFn c r = .ok (st, c.foldl (fun s e => (iterFn s e.1 e.2).2) r.2) := by
  induction c generalizing r with
  | nil => exact ⟨r.1, rfl⟩
  | cons e rest ih =>
    have onward : ¬ (Status.Failed (iterFn r.2 e.1 e.2).1 ∨ (iterFn r.2 e.1 e.2).1 = 0) := by
      have := continues r.2 e.1 e.2
      unfold Status.Failed
      omega
    simp only [iterateChain, onward, if_false, List.foldl_cons]
    exact ih _

omit [DecidableEq K] in
theorem iterateArray_continues (continues : ∀ s k v, 0 < (iterFn s k v).1)
    (a : List (List (K × V))) (r : Int × σ) :
    ∃ st, iterateArray iterFn a r =
      .ok (st, a.flatten.foldl (fun s e => (iterFn s e.1 e.2).2) r.2) := by
  induction a generalizing r with
  | nil => exact ⟨r.1, rfl⟩
  | cons c rest ih =>
    obtain ⟨st, walked⟩ := iterateChain_continues continues c r
    simp only [iterateArray, walked, List.flatten_cons, List.foldl_append]
    exact ih _

omit [DecidableEq K] in
theorem tableIterate_continues (continues : ∀ s k v, 0 < (iterFn s k v).1) (t : Table K V) (s : σ) :
    (tableIterate t iterFn s).2 = t.entries.foldl (fun s e => (iterFn s e.1 e.2).2) s := by
  obtain ⟨st, walked⟩ := iterateArray_continues continues t.array (Status.true, s)
  simp [tableIterate, walked, entries]

/-! ## A table that was created -/

/-- Every power of two is a capacity. -/
theorem and_pred_two_pow (k : Nat) : 2 ^ k &&& (2 ^ k - 1) = 0 := by
  rw [Nat.and_two_pow_sub_one_eq_mod, Nat.mod_self]

theorem represents_empty {t : Table K V} (empty : ∀ i, t.chain i = []) (respected : t.Respected) :
    t.Represents t.equal [] := by
  refine ⟨⟨fun i e he => ?_, fun i => ?_⟩, respected, rfl, fun key val => ?_⟩
  · rw [empty i] at he
    exact absurd he List.not_mem_nil
  · rw [empty i]
    exact List.Pairwise.nil
  · constructor
    · intro found
      rw [find, empty] at found
      exact absurd found (by simp [Assoc.find])
    · rintro ⟨before, after, k, memory, split, -⟩
      exact absurd split (by simp)

variable (long : K → Int) (hFn : Option (K → Int)) (eqFn : Option (K → K → Bool))

theorem represents_create {capacity : Nat} {handle array : Bool} {st : Int} {t : Table K V}
    (created : tableCreate long capacity hFn eqFn handle array = some (st, some t))
    (respected : ∀ a b, equalBy eqFn a b = true → hashBy long hFn a = hashBy long hFn b) :
    t.Represents (equalBy eqFn) [] := by
  unfold tableCreate at created
  split_ifs at created
  · simp at created
  · simp at created
  · obtain ⟨-, made⟩ := Prod.mk.inj (Option.some.inj created)
    obtain rfl := Option.some.inj made
    apply represents_empty
    · intro i
      simp only [chain, List.getD_eq_getElem?_getD, List.getElem?_replicate]
      split_ifs
      · rfl
      · rfl
    · intro a b same
      simp only [hash, respected a b same]

omit [DecidableEq K] in
theorem tableCreate_pow (k : Nat) : ∃ t : Table K V,
    tableCreate long (2 ^ k) hFn eqFn true true = some (Status.ok, some t) := by
  have fine : ¬ (2 ^ k = 0 ∨ 2 ^ k &&& (2 ^ k - 1) ≠ 0) := by
    rw [and_pred_two_pow]
    simp
  exact ⟨_, by rw [tableCreate, dif_neg fine]; rfl⟩

/-- The hash table is a finite map: over every sequence of calls on a table of any capacity that is
a power of two, a lookup and a removal answer for the latest insertion of an equal key that has not
been removed, and an iteration that always goes on passes each entry that is alive once. -/
theorem table_is_map (k : Nat) (equiv : Assoc.IsEquiv (equalBy eqFn))
    (respected : ∀ a b, equalBy eqFn a b = true → hashBy long hFn a = hashBy long hFn b) :
    ∃ new : Table K V, tableCreate long (2 ^ k) hFn eqFn true true = some (Status.ok, some new) ∧
      ∀ ops : List (Op K V), ∀ t log, new.calls ops = (t, log) →
        (∀ key val, tableLookup t key = (Status.true, some val) ↔
          Live (equalBy eqFn) log key val) ∧
        (∀ key, tableLookup t key = (Status.false, none) ↔
          ∀ val, ¬ Live (equalBy eqFn) log key val) ∧
        (∀ key, (tableRemove t key).1 = Status.ok ↔
          ∃ val, Live (equalBy eqFn) log key val) ∧
        (∀ key, (tableRemove t key).1 = Status.notFound ↔
          ∀ val, ¬ Live (equalBy eqFn) log key val) ∧
        ∃ visited : List (K × V),
          visited.Pairwise (fun a b => equalBy eqFn a.1 b.1 = false) ∧
          (∀ key val, (∃ k', (k', val) ∈ visited ∧ equalBy eqFn k' key = true) ↔
            Live (equalBy eqFn) log key val) ∧
          ∀ (σ : Type) (iterFn : σ → K → V → Int × σ) (s : σ),
            (∀ s k v, 0 < (iterFn s k v).1) →
            (tableIterate t iterFn s).2 = visited.foldl (fun s e => (iterFn s e.1 e.2).2) s := by
  obtain ⟨new, created⟩ := tableCreate_pow (V := V) long hFn eqFn k
  refine ⟨new, created, fun ops t log made => ?_⟩
  have after := (represents_create long hFn eqFn created respected).calls equiv ops
  rw [made, List.nil_append] at after
  obtain ⟨filed, kept, same, holds⟩ := after
  rw [← same] at equiv holds ⊢
  have gone : ∀ key, t.find key = none ↔ ∀ val, ¬ Live t.equal log key val := by
    intro key
    rw [Option.eq_none_iff_forall_ne_some]
    exact forall_congr' fun val => not_congr (holds key val)
  have there : ∀ key, t.find key ≠ none ↔ ∃ val, Live t.equal log key val := by
    intro key
    rw [← not_iff_not, not_not, gone key, not_exists]
  refine ⟨fun key val => ?_, fun key => ?_, fun key => ?_, fun key => ?_, t.entries,
    distinct_entries filed kept, fun key val => ?_, fun σ iterFn s continues =>
    tableIterate_continues continues t s⟩
  · rw [← holds key val, tableLookup_found]
  · rw [← gone key, tableLookup_eq]
    cases t.find key with
    | none => simp
    | some v => simp [Status.true, Status.false]
  · rw [← there key]
    rcases tableRemove_cases filed kept equiv key with ⟨failed, absent⟩ | ⟨e, c, done, present, -⟩
    · simp [failed, absent, Status.notFound, Status.ok]
    · simp [done, present]
  · rw [← gone key]
    rcases tableRemove_cases filed kept equiv key with ⟨failed, absent⟩ | ⟨e, c, done, present, -⟩
    · simp [failed, absent]
    · simp [done, present, Status.notFound, Status.ok]
  · rw [← holds key val, find_eq_some filed kept equiv]

/-- Numbers that are equal modulo four, in two chains: the second insertion replaces the first, and
the third one is in another class. -/
theorem table_is_map_small :
    ∃ t : Table Nat Nat,
      tableCreate (fun a : Nat => (a : Int)) (2 ^ 1) (some fun a => -((a % 4 : Nat) : Int))
        (some fun a b => decide (a % 4 = b % 4)) true true = some (Status.ok, some t) ∧
      tableLookup (t.calls [.insert 1 10 true, .insert 5 20 true, .insert 3 30 true,
        .remove 7]).1 9 =
        (Status.true, some 20) := by
  have equiv : Assoc.IsEquiv (equalBy (some fun a b : Nat => decide (a % 4 = b % 4))) := by
    refine ⟨fun a => ?_, fun {a b} h => ?_, fun {a b c} h h' => ?_⟩
    · simp [equalBy]
    · simp only [equalBy, decide_eq_true_eq] at h ⊢
      exact h.symm
    · simp only [equalBy, decide_eq_true_eq] at h h' ⊢
      exact h.trans h'
  obtain ⟨t, created, map⟩ := table_is_map (V := Nat) (fun a : Nat => (a : Int))
    (some fun a => -((a % 4 : Nat) : Int)) (some fun a b => decide (a % 4 = b % 4)) 1 equiv
    (fun a b same => by
      simp only [equalBy, decide_eq_true_eq] at same
      simp only [hashBy, same])
  obtain ⟨-, found⟩ := Prod.mk.inj (Option.some.inj created)
  obtain rfl := Option.some.inj found
  refine ⟨_, created, ((map _ _ _ rfl).1 9 20).mpr ?_⟩
  refine ⟨[(.insert 1 10 true, 0)], [(.insert 3 30 true, 0), (.remove 7, 0)], 5, true, rfl, rfl, ?_⟩
  simp [Touches, equalBy]

end Table

end Lancaster
