import Lancaster.Table

/-!
# The dictionary of symbols and identifiers

Two hash tables, one each way. An association goes into both, and neither table gives up what it
held before: a symbol that gets a new identifier is still what the old identifier stands for, and an
identifier that gets a new symbol is still what the old symbol stands for. The two tables are each
other's inverse exactly when whatever loses one half of an association also loses the other.
-/

namespace Lancaster

/-- A C string, without its final zero. -/
abbrev Symbol := { s : List UInt8 // (0 : UInt8) ∉ s }

structure Dict where
  s2id : Table Symbol Int
  id2s : Table Int Symbol

/-- The hash is an int of 32 bits that wraps around, and a char is signed. -/
def s2idHashFn (key : Symbol) : Int :=
  let step (h : BitVec 32) (c : UInt8) : BitVec 32 := ((h <<< 5) + h) ^^^ c.toBitVec.signExtend 32
  (key.1.foldl step 5381).toInt

def s2idEqFn (key1 key2 : Symbol) : Bool := decide (key1 = key2)

/-- `dict_create`, by whether the allocations succeed: of the dictionary, and of each table and its
array. The hash of a symbol never converts its address, and an identifier converts to itself. -/
def dictCreate (capacity : Nat) (handle s2id s2idArray id2s id2sArray : Bool) :
    Option (Int × Option Dict) :=
  if handle = false then some (Status.noMemory, none)
  else
    match tableCreate (fun _ => 0) capacity (some s2idHashFn) (some s2idEqFn) s2id s2idArray with
    | none => none
    | some (st, none) => some (st, none)
    | some (_, some s2id) =>
      match tableCreate id capacity none none id2s id2sArray with
      | none => none
      | some (st, none) => some (st, none)
      | some (_, some id2s) => some (Status.ok, some ⟨s2id, id2s⟩)

/-- The arguments of `dict_assoc`, and whether its allocations succeed: of the copy of the symbol,
and of a link in each table, if one is asked for. -/
structure Association where
  symbol : Symbol
  id : Int
  copy : Bool
  s2idLink : Bool
  id2sLink : Bool

def dictAssoc (d : Dict) (a : Association) : Int × Dict :=
  if a.copy = false then (Status.noMemory, d)
  else
    let s2id := tableInsert d.s2id a.symbol a.id a.s2idLink
    if Status.Failed s2id.1 then (s2id.1, { d with s2id := s2id.2 })
    else
      let id2s := tableInsert d.id2s a.id a.symbol a.id2sLink
      (id2s.1, ⟨s2id.2, id2s.2⟩)

def dictGetId (d : Dict) (symbol : Symbol) : Int × Option Int := tableLookup d.s2id symbol

def dictGetSymbol (d : Dict) (id : Int) : Int × Option Symbol := tableLookup d.id2s id

/-- The dictionary after calls that have all succeeded. -/
def dictAssocs (d : Dict) : List Association → Option Dict
  | [] => some d
  | a :: rest => if (dictAssoc d a).1 = Status.ok then dictAssocs (dictAssoc d a).2 rest else none

namespace Dict

open Table

def symbolCalls (calls : List Association) : List (Op Symbol Int × Int) :=
  calls.map fun a => (.insert a.symbol a.id a.s2idLink, Status.ok)

def idCalls (calls : List Association) : List (Op Int Symbol × Int) :=
  calls.map fun a => (.insert a.id a.symbol a.id2sLink, Status.ok)

theorem equiv_same {K : Type} [DecidableEq K] : Assoc.IsEquiv fun a b : K => decide (a = b) := by
  refine ⟨fun a => by simp, fun {a b} h => ?_, fun {a b c} h h' => ?_⟩
  · rw [decide_eq_true_eq] at h ⊢
    exact h.symm
  · rw [decide_eq_true_eq] at h h' ⊢
    exact h.trans h'

structure Holds (d : Dict) (calls : List Association) : Prop where
  s2id : d.s2id.Represents (fun a b => decide (a = b)) (symbolCalls calls)
  id2s : d.id2s.Represents (fun a b => decide (a = b)) (idCalls calls)

theorem Holds.create {capacity : Nat} {m₁ m₂ m₃ m₄ m₅ : Bool} {d : Dict}
    (created : dictCreate capacity m₁ m₂ m₃ m₄ m₅ = some (Status.ok, some d)) : d.Holds [] := by
  unfold dictCreate at created
  split at created
  · simp at created
  · split at created
    · simp at created
    · simp at created
    · rename_i st s2id first
      split at created
      · simp at created
      · simp at created
      · rename_i st' id2s second
        obtain ⟨-, made⟩ := Prod.mk.inj (Option.some.inj created)
        obtain rfl := Option.some.inj made
        constructor
        · apply represents_create _ _ _ first
          intro a b same
          rw [show a = b from of_decide_eq_true same]
        · apply represents_create _ _ _ second
          intro a b same
          rw [show a = b from of_decide_eq_true same]

theorem Holds.assoc {d : Dict} {calls : List Association} (h : d.Holds calls) {a : Association}
    (ok : (dictAssoc d a).1 = Status.ok) : (dictAssoc d a).2.Holds (calls ++ [a]) := by
  have first := h.s2id.call equiv_same (.insert a.symbol a.id a.s2idLink)
  have second := h.id2s.call equiv_same (.insert a.id a.symbol a.id2sLink)
  simp only [Table.call] at first second
  unfold dictAssoc at ok ⊢
  by_cases copied : a.copy = false
  · simp [copied, Status.ok, Status.noMemory] at ok
  · by_cases failed : Status.Failed (tableInsert d.s2id a.symbol a.id a.s2idLink).1
    · rw [if_neg copied, if_pos failed] at ok
      exact absurd ok (ne_of_lt failed)
    · rw [if_neg copied, if_neg failed] at ok ⊢
      have done : (tableInsert d.s2id a.symbol a.id a.s2idLink).1 = Status.ok := by
        rcases tableInsert_cases h.s2id.filed h.s2id.respected
          (h.s2id.equal ▸ equiv_same) a.symbol a.id a.s2idLink with short | ⟨c, made, -⟩
        · rw [short] at failed
          exact absurd (by decide : Status.Failed Status.noMemory) failed
        · rw [made]
      rw [done] at first
      rw [ok] at second
      exact ⟨by simpa [symbolCalls] using first, by simpa [idCalls] using second⟩

theorem Holds.assocs {d d' : Dict} {before calls : List Association} (h : d.Holds before)
    (made : dictAssocs d calls = some d') : d'.Holds (before ++ calls) := by
  induction calls generalizing d before with
  | nil =>
    obtain rfl := Option.some.inj made
    simpa using h
  | cons a rest ih =>
    rw [dictAssocs] at made
    split_ifs at made with ok
    simpa using ih (h.assoc ok) made

/-! ## The last word on a symbol and on an identifier -/

/-- In a log of insertions, what is alive is what went in last. -/
theorem live_inserts {C K V : Type} [DecidableEq K] {key : C → K} {val : C → V} {memory : C → Bool}
    {calls : List C} {k : K} {v : V} :
    Live (fun a b => decide (a = b))
        (calls.map fun c => (Op.insert (key c) (val c) (memory c), Status.ok)) k v ↔
      ∃ before c after, calls = before ++ c :: after ∧ key c = k ∧ val c = v ∧
        ∀ d ∈ after, key d ≠ k := by
  constructor
  · rintro ⟨before, after, k', m, split, same, quiet⟩
    obtain ⟨pre, rest, rfl, -, split⟩ := List.map_eq_append_iff.mp split
    obtain ⟨c, post, rfl, here, rfl⟩ := List.map_eq_cons_iff.mp split
    simp only [Prod.mk.injEq, Op.insert.injEq, and_true] at here
    obtain ⟨rfl, rfl, -⟩ := here
    refine ⟨pre, c, post, rfl, of_decide_eq_true same, rfl, fun d hd equal => ?_⟩
    exact quiet _ (List.mem_map_of_mem hd) ⟨decide_eq_true equal, rfl⟩
  · rintro ⟨before, c, after, rfl, rfl, rfl, quiet⟩
    refine ⟨_, _, key c, memory c, by rw [List.map_append, List.map_cons], by simp, ?_⟩
    intro d hd
    obtain ⟨b, hb, rfl⟩ := List.mem_map.mp hd
    simpa [Touches] using quiet b hb

theorem getId_eq {d : Dict} {calls : List Association} (h : d.Holds calls) {s : Symbol} {i : Int} :
    dictGetId d s = (Status.true, some i) ↔
      ∃ before a after, calls = before ++ a :: after ∧ a.symbol = s ∧ a.id = i ∧
        ∀ b ∈ after, b.symbol ≠ s := by
  rw [dictGetId, tableLookup_found, h.s2id.holds]
  exact live_inserts

theorem getSymbol_eq {d : Dict} {calls : List Association} (h : d.Holds calls) {s : Symbol}
    {i : Int} :
    dictGetSymbol d i = (Status.true, some s) ↔
      ∃ before a after, calls = before ++ a :: after ∧ a.id = i ∧ a.symbol = s ∧
        ∀ b ∈ after, b.id ≠ i := by
  rw [dictGetSymbol, tableLookup_found, h.id2s.holds]
  exact live_inserts

/-- The last call that meets a condition which some call meets. -/
theorem exists_last {C : Type} {P : C → Prop} {l : List C} (present : ∃ c ∈ l, P c) :
    ∃ before c after, l = before ++ c :: after ∧ P c ∧ ∀ d ∈ after, ¬ P d := by
  induction l with
  | nil =>
    obtain ⟨c, among, -⟩ := present
    exact absurd among List.not_mem_nil
  | cons a rest ih =>
    by_cases later : ∃ c ∈ rest, P c
    · obtain ⟨before, c, after, rfl, found, quiet⟩ := ih later
      exact ⟨a :: before, c, after, rfl, found, quiet⟩
    · obtain ⟨c, among, found⟩ := present
      rcases List.mem_cons.mp among with rfl | among
      · exact ⟨[], c, rest, rfl, found, fun d hd holds => later ⟨d, hd, holds⟩⟩
      · exact absurd ⟨c, among, found⟩ later

/-- The dictionary is one-to-one exactly when no call is superseded in one table only: its symbol is
associated again later if and only if its identifier is. -/
theorem dict_one_to_one {capacity : Nat} {m₁ m₂ m₃ m₄ m₅ : Bool} {new d : Dict}
    {calls : List Association}
    (created : dictCreate capacity m₁ m₂ m₃ m₄ m₅ = some (Status.ok, some new))
    (made : dictAssocs new calls = some d) :
    (∀ s i, dictGetId d s = (Status.true, some i) ↔ dictGetSymbol d i = (Status.true, some s)) ↔
      ∀ before a after, calls = before ++ a :: after →
        ((∃ b ∈ after, b.symbol = a.symbol) ↔ ∃ b ∈ after, b.id = a.id) := by
  have h : d.Holds calls := (Holds.create created).assocs made
  constructor
  · intro inverse before a after split
    constructor
    · intro again
      by_contra kept
      -- the identifier still stands for the symbol, which now has the last identifier given to it
      have old : dictGetSymbol d a.id = (Status.true, some a.symbol) :=
        (getSymbol_eq h).mpr ⟨before, a, after, split, rfl, rfl,
          fun b hb same => kept ⟨b, hb, same⟩⟩
      obtain ⟨mid, e, rest, rfl, same, quiet⟩ := exists_last again
      have now : dictGetId d a.symbol = (Status.true, some e.id) :=
        (getId_eq h).mpr ⟨before ++ a :: mid, e, rest, by simp [split], same, rfl, quiet⟩
      have both := now.symm.trans ((inverse a.symbol a.id).mpr old)
      exact kept ⟨e, by simp, Option.some.inj (Prod.mk.inj both).2⟩
    · intro again
      by_contra kept
      have old : dictGetId d a.symbol = (Status.true, some a.id) :=
        (getId_eq h).mpr ⟨before, a, after, split, rfl, rfl, fun b hb same => kept ⟨b, hb, same⟩⟩
      obtain ⟨mid, e, rest, rfl, same, quiet⟩ := exists_last again
      have now : dictGetSymbol d a.id = (Status.true, some e.symbol) :=
        (getSymbol_eq h).mpr ⟨before ++ a :: mid, e, rest, by simp [split], same, rfl, quiet⟩
      have both := now.symm.trans ((inverse a.symbol a.id).mp old)
      exact kept ⟨e, by simp, Option.some.inj (Prod.mk.inj both).2⟩
  · intro paired s i
    rw [getId_eq h, getSymbol_eq h]
    constructor
    · rintro ⟨before, a, after, split, rfl, rfl, quiet⟩
      refine ⟨before, a, after, split, rfl, rfl, fun b hb same => ?_⟩
      obtain ⟨c, hc, again⟩ := (paired before a after split).mpr ⟨b, hb, same⟩
      exact quiet c hc again
    · rintro ⟨before, a, after, split, rfl, rfl, quiet⟩
      refine ⟨before, a, after, split, rfl, rfl, fun b hb same => ?_⟩
      obtain ⟨c, hc, again⟩ := (paired before a after split).mp ⟨b, hb, same⟩
      exact quiet c hc again

def symbolA : Symbol := ⟨[97], by decide⟩

def symbolB : Symbol := ⟨[98], by decide⟩

def ample (symbol : Symbol) (id : Int) : Association := ⟨symbol, id, true, true, true⟩

/-- What `dict_create` makes of a capacity of two. -/
def twoChains : Dict where
  s2id := ⟨[[], []], 1, fun _ => 0, some s2idHashFn, some s2idEqFn, rfl⟩
  id2s := ⟨[[], []], 1, id, none, none, rfl⟩

/-- Two symbols exchange their identifiers. -/
def exchanged : List Association := [ample symbolA 1, ample symbolB 2, ample symbolA 2, ample symbolB 1]

theorem dict_one_to_one_small :
    dictCreate 2 true true true true true = some (Status.ok, some twoChains) ∧
      ∃ d, dictAssocs twoChains exchanged = some d ∧
        dictGetId d symbolA = (Status.true, some 2) ∧ dictGetId d symbolB = (Status.true, some 1) ∧
        ∀ s i, dictGetId d s = (Status.true, some i) ↔
          dictGetSymbol d i = (Status.true, some s) := by
  have created : dictCreate 2 true true true true true = some (Status.ok, some twoChains) := rfl
  obtain ⟨d, made⟩ : ∃ d, dictAssocs twoChains exchanged = some d := ⟨_, rfl⟩
  have a : dictGetId d symbolA = (Status.true, some 2) := by
    cases made
    rfl
  have b : dictGetId d symbolB = (Status.true, some 1) := by
    cases made
    rfl
  refine ⟨created, d, made, a, b, (dict_one_to_one created made).mpr ?_⟩
  intro before call after split
  have place : call = exchanged.getD before.length (ample symbolA 1) ∧
    after = exchanged.drop (before.length + 1) := by
    rw [split]
    simp
  have short : before.length < 4 := by
    have := congrArg List.length split
    simp only [exchanged, List.length_append, List.length_cons, List.length_nil] at this
    omega
  generalize before.length = n at place short
  obtain ⟨rfl, rfl⟩ := place
  obtain rfl | rfl | rfl | rfl : n = 0 ∨ n = 1 ∨ n = 2 ∨ n = 3 := by omega
  all_goals decide

/-- A symbol that gets a second identifier: the first one still stands for it. -/
theorem dict_not_one_to_one :
    dictCreate 2 true true true true true = some (Status.ok, some twoChains) ∧
      ∃ d, dictAssocs twoChains [ample symbolA 1, ample symbolA 2] = some d ∧
        ¬ ∀ s i, dictGetId d s = (Status.true, some i) ↔
          dictGetSymbol d i = (Status.true, some s) := by
  refine ⟨rfl, _, rfl, fun inverse => ?_⟩
  exact absurd ((inverse symbolA 1).mpr rfl) (by decide)

end Dict

end Lancaster
