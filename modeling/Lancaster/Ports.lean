import Mathlib.Algebra.Group.Int.Defs
import Mathlib.Data.Finset.Card

/-!
# The ports of the publishers

`reservePort` looks through the range from where the last search ended, and takes the first
port that is not in use. `releasePort` gives a port back. Integers are Go's `int`, of 64 bits.

The lock is held during each call, so that calls follow one another.
-/

namespace Lancaster

/-- A sum or difference as a 64-bit `int`. -/
def int64 (x : Int) : Int := (x + 2 ^ 63) % 2 ^ 64 - 2 ^ 63

theorem int64_of_small {x : Int} (low : -2 ^ 63 ≤ x) (high : x < 2 ^ 63) : int64 x = x := by
  unfold int64
  omega

/-- A range of ports that is not empty, as two flags set it. -/
structure PortRange where
  rangeStart : Int
  rangeEnd : Int
  start_nonneg : 0 ≤ rangeStart
  start_le_end : rangeStart ≤ rangeEnd
  end_int : rangeEnd < 2 ^ 63

namespace PortRange

def size (range : PortRange) : Int := range.rangeEnd - range.rangeStart + 1

def Contains (range : PortRange) (port : Int) : Prop :=
    range.rangeStart ≤ port ∧ port ≤ range.rangeEnd

theorem size_pos (range : PortRange) : 0 < range.size := by
  have := range.start_le_end
  unfold size
  omega

end PortRange

structure PortPicker where
  range : PortRange
  rangeSize : Int
  counter : Int
  inUse : Finset Int

namespace PortPicker

def initial (range : PortRange) : PortPicker := ⟨range, 0, 0, ∅⟩

/-- The first call finds no range size, and sets it and the counter. -/
def prepared (picker : PortPicker) : PortPicker :=
  if picker.rangeSize = 0 then
    { picker with
      rangeSize := int64 (int64 (picker.range.rangeEnd - picker.range.rangeStart) + 1)
      counter := picker.range.rangeStart }
  else picker

def portAt (picker : PortPicker) (counter : Int) : Int :=
  int64 (picker.range.rangeStart + counter.tmod picker.rangeSize)

/-- The loop, with the number of times that it is still to run. Only a failed look advances
the counter. -/
def search (picker : PortPicker) : Nat → Option Int × PortPicker
  | 0 => (none, picker)
  | tries + 1 =>
    let e := picker.portAt picker.counter
    if e ∉ picker.inUse then (some e, { picker with inUse := insert e picker.inUse })
    else search { picker with counter := picker.counter + 1 } tries

def refusal (picker : PortPicker) : String :=
  let used := picker.inUse.card
  let first := picker.range.rangeStart
  let last := picker.range.rangeEnd
  s!"error: port range leaked or too narrow - in use: {used}, range: {first}-{last}"

def reservePort (picker : PortPicker) : Except String Int × PortPicker :=
  let picker := picker.prepared
  let stop := int64 (picker.counter + picker.rangeSize)
  match picker.search (stop - picker.counter).toNat with
  | (some e, picker) => (.ok e, picker)
  | (none, picker) => (.error picker.refusal, picker)

def releasePort (picker : PortPicker) (portNumber : Int) : PortPicker :=
  { picker with inUse := picker.inUse.erase portNumber }

/-! ## One search -/

def Found (picker : PortPicker) (tries : Nat) (port : Int) (after : PortPicker) : Prop :=
  ∃ i < tries, port = picker.portAt (picker.counter + i) ∧ port ∉ picker.inUse ∧
    after = { picker with counter := picker.counter + i, inUse := insert port picker.inUse }

theorem search_cases (picker : PortPicker) (tries : Nat) :
    (∃ port after, picker.search tries = (some port, after) ∧ Found picker tries port after) ∨
    (picker.search tries = (none, { picker with counter := picker.counter + tries }) ∧
      ∀ i < tries, picker.portAt (picker.counter + i) ∈ picker.inUse) := by
  induction tries generalizing picker with
  | zero =>
    right
    constructor
    · simp [search]
    · intro i less
      cases less
  | succ tries ih =>
    by_cases used : picker.portAt picker.counter ∈ picker.inUse
    · have next : picker.search (tries + 1) =
          ({ picker with counter := picker.counter + 1 } : PortPicker).search tries := by
        simp [search, used]
      have moved (i : Nat) : picker.counter + 1 + i = picker.counter + (i + 1 : Nat) := by
        push_cast
        omega
      rw [next]
      rcases ih { picker with counter := picker.counter + 1 } with
        ⟨port, after, eq, i, less, ports, free, rfl⟩ | ⟨eq, all⟩
      · left
        simp only [moved] at ports eq
        exact ⟨port, _, eq, i + 1, Nat.succ_lt_succ less, ports, free, rfl⟩
      · right
        simp only [moved] at eq all
        refine ⟨eq, ?_⟩
        intro i less
        cases i with
        | zero => simpa using used
        | succ i => exact all i (Nat.lt_of_succ_lt_succ less)
    · left
      have taken : picker.search (tries + 1) = (some (picker.portAt picker.counter),
          { picker with inUse := insert (picker.portAt picker.counter) picker.inUse }) := by
        simp [search, used]
      refine ⟨_, _, taken, 0, Nat.succ_pos _, ?_, used, ?_⟩
      · simp
      · simp

/-! ## What holds of the picker in every run -/

/-- The size is that of the range, once it is set, and the counter is never negative. -/
structure Sound (picker : PortPicker) : Prop where
  sized : picker.rangeSize = 0 ∨
    picker.rangeSize = int64 (int64 (picker.range.rangeEnd - picker.range.rangeStart) + 1)
  counter_nonneg : 0 ≤ picker.counter
  counter_int : picker.counter < 2 ^ 63

theorem sound_initial (range : PortRange) : Sound (initial range) :=
  ⟨Or.inl rfl, Int.le_refl 0, by simp [initial]⟩

theorem prepared_range (picker : PortPicker) : picker.prepared.range = picker.range := by
  unfold prepared
  split <;> rfl

theorem prepared_inUse (picker : PortPicker) : picker.prepared.inUse = picker.inUse := by
  unfold prepared
  split <;> rfl

theorem Sound.prepared {picker : PortPicker} (h : Sound picker) : Sound picker.prepared := by
  unfold PortPicker.prepared
  split
  · have := picker.range.start_le_end
    have := picker.range.end_int
    exact ⟨Or.inr rfl, picker.range.start_nonneg, by dsimp only; omega⟩
  · exact h

theorem Sound.prepared_size {picker : PortPicker} (h : Sound picker) :
    picker.prepared.rangeSize =
      int64 (int64 (picker.range.rangeEnd - picker.range.rangeStart) + 1) := by
  unfold PortPicker.prepared
  split
  · rfl
  · rename_i unset
    exact h.sized.resolve_left unset

/-- The size of a range wraps to a negative number if there is no such number. -/
theorem size_wraps (range : PortRange) :
    int64 (int64 (range.rangeEnd - range.rangeStart) + 1) =
      if range.size < 2 ^ 63 then range.size else - 2 ^ 63 := by
  have := range.start_nonneg
  have := range.start_le_end
  have := range.end_int
  unfold int64 PortRange.size
  split <;> omega

/-- The counter and the size fit together into an `int`. -/
def Roomy (picker : PortPicker) : Prop := picker.prepared.counter + picker.range.size < 2 ^ 63

instance (picker : PortPicker) : Decidable picker.Roomy := inferInstanceAs (Decidable (_ < _))

/-- The loop runs once for each port of the range, or not at all. -/
theorem Sound.tries {picker : PortPicker} (h : Sound picker) :
    (int64 (picker.prepared.counter + picker.prepared.rangeSize) - picker.prepared.counter).toNat =
      if picker.Roomy then picker.range.size.toNat else 0 := by
  have low := h.prepared.counter_nonneg
  have high := h.prepared.counter_int
  have pos := picker.range.size_pos
  have most : picker.range.size ≤ 2 ^ 63 := by
    have := picker.range.start_nonneg
    have := picker.range.end_int
    unfold PortRange.size
    omega
  rw [h.prepared_size, size_wraps]
  by_cases roomy : picker.Roomy
  · rw [if_pos roomy]
    unfold Roomy at roomy
    unfold int64
    split <;> omega
  · rw [if_neg roomy]
    unfold Roomy at roomy
    unfold int64
    split <;> omega

/-- What a call does: it takes a free port, or it fails with the counter after the last look. -/
theorem reservePort_cases {picker : PortPicker} (h : Sound picker) :
    let tries := if picker.Roomy then picker.range.size.toNat else 0
    (∃ port after, picker.reservePort = (.ok port, after) ∧
    Found picker.prepared tries port after) ∨
    (∃ text, picker.reservePort =
        (.error text, { picker.prepared with counter := picker.prepared.counter + tries }) ∧
      ∀ i < tries, picker.prepared.portAt (picker.prepared.counter + i) ∈ picker.prepared.inUse) := by
  intro tries
  have searched := picker.prepared.search_cases tries
  unfold reservePort
  dsimp only
  rw [h.tries]
  rcases searched with ⟨port, after, eq, found⟩ | ⟨eq, all⟩
  · left
    exact ⟨port, after, by rw [eq], found⟩
  · right
    exact ⟨_, by rw [eq], all⟩

/-- Where the search fits, a counter stands for a port of the range. -/
theorem Sound.portAt_roomy {picker : PortPicker} (h : Sound picker) (roomy : picker.Roomy)
    {counter : Int} (low : 0 ≤ counter) :
    picker.prepared.portAt counter = picker.range.rangeStart + counter % picker.range.size := by
  have size : picker.prepared.rangeSize = picker.range.size := by
    rw [h.prepared_size, size_wraps, if_pos]
    have := h.prepared.counter_nonneg
    unfold Roomy at roomy
    omega
  have pos := picker.range.size_pos
  have less := Int.emod_lt_of_pos counter pos
  have nonneg := Int.emod_nonneg counter (Int.ne_of_gt pos)
  have := picker.range.start_nonneg
  have := picker.range.end_int
  have : picker.range.rangeStart + picker.range.size = picker.range.rangeEnd + 1 := by
    unfold PortRange.size
    omega
  unfold portAt
  rw [prepared_range, size, Int.tmod_eq_emod_of_nonneg low]
  apply int64_of_small
  · omega
  · omega

/-- The counters of one search stand for every port of the range. -/
theorem window (range : PortRange) (counter : Int) {port : Int} (here : range.Contains port) :
    ∃ i < range.size.toNat, range.rangeStart + (counter + (i : Nat)) % range.size = port := by
  have pos := range.size_pos
  obtain ⟨low, high⟩ := here
  have less := Int.emod_lt_of_pos (port - range.rangeStart - counter) pos
  have nonneg := Int.emod_nonneg (port - range.rangeStart - counter) (Int.ne_of_gt pos)
  refine ⟨((port - range.rangeStart - counter) % range.size).toNat, by omega, ?_⟩
  rw [Int.toNat_of_nonneg nonneg, Int.add_emod_emod]
  have : counter + (port - range.rangeStart - counter) = port - range.rangeStart := by omega
  rw [this, Int.emod_eq_of_lt (by omega) (by unfold PortRange.size; omega)]
  omega

/-- A call leaves the picker sound, with the range that it had. -/
theorem Sound.reservePort {picker : PortPicker} (h : Sound picker) :
    Sound picker.reservePort.2 ∧ picker.reservePort.2.range = picker.range := by
  -- the counter only grows, and by less than the size where the search fits
  have bound {i : Nat} (less : i ≤ if picker.Roomy then picker.range.size.toNat else 0) :
      0 ≤ picker.prepared.counter + i ∧ picker.prepared.counter + i < 2 ^ 63 := by
    have low := h.prepared.counter_nonneg
    have high := h.prepared.counter_int
    split at less
    · rename_i roomy
      unfold Roomy at roomy
      omega
    · omega
  rcases reservePort_cases h with ⟨port, after, eq, i, less, -, -, rfl⟩ | ⟨text, eq, -⟩
  · rw [eq]
    obtain ⟨low, high⟩ := bound (Nat.le_of_lt less)
    exact ⟨⟨h.prepared.sized, low, high⟩, picker.prepared_range⟩
  · rw [eq]
    obtain ⟨low, high⟩ := bound (Nat.le_refl _)
    exact ⟨⟨h.prepared.sized, low, high⟩, picker.prepared_range⟩

theorem Sound.releasePort {picker : PortPicker} (h : Sound picker) (portNumber : Int) :
    Sound (picker.releasePort portNumber) := ⟨h.sized, h.counter_nonneg, h.counter_int⟩

/-- A port that is taken was free, and is in use afterwards along with the others. -/
theorem Sound.reserved {picker : PortPicker} (h : Sound picker) {port : Int}
    (ok : picker.reservePort.1 = .ok port) :
    port ∉ picker.inUse ∧ picker.reservePort.2.inUse = insert port picker.inUse := by
  rcases reservePort_cases h with ⟨port, after, eq, i, -, -, free, rfl⟩ | ⟨text, eq, -⟩
  · rw [eq] at ok ⊢
    cases ok
    rw [prepared_inUse] at free ⊢
    exact ⟨free, rfl⟩
  · rw [eq] at ok
    cases ok

theorem Sound.refused {picker : PortPicker} (h : Sound picker) {text : String}
    (error : picker.reservePort.1 = .error text) : picker.reservePort.2.inUse = picker.inUse := by
  rcases reservePort_cases h with ⟨port, after, eq, -⟩ | ⟨text, eq, -⟩
  · rw [eq] at error
    cases error
  · rw [eq]
    exact picker.prepared_inUse

def Right (picker : PortPicker) (reserved : Finset Int) : Prop :=
  (∀ port, picker.reservePort.1 = .ok port → picker.range.Contains port ∧ port ∉ reserved) ∧
  ((∃ text, picker.reservePort.1 = .error text) ↔ ∀ port, picker.range.Contains port →
    port ∈ reserved)

/-- A call is right about the ports in use exactly if its search fits into an `int`, or there
is nothing to find. -/
theorem Sound.right_iff {picker : PortPicker} (h : Sound picker) :
    Right picker picker.inUse ↔
      picker.Roomy ∨ ∀ port, picker.range.Contains port → port ∈ picker.inUse := by
  have cases := reservePort_cases h
  by_cases roomy : picker.Roomy
  · refine iff_of_true ?_ (Or.inl roomy)
    simp only [if_pos roomy] at cases
    have low := h.prepared.counter_nonneg
    have index (i : Nat) : picker.prepared.portAt (picker.prepared.counter + i) =
        picker.range.rangeStart + (picker.prepared.counter + i) % picker.range.size :=
      h.portAt_roomy roomy (by omega)
    have within (i : Nat) : picker.range.Contains (picker.prepared.portAt (picker.prepared.counter + i)) := by
      have pos := picker.range.size_pos
      have less := Int.emod_lt_of_pos (picker.prepared.counter + i) pos
      have nonneg := Int.emod_nonneg (picker.prepared.counter + i) (Int.ne_of_gt pos)
      rw [index]
      unfold PortRange.Contains
      unfold PortRange.size at less nonneg ⊢
      omega
    rcases cases with ⟨port, after, eq, i, less, port_eq, free, -⟩ | ⟨text, eq, all⟩
    · rw [prepared_inUse] at free
      unfold Right
      rw [eq]
      constructor
      · rintro _ ⟨⟩
        exact ⟨port_eq ▸ within i, free⟩
      · refine iff_of_false ?_ ?_
        · rintro ⟨text, error⟩
          cases error
        · intro all
          exact free (all port (port_eq ▸ within i))
    · unfold Right
      rw [eq]
      constructor
      · rintro _ ⟨⟩
      · refine iff_of_true ⟨text, rfl⟩ ?_
        intro port here
        obtain ⟨i, less, rfl⟩ := window picker.range picker.prepared.counter here
        rw [← index, ← prepared_inUse]
        exact all i less
  · -- the loop does not run at all
    rw [or_iff_right roomy]
    simp only [if_neg roomy] at cases
    rcases cases with ⟨port, after, eq, i, less, -⟩ | ⟨text, eq, -⟩
    · cases less
    · unfold Right
      rw [eq]
      constructor
      · exact fun right => right.2.mp ⟨text, rfl⟩
      · intro all
        refine ⟨?_, iff_of_true ⟨text, rfl⟩ all⟩
        rintro _ ⟨⟩

end PortPicker

/-! ## Every sequence of calls -/

inductive PortCall where
  | reserve
  | release (portNumber : Int)

inductive PortEvent where
  | reserved (port : Int)
  | refused (text : String)
  | released (portNumber : Int)

def outstanding (events : List PortEvent) : Finset Int :=
  events.foldl (fun ports event =>
    match event with
    | .reserved port => insert port ports
    | .refused _ => ports
    | .released portNumber => ports.erase portNumber) ∅

theorem outstanding_snoc (events : List PortEvent) (event : PortEvent) :
    outstanding (events ++ [event]) =
      match event with
      | .reserved port => insert port (outstanding events)
      | .refused _ => outstanding events
      | .released portNumber => (outstanding events).erase portNumber := by
  rw [outstanding, List.foldl_append]
  rfl

namespace PortPicker

def step (picker : PortPicker) : PortCall → PortPicker × PortEvent
  | .reserve =>
    match picker.reservePort with
    | (.ok port, picker) => (picker, .reserved port)
    | (.error text, picker) => (picker, .refused text)
  | .release portNumber => (picker.releasePort portNumber, .released portNumber)

def run (range : PortRange) (calls : List PortCall) : PortPicker × List PortEvent :=
  calls.foldl (fun (picker, events) call => ((picker.step call).1, events ++ [(picker.step call).2]))
    (initial range, [])

/-- After any calls the picker is sound, and the ports in use are those reserved. -/
structure Tracks (range : PortRange) (picker : PortPicker) (events : List PortEvent) : Prop where
  sound : Sound picker
  range_eq : picker.range = range
  inUse_eq : picker.inUse = outstanding events

theorem Tracks.step {range : PortRange} {picker : PortPicker} {events : List PortEvent}
    (h : Tracks range picker events) (call : PortCall) :
    Tracks range (picker.step call).1 (events ++ [(picker.step call).2]) := by
  cases call with
  | reserve =>
    have sound := h.sound.reservePort
    have reserved := @h.sound.reserved
    have refused := @h.sound.refused
    unfold PortPicker.step
    rcases eq : picker.reservePort with ⟨port | text, after⟩
    · rw [eq] at sound refused
      exact ⟨sound.1, sound.2.trans h.range_eq, by rw [refused rfl, h.inUse_eq, outstanding_snoc]⟩
    · rw [eq] at sound reserved
      exact ⟨sound.1, sound.2.trans h.range_eq, by rw [(reserved rfl).2, h.inUse_eq, outstanding_snoc]⟩
  | release portNumber =>
    refine ⟨h.sound.releasePort portNumber, h.range_eq, ?_⟩
    rw [PortPicker.step, outstanding_snoc, ← h.inUse_eq]
    rfl

theorem run_tracks (range : PortRange) (calls : List PortCall) :
    Tracks range (run range calls).1 (run range calls).2 := by
  induction calls using List.reverseRecOn with
  | nil => exact ⟨sound_initial range, rfl, rfl⟩
  | append_singleton calls call ih =>
    unfold run at *
    rw [List.foldl_append]
    exact ih.step call

/-- At every reservation of every sequence of calls, a port that is returned is of the range
and not reserved, and it fails exactly if all are reserved: if and only if at each the search
fits into an `int`, or all ports are reserved. -/
theorem reserve_right (range : PortRange) (calls : List PortCall) :
    (∀ before after, calls = before ++ .reserve :: after →
      Right (run range before).1 (outstanding (run range before).2)) ↔
    ∀ before after, calls = before ++ .reserve :: after → (run range before).1.Roomy ∨
      ∀ port, range.Contains port → port ∈ outstanding (run range before).2 := by
  refine forall_congr' fun before => forall_congr' fun after => imp_congr_right fun _ => ?_
  have tracks := run_tracks range before
  have iff := tracks.sound.right_iff
  rw [tracks.inUse_eq, tracks.range_eq] at iff
  exact iff

/-- All the numbers from zero: their number is negative as an `int`, and the first search fails
with none in use. -/
theorem whole_range_refuses :
    let range : PortRange := ⟨0, 2 ^ 63 - 1, by decide, by decide, by decide⟩
    (run range []).1.rangeSize = 0 ∧ (∃ text, (run range []).1.reservePort.1 = .error text) ∧
      range.Contains 0 ∧ 0 ∉ outstanding (run range []).2 ∧
      ¬ Right (run range []).1 (outstanding (run range []).2) := by
  intro range
  have error : ∃ text, (run range []).1.reservePort.1 = .error text := ⟨_, rfl⟩
  have nothing : 0 ∉ outstanding (run range []).2 := by decide
  refine ⟨rfl, error, ⟨by decide, by decide⟩, nothing, ?_⟩
  intro right
  exact nothing (right.2.mp error 0 ⟨by decide, by decide⟩)

end PortPicker

end Lancaster
