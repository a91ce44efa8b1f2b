import Mathlib
import Lancaster.Base.Extremes
import Lancaster.Base.Floating

/-!
# Latency statistics

`latency_on_sample` adds a sample to the statistics that are being gathered, and
`latency_roll` puts them in the place of those that are shown and begins anew. Zero in the
minimum or the maximum stands for no sample yet, although zero may be a sample.

Samples are whole microseconds, which become doubles when they are passed: from 2^53 on not every
number is one. The mean and the deviation are left out: neither the count nor the extremes depend
on them. Each call releases the lock that it takes, so that it is free when the next one begins.
-/

namespace Lancaster

/-- The double that a whole number becomes. -/
def double (x : Int) : Int := Floating.nearestInt 53 x

theorem double_of_small {x : Int} (small : x.natAbs ≤ 2 ^ 53) : double x = x :=
  Floating.nearestInt_of_le (by decide) small

theorem double_double (x : Int) : double (double x) = double x :=
  Floating.nearestInt_nearestInt x (by decide)

theorem double_mono : Monotone double := Floating.nearestInt_mono (by decide)

theorem double_pos_iff {x : Int} : 0 < double x ↔ 0 < x := by
  constructor
  · intro pos
    by_contra low
    have zero : double 0 = 0 := double_of_small (Nat.zero_le _)
    have le : double x ≤ double 0 := double_mono (Int.not_lt.mp low)
    omega
  · exact Floating.nearestInt_pos (by decide)

theorem double_neg_iff {x : Int} : double x < 0 ↔ x < 0 := by
  have turned : double (-x) = -double x := Floating.nearestInt_neg x
  have pos := double_pos_iff (x := -x)
  rw [turned] at pos
  omega

theorem double_eq_zero_iff {x : Int} : double x = 0 ↔ x = 0 := by
  have pos := double_pos_iff (x := x)
  have neg := double_neg_iff (x := x)
  omega

example : double (2 ^ 53 + 1) = 2 ^ 53 := by decide +kernel

/-- The minimum and the maximum are doubles that are whole numbers. -/
structure Stats where
  count : Nat
  min : Int
  max : Int

/-- `BZERO`. -/
def Stats.zero : Stats := ⟨0, 0, 0⟩

structure Latency where
  curr : Stats
  next : Stats

namespace Latency

def latencyCreate : Latency := ⟨Stats.zero, Stats.zero⟩

def latencyOnSample (lat : Latency) (newVal : Int) : Latency :=
  { lat with
    next := {
      count := lat.next.count + 1
      min := if lat.next.min = 0 ∨ newVal < lat.next.min then newVal else lat.next.min
      max := if lat.next.max = 0 ∨ newVal > lat.next.max then newVal else lat.next.max } }

/-- The two statistics change places, and the one that is gathered next is cleared. -/
def latencyRoll (lat : Latency) : Latency := { curr := lat.next, next := Stats.zero }

def latencyGetCount (lat : Latency) : Nat := lat.curr.count

def latencyGetMin (lat : Latency) : Int := lat.curr.min

def latencyGetMax (lat : Latency) : Int := lat.curr.max

inductive Call where
  | sample (newVal : Int)
  | roll

def step (lat : Latency) : Call → Latency
  | .sample newVal => lat.latencyOnSample (double newVal)
  | .roll => lat.latencyRoll

def run (calls : List Call) : Latency := calls.foldl step latencyCreate

def since (calls : List Call) : List Int :=
  calls.foldl (fun samples call =>
    match call with
    | .sample newVal => samples ++ [newVal]
    | .roll => []) []

/-! ## What is being gathered -/

/-- The statistics of a list of samples, as they are gathered. -/
structure Gathered (stats : Stats) (samples : List Int) : Prop where
  count : stats.count = samples.length
  min : stats.min = Extremes.running 0 samples
  max : OrderDual.toDual stats.max = Extremes.running (OrderDual.toDual 0) (samples.map OrderDual.toDual)

theorem gathered_zero : Gathered Stats.zero [] := ⟨rfl, rfl, rfl⟩

theorem gathered_sample {lat : Latency} {samples : List Int} (h : Gathered lat.next samples)
    (newVal : Int) :
    Gathered (lat.latencyOnSample newVal).next (samples ++ [newVal]) := by
  constructor
  · rw [List.length_append, ← h.count]
    rfl
  · rw [Extremes.running_append, ← h.min]
    rfl
  · rw [List.map_append, List.map_singleton, Extremes.running_append, ← h.max]
    unfold latencyOnSample Extremes.take
    dsimp only
    split
    · rename_i taken
      exact (if_pos taken).symm
    · rename_i left
      exact (if_neg left).symm

/-- After any calls the samples since the last roll have been gathered, as doubles. -/
theorem run_gathered (calls : List Call) :
    Gathered (run calls).next ((since calls).map double) := by
  induction calls using List.reverseRecOn with
  | nil => exact gathered_zero
  | append_singleton calls call ih =>
    unfold run since at *
    rw [List.foldl_append, List.foldl_append]
    cases call with
    | sample newVal =>
      have more := gathered_sample ih (double newVal)
      rwa [← List.map_singleton, ← List.map_append] at more
    | roll => exact gathered_zero

/-! ## What is shown after a roll -/

/-- The number, the minimum and the maximum of the samples. -/
def Exact (lat : Latency) (samples : List Int) : Prop :=
  lat.latencyGetCount = samples.length ∧
  (samples ≠ [] →
    Extremes.Least lat.latencyGetMin samples ∧ Extremes.Greatest lat.latencyGetMax samples)

/-- Where a sample is zero and the last one is not, there are samples on both sides of zero. -/
def ZerosHarmless (samples : List Int) : Prop :=
  0 ∈ samples → samples.getLast? ≠ some 0 → (∃ v ∈ samples, v < 0) ∧ ∃ v ∈ samples, 0 < v

theorem roll_curr (calls : List Call) : (run (calls ++ [.roll])).curr = (run calls).next := by
  rw [run, List.foldl_append]
  rfl

/-- The least and the greatest sample are doubles. -/
def ExtremesHeld (samples : List Int) : Prop :=
  (∀ v, Extremes.Least v samples → double v = v) ∧ ∀ v, Extremes.Greatest v samples → double v = v

/-- That is so of samples that are not large. -/
theorem extremesHeld_of_small {samples : List Int} (small : ∀ v ∈ samples, v.natAbs ≤ 2 ^ 53) :
    ExtremesHeld samples :=
  ⟨fun v least => double_of_small (small v least.1),
    fun v greatest => double_of_small (small v greatest.1)⟩

/-! Zeros stay zeros, and signs stay signs. -/

theorem zero_mem_map {samples : List Int} : 0 ∈ samples.map double ↔ 0 ∈ samples := by
  rw [List.mem_map]
  constructor
  · rintro ⟨v, here, zero⟩
    rwa [double_eq_zero_iff.mp zero] at here
  · exact fun here => ⟨0, here, double_eq_zero_iff.mpr rfl⟩

theorem zero_last_map {samples : List Int} :
    (samples.map double).getLast? = some 0 ↔ samples.getLast? = some 0 := by
  rw [List.getLast?_map, Option.map_eq_some_iff]
  constructor
  · rintro ⟨v, last, zero⟩
    rwa [double_eq_zero_iff.mp zero] at last
  · exact fun last => ⟨0, last, double_eq_zero_iff.mpr rfl⟩

theorem neg_mem_map {samples : List Int} :
    (∃ v ∈ samples.map double, v < 0) ↔ ∃ v ∈ samples, v < 0 := by
  simp only [List.mem_map, exists_exists_and_eq_and, double_neg_iff]

theorem pos_mem_map {samples : List Int} :
    (∃ v ∈ samples.map double, 0 < v) ↔ ∃ v ∈ samples, 0 < v := by
  simp only [List.mem_map, exists_exists_and_eq_and, double_pos_iff]

theorem min_iff {stats : Stats} {samples : List Int} (h : Gathered stats samples)
    (nonempty : samples ≠ []) :
    Extremes.Least stats.min samples ↔
      (0 ∈ samples → samples.getLast? ≠ some 0 → ∃ v ∈ samples, v < 0) := by
  have least := Extremes.running_least_iff (z := (0 : Int)) nonempty
  rw [← h.min] at least
  refine least.trans ?_
  constructor
  · intro all here last
    by_contra nothing
    exact last (all here fun v there => Int.not_lt.mp fun less => nothing ⟨v, there, less⟩)
  · intro lower here all
    by_contra last
    obtain ⟨v, there, less⟩ := lower here last
    have := all v there
    omega

theorem mem_dual {samples : List Int} {v : Int} :
    OrderDual.toDual v ∈ samples.map OrderDual.toDual ↔ v ∈ samples := by
  constructor
  · intro here
    obtain ⟨w, there, eq⟩ := List.mem_map.mp here
    rw [← OrderDual.toDual.injective eq]
    exact there
  · exact List.mem_map_of_mem

theorem max_iff {stats : Stats} {samples : List Int} (h : Gathered stats samples)
    (nonempty : samples ≠ []) :
    Extremes.Greatest stats.max samples ↔
      (0 ∈ samples → samples.getLast? ≠ some 0 → ∃ v ∈ samples, 0 < v) := by
  have mapped : samples.map OrderDual.toDual ≠ [] := by simpa using nonempty
  have least := Extremes.running_least_iff (z := OrderDual.toDual (0 : Int)) mapped
  rw [← h.max] at least
  have last : (samples.map OrderDual.toDual).getLast? = some (OrderDual.toDual 0) ↔
      samples.getLast? = some 0 := by
    rw [List.getLast?_map, Option.map_eq_some_iff]
    constructor
    · rintro ⟨v, last, rfl⟩
      exact last
    · exact fun last => ⟨0, last, rfl⟩
  have greatest : Extremes.Greatest stats.max samples ↔
      Extremes.Least (OrderDual.toDual stats.max) (samples.map OrderDual.toDual) := by
    unfold Extremes.Greatest Extremes.Least
    rw [mem_dual, List.forall_mem_map]
    rfl
  refine greatest.trans (least.trans ?_)
  rw [last, mem_dual, List.forall_mem_map]
  constructor
  · intro all here last
    by_contra nothing
    exact last (all here fun v there => Int.not_lt.mp fun more => nothing ⟨v, there, more⟩)
  · intro lower here all
    by_contra last
    obtain ⟨v, there, more⟩ := lower here last
    have : v ≤ 0 := all v there
    omega

/-- A minimum of doubles is the least sample if zeros do no harm and it is held exactly. -/
theorem min_samples_iff {stats : Stats} {samples : List Int}
    (h : Gathered stats (samples.map double)) (nonempty : samples ≠ []) :
    Extremes.Least stats.min samples ↔
      (0 ∈ samples → samples.getLast? ≠ some 0 → ∃ v ∈ samples, v < 0) ∧
        ∀ v, Extremes.Least v samples → double v = v := by
  have mapped : samples.map double ≠ [] := by simpa using nonempty
  have rounded : stats.min ∈ samples.map double := by
    rw [h.min]
    exact (Extremes.running_spec 0 _).mem.resolve_right fun empty => mapped empty.1
  rw [Extremes.least_map_iff double_mono double_double nonempty rounded,
    min_iff h mapped, zero_mem_map, ne_eq, zero_last_map, neg_mem_map]

theorem max_samples_iff {stats : Stats} {samples : List Int}
    (h : Gathered stats (samples.map double)) (nonempty : samples ≠ []) :
    Extremes.Greatest stats.max samples ↔
      (0 ∈ samples → samples.getLast? ≠ some 0 → ∃ v ∈ samples, 0 < v) ∧
        ∀ v, Extremes.Greatest v samples → double v = v := by
  have mapped : samples.map double ≠ [] := by simpa using nonempty
  have rounded : stats.max ∈ samples.map double := by
    rw [← mem_dual, h.max]
    refine (Extremes.running_spec (OrderDual.toDual (0 : Int)) _).mem.resolve_right fun empty => ?_
    exact mapped (List.map_eq_nil_iff.mp empty.1)
  rw [Extremes.greatest_map_iff double_mono double_double nonempty rounded,
    max_iff h mapped, zero_mem_map, ne_eq, zero_last_map, pos_mem_map]

/-- After a roll the count is always right; the extremes are if no sample is zero, or the last
one is, or there are samples on both sides of zero, and if both are doubles. -/
theorem latency_extremes (calls : List Call) :
    Exact (run (calls ++ [.roll])) (since calls) ↔
      (since calls ≠ [] → ZerosHarmless (since calls) ∧ ExtremesHeld (since calls)) := by
  have gathered := run_gathered calls
  unfold Exact latencyGetCount latencyGetMin latencyGetMax
  rw [roll_curr]
  constructor
  · rintro ⟨_, extremes⟩ nonempty
    obtain ⟨least, greatest⟩ := extremes nonempty
    obtain ⟨below, heldMin⟩ := (min_samples_iff gathered nonempty).mp least
    obtain ⟨above, heldMax⟩ := (max_samples_iff gathered nonempty).mp greatest
    exact ⟨fun here last => ⟨below here last, above here last⟩, heldMin, heldMax⟩
  · intro good
    refine ⟨gathered.count.trans (List.length_map ..), ?_⟩
    intro nonempty
    obtain ⟨harmless, heldMin, heldMax⟩ := good nonempty
    constructor
    · exact (min_samples_iff gathered nonempty).mpr ⟨fun here last => (harmless here last).1,
        heldMin⟩
    · exact (max_samples_iff gathered nonempty).mpr ⟨fun here last => (harmless here last).2,
        heldMax⟩

/-- A delay of zero microseconds followed by one of five: the minimum shown is five. And a delay of
2^53 + 1 microseconds is shown as one of 2^53. -/
theorem zero_then_five :
    let calls := [Call.sample 0, Call.sample 5]
    let wide := [Call.sample 9007199254740993]
    (since calls = [0, 5] ∧ (run (calls ++ [.roll])).latencyGetMin = 5 ∧
      ¬ Exact (run (calls ++ [.roll])) (since calls)) ∧
    since wide = [9007199254740993] ∧ (run (wide ++ [.roll])).latencyGetMin = 9007199254740992 ∧
      ¬ Exact (run (wide ++ [.roll])) (since wide) := by
  have rounded : (run ([.sample 9007199254740993] ++ [.roll])).latencyGetMin =
    9007199254740992 := by
    decide +kernel
  refine ⟨⟨rfl, rfl, ?_⟩, rfl, rounded, ?_⟩
  · rintro ⟨_, extremes⟩
    have least : (5 : Int) ≤ 0 := (extremes (List.cons_ne_nil _ _)).1.2 0 (List.mem_cons_self ..)
    omega
  · rintro ⟨_, extremes⟩
    have shown := (extremes (List.cons_ne_nil _ _)).1.1
    rw [rounded] at shown
    revert shown
    decide

end Latency

end Lancaster
