import Lancaster.Advert

/-!
# The subscribers of submux

`discoveryLoop` reads advertisements, again and again the same ones, and starts a subscriber for
each description that it wants and that has none. Texts that it has seen it ignores. Every
subscriber has a goroutine of its own: when its process is gone for good, the goroutine takes the
subscriber out of the map and then makes `ignore` a new, empty map. The loop and the goroutines take
turns between any two statements that touch what they share.
-/

namespace Lancaster

namespace Submux

open Advert (Discovery unmarshal)

/-- The flags of submux that the loop looks at. The patterns are compiled regular expressions. -/
structure Flags where
  wireProtocolVersion : List UInt8
  env : List UInt8
  hostPattern : List UInt8 → Bool
  descPattern : List UInt8 → Bool
  restartOnExit : Bool

inductive Verdict where
  | unsupported
  | versionMismatch
  | wanted (desc : List UInt8)
  deriving DecidableEq

/-- The tests of `discoveryLoop` up to the one for a subscriber. -/
def judge (flags : Flags) (jsstr : List UInt8) : Verdict :=
  match unmarshal jsstr with
  | none => .unsupported
  | some disc =>
    if flags.wireProtocolVersion ≠ Text.ascii "*" ∧ disc.version ≠ flags.wireProtocolVersion then
      .versionMismatch
    else
      match disc.data with
      | [entry] =>
        if flags.env ≠ disc.env then .unsupported
        else if flags.hostPattern disc.hostname = false then .unsupported
        else if flags.descPattern entry.description = false then .unsupported
        else .wanted entry.description
      | _ => .unsupported

/-- Where a subscriber is: made but not yet launched, with its command running, out of the map but
with `ignore` still to be renewed, and gone. -/
inductive Stage where
  | made
  | running
  | removed
  | gone
  deriving DecidableEq

/-- In the map. -/
def Stage.Live : Stage → Prop
  | .made => True
  | .running => True
  | _ => False

inductive LoopAt where
  | read
  | mark (jsstr : List UInt8)
  | look (jsstr desc : List UInt8)
  | make (jsstr desc : List UInt8)
  | launch (i : Nat)

/-- The subscribers that were made, in order: `names` has what they subscribe to, and `stage` how
far each of them is. -/
structure Mux where
  ignored : Finset (List UInt8)
  subsMap : List UInt8 → Option Nat
  hasRun : Finset (List UInt8)
  names : List (List UInt8)
  stage : Nat → Stage
  loop : LoopAt
  halted : Bool

def initial : Mux := ⟨∅, fun _ => none, ∅, [], fun _ => .gone, .read, false⟩

/-- An advertisement is read or the socket fails, the loop makes a step, or a goroutine does. A
call of `log.Fatalln` ends all of them. -/
inductive Move where
  | advert (jsstr : List UInt8)
  | readError
  | loop
  | exit (i : Nat)
  | renew (i : Nat)
  | fatal (i : Nat)
  deriving DecidableEq

def stepLoop (flags : Flags) (mux : Mux) : Option Mux :=
  match mux.loop with
  | .read => none
  | .mark jsstr =>
    let mux := { mux with ignored := insert jsstr mux.ignored }
    match judge flags jsstr with
    | .unsupported => some { mux with loop := .read }
    | .versionMismatch => some { mux with halted := true }
    | .wanted desc => some { mux with loop := .look jsstr desc }
  | .look jsstr desc =>
    if (mux.subsMap desc).isSome then some { mux with loop := .read }
    else if flags.restartOnExit = false ∧ desc ∈ mux.hasRun then some { mux with loop := .read }
    else some { mux with loop := .make jsstr desc }
  | .make _ desc =>
    some { mux with
      subsMap := Function.update mux.subsMap desc (some mux.names.length)
      hasRun := insert desc mux.hasRun
      names := mux.names ++ [desc]
      stage := Function.update mux.stage mux.names.length .made
      loop := .launch mux.names.length }
  | .launch i => some { mux with stage := Function.update mux.stage i .running, loop := .read }

/-- A step of the goroutine of subscriber `i`, which is at `stage`. -/
def stepSub (mux : Mux) (i : Nat) (stage : Stage) (after : List UInt8 → Mux) : Option Mux :=
  match mux.names[i]? with
  | some name => if mux.stage i = stage then some (after name) else none
  | none => none

def next (flags : Flags) (move : Move) (mux : Mux) : Option Mux :=
  if mux.halted then none
  else
    match move with
    | .advert jsstr =>
      match mux.loop with
      | .read => some (if jsstr ∈ mux.ignored then mux else { mux with loop := .mark jsstr })
      | _ => none
    | .readError =>
      match mux.loop with
      | .read => some { mux with halted := true }
      | _ => none
    | .loop => stepLoop flags mux
    | .exit i => stepSub mux i .running fun name => { mux with
        stage := Function.update mux.stage i .removed
        subsMap := Function.update mux.subsMap name none }
    | .renew i => stepSub mux i .removed fun _ => { mux with
        stage := Function.update mux.stage i .gone
        ignored := ∅ }
    | .fatal i => stepSub mux i .running fun _ => { mux with halted := true }

def run (flags : Flags) : List Move → Mux → Option Mux
  | [], mux => some mux
  | move :: rest, mux => (next flags move mux).bind (run flags rest)

/-! ## The invariant -/

/-- The loop has marked the text and has not come to the end of it. -/
def LoopAt.About (jsstr : List UInt8) : LoopAt → Prop
  | .look text _ => text = jsstr
  | .make text _ => text = jsstr
  | _ => False

def LoopAt.Knows (flags : Flags) (mux : Mux) : LoopAt → Prop
  | .look jsstr desc => judge flags jsstr = .wanted desc
  | .make jsstr desc => judge flags jsstr = .wanted desc ∧ mux.subsMap desc = none ∧
      (flags.restartOnExit = false → desc ∉ mux.hasRun)
  | .launch i => i < mux.names.length ∧ mux.stage i = .made
  | _ => True

structure Inv (flags : Flags) (mux : Mux) : Prop where
  inMap : ∀ desc i, mux.subsMap desc = some i ↔ mux.names[i]? = some desc ∧ (mux.stage i).Live
  ran : ∀ desc, desc ∈ mux.hasRun ↔ desc ∈ mux.names
  knows : mux.loop.Knows flags mux
  once : flags.restartOnExit = false → mux.names.Nodup
  ignored : ∀ jsstr desc, jsstr ∈ mux.ignored → judge flags jsstr = .wanted desc →
    (mux.subsMap desc).isSome ∨ (∃ i, i < mux.names.length ∧ mux.stage i = .removed) ∨
    mux.loop.About jsstr ∨ (flags.restartOnExit = false ∧ desc ∈ mux.hasRun)

namespace Inv

variable {flags : Flags} {mux mux' : Mux}

theorem initial (flags : Flags) : Inv flags initial := by
  refine ⟨?_, ?_, trivial, ?_, ?_⟩ <;> simp [Submux.initial]

/-- The loop goes on without a change to what is shared, and the text it was about may be
ignored. -/
theorem goTo (h : Inv flags mux) {place : LoopAt} (knows : place.Knows flags mux)
    (left : ∀ jsstr desc, mux.loop.About jsstr → judge flags jsstr = .wanted desc →
      (mux.subsMap desc).isSome ∨ place.About jsstr ∨
        (flags.restartOnExit = false ∧ desc ∈ mux.hasRun)) :
    Inv flags { mux with loop := place } := by
  refine ⟨h.inMap, h.ran, ?_, h.once, ?_⟩
  · cases place <;> exact knows
  · intro jsstr desc seen wanted
    rcases h.ignored jsstr desc seen wanted with present | gone | about | spent
    · exact Or.inl present
    · exact Or.inr (Or.inl gone)
    · rcases left jsstr desc about wanted with present | about | spent
      · exact Or.inl present
      · exact Or.inr (Or.inr (Or.inl about))
      · exact Or.inr (Or.inr (Or.inr spent))
    · exact Or.inr (Or.inr (Or.inr spent))

theorem halt (h : Inv flags mux) : Inv flags { mux with halted := true } := by
  refine ⟨h.inMap, h.ran, ?_, h.once, h.ignored⟩
  have knows := h.knows
  dsimp only
  cases loop : mux.loop <;> rw [loop] at knows <;> exact knows

/-- The text is marked. -/
theorem mark (h : Inv flags mux) {jsstr : List UInt8} (stands : mux.loop = .mark jsstr)
    {after : LoopAt} (knows : after.Knows flags mux)
    (about : ∀ desc, judge flags jsstr = .wanted desc → after.About jsstr) :
    Inv flags { mux with ignored := insert jsstr mux.ignored, loop := after } := by
  refine ⟨h.inMap, h.ran, ?_, h.once, ?_⟩
  · cases after <;> exact knows
  · intro text desc seen wanted
    rcases Finset.mem_insert.mp seen with rfl | seen
    · exact Or.inr (Or.inr (Or.inl (about desc wanted)))
    · rcases h.ignored text desc seen wanted with present | gone | about | spent
      · exact Or.inl present
      · exact Or.inr (Or.inl gone)
      · rw [stands] at about
        cases about
      · exact Or.inr (Or.inr (Or.inr spent))

/-- A subscriber is put into the map. -/
theorem make (h : Inv flags mux) {jsstr desc : List UInt8} (stands : mux.loop = .make jsstr desc) :
    Inv flags { mux with
      subsMap := Function.update mux.subsMap desc (some mux.names.length)
      hasRun := insert desc mux.hasRun
      names := mux.names ++ [desc]
      stage := Function.update mux.stage mux.names.length .made
      loop := .launch mux.names.length } := by
  obtain ⟨wanted, free, unspent⟩ : judge flags jsstr = .wanted desc ∧ mux.subsMap desc = none ∧
      (flags.restartOnExit = false → desc ∉ mux.hasRun) := by
    have knows := h.knows
    rw [stands] at knows
    exact knows
  have bound : ∀ i d, mux.names[i]? = some d → i < mux.names.length :=
    fun i d here => (List.getElem?_eq_some_iff.mp here).1
  refine ⟨?_, ?_, ⟨by simp, Function.update_self ..⟩, ?_, ?_⟩
  · intro d i
    dsimp only
    by_cases last : i = mux.names.length
    · rw [last, List.getElem?_concat_length, Function.update_self]
      by_cases same : d = desc
      · simp [same, Stage.Live]
      · rw [Function.update_of_ne same, h.inMap]
        simp [Ne.symm same]
    · rw [Function.update_of_ne last]
      have prior : (mux.names ++ [desc])[i]? = some d ↔ mux.names[i]? = some d := by
        by_cases inside : i < mux.names.length
        · rw [List.getElem?_append_left inside]
        · rw [List.getElem?_eq_none (by simp; omega), List.getElem?_eq_none (by omega)]
      rw [prior, ← h.inMap]
      by_cases same : d = desc
      · rw [same, Function.update_self, free]
        simp [Ne.symm last]
      · rw [Function.update_of_ne same]
  · intro d
    simp only [Finset.mem_insert, h.ran, List.mem_append, List.mem_singleton]
    exact or_comm
  · intro norestart
    have new : desc ∉ mux.names := fun here => unspent norestart ((h.ran desc).mpr here)
    refine List.nodup_append.mpr ⟨h.once norestart, List.nodup_singleton _, ?_⟩
    intro a here b last
    rw [List.mem_singleton.mp last]
    rintro rfl
    exact new here
  · intro text d seen wantedText
    dsimp only
    by_cases same : d = desc
    · left
      rw [same, Function.update_self]
      rfl
    · rw [Function.update_of_ne same]
      rcases h.ignored text d seen wantedText with present | ⟨i, inside, gone⟩ | about |
        ⟨norestart, spent⟩
      · exact Or.inl present
      · refine Or.inr (Or.inl ⟨i, ?_, ?_⟩)
        · rw [List.length_append]
          omega
        · rw [Function.update_of_ne (by omega)]
          exact gone
      · rw [stands] at about
        obtain rfl : jsstr = text := about
        rw [wanted] at wantedText
        cases wantedText
        exact absurd rfl same
      · exact Or.inr (Or.inr (Or.inr ⟨norestart, Finset.mem_insert_of_mem spent⟩))

/-- Its goroutine is started. -/
theorem launch (h : Inv flags mux) {i : Nat} (stands : mux.loop = .launch i) :
    Inv flags { mux with stage := Function.update mux.stage i .running, loop := .read } := by
  obtain ⟨inside, made⟩ : i < mux.names.length ∧ mux.stage i = .made := by
    have knows := h.knows
    rw [stands] at knows
    exact knows
  refine ⟨?_, h.ran, trivial, h.once, ?_⟩
  · intro d j
    dsimp only
    rw [h.inMap]
    by_cases hj : j = i
    · rw [hj, Function.update_self, made]
      rfl
    · rw [Function.update_of_ne hj]
  · intro text d seen wanted
    rcases h.ignored text d seen wanted with present | ⟨j, below, gone⟩ | about | spent
    · exact Or.inl present
    · refine Or.inr (Or.inl ⟨j, below, ?_⟩)
      have hj : j ≠ i := by
        rintro rfl
        rw [made] at gone
        cases gone
      dsimp only
      rw [Function.update_of_ne hj]
      exact gone
    · rw [stands] at about
      cases about
    · exact Or.inr (Or.inr (Or.inr spent))

/-- Its command has ended, and it is taken out of the map. -/
theorem exit (h : Inv flags mux) {i : Nat} {name : List UInt8} (here : mux.names[i]? = some name)
    (running : mux.stage i = .running) :
    Inv flags { mux with
      stage := Function.update mux.stage i .removed
      subsMap := Function.update mux.subsMap name none } := by
  have inside : i < mux.names.length := (List.getElem?_eq_some_iff.mp here).1
  have mine : mux.subsMap name = some i := (h.inMap name i).mpr ⟨here, by rw [running]; trivial⟩
  refine ⟨?_, h.ran, ?_, h.once, ?_⟩
  · intro d j
    dsimp only
    by_cases hj : j = i
    · rw [hj, Function.update_self, here]
      by_cases same : d = name
      · rw [same, Function.update_self]
        simp [Stage.Live]
      · rw [Function.update_of_ne same, h.inMap, here]
        simp [Ne.symm same]
    · rw [Function.update_of_ne hj, ← h.inMap]
      by_cases same : d = name
      · rw [same, Function.update_self, mine]
        simp [Ne.symm hj]
      · rw [Function.update_of_ne same]
  · have knows := h.knows
    dsimp only
    cases loop : mux.loop <;> rw [loop] at knows
    case make jsstr desc =>
      refine ⟨knows.1, ?_, knows.2.2⟩
      dsimp only
      rw [Function.update_apply]
      split
      · rfl
      · exact knows.2.1
    case launch k =>
      refine ⟨knows.1, ?_⟩
      have hk : k ≠ i := by
        rintro rfl
        cases running.symm.trans knows.2
      dsimp only
      rw [Function.update_of_ne hk]
      exact knows.2
    all_goals exact knows
  · intro text d seen wanted
    exact Or.inr (Or.inl ⟨i, inside, Function.update_self ..⟩)

/-- Nothing is ignored any more. -/
theorem renew (h : Inv flags mux) {i : Nat} (removed : mux.stage i = .removed) :
    Inv flags { mux with stage := Function.update mux.stage i .gone, ignored := ∅ } := by
  refine ⟨?_, h.ran, ?_, h.once, by simp⟩
  · intro d j
    dsimp only
    rw [h.inMap]
    by_cases hj : j = i
    · rw [hj, Function.update_self, removed]
      rfl
    · rw [Function.update_of_ne hj]
  · have knows := h.knows
    dsimp only
    cases loop : mux.loop <;> rw [loop] at knows
    case launch k =>
      refine ⟨knows.1, ?_⟩
      have hk : k ≠ i := by
        rintro rfl
        cases removed.symm.trans knows.2
      dsimp only
      rw [Function.update_of_ne hk]
      exact knows.2
    all_goals exact knows

theorem stepLoop (h : Inv flags mux) (step : Submux.stepLoop flags mux = some mux') :
    Inv flags mux' := by
  unfold Submux.stepLoop at step
  split at step
  case h_1 => cases step
  case h_2 jsstr loop =>
    dsimp only at step
    split at step
    · rename_i verdict
      obtain rfl := Option.some.inj step
      exact h.mark loop trivial (by simp [verdict])
    · rename_i verdict
      obtain rfl := Option.some.inj step
      have marked := @mark flags mux h jsstr loop (.mark jsstr) trivial (by simp [verdict])
      rw [← loop] at marked
      exact marked.halt
    · rename_i desc verdict
      obtain rfl := Option.some.inj step
      exact h.mark loop verdict fun _ _ => rfl
  case h_3 jsstr desc loop =>
    have wanted : judge flags jsstr = .wanted desc := by
      have knows := h.knows
      rw [loop] at knows
      exact knows
    split at step
    · rename_i present
      obtain rfl := Option.some.inj step
      refine h.goTo trivial fun text d about wantedText => ?_
      rw [loop] at about
      obtain rfl : jsstr = text := about
      rw [wanted] at wantedText
      cases wantedText
      exact Or.inl present
    · split at step
      · rename_i spent
        obtain rfl := Option.some.inj step
        refine h.goTo trivial fun text d about wantedText => ?_
        rw [loop] at about
        obtain rfl : jsstr = text := about
        rw [wanted] at wantedText
        cases wantedText
        exact Or.inr (Or.inr spent)
      · rename_i missing unspent
        obtain rfl := Option.some.inj step
        refine h.goTo ⟨wanted, ?_, fun norestart spent => unspent ⟨norestart, spent⟩⟩
          fun text d about _ => ?_
        · simpa using missing
        · rw [loop] at about
          exact Or.inr (Or.inl about)
  case h_4 jsstr desc loop =>
    obtain rfl := Option.some.inj step
    exact h.make loop
  case h_5 i loop =>
    obtain rfl := Option.some.inj step
    exact h.launch loop

theorem stepSub_some {i : Nat} {stage : Stage} {after : List UInt8 → Mux}
    (step : stepSub mux i stage after = some mux') :
    ∃ name, mux.names[i]? = some name ∧ mux.stage i = stage ∧ mux' = after name := by
  unfold stepSub at step
  split at step
  · rename_i name here
    split at step
    · rename_i stands
      exact ⟨name, here, stands, (Option.some.inj step).symm⟩
    · cases step
  · cases step

theorem next (h : Inv flags mux) {move : Move} (step : next flags move mux = some mux') :
    Inv flags mux' := by
  unfold Submux.next at step
  split at step
  · cases step
  · cases move with
    | advert jsstr =>
      dsimp only at step
      split at step
      · rename_i stands
        obtain rfl := Option.some.inj step
        split
        · exact h
        · refine h.goTo trivial fun text d about _ => ?_
          rw [stands] at about
          cases about
      · cases step
    | readError =>
      dsimp only at step
      split at step
      · obtain rfl := Option.some.inj step
        exact h.halt
      · cases step
    | loop => exact h.stepLoop step
    | exit i =>
      obtain ⟨name, here, running, rfl⟩ := stepSub_some step
      exact h.exit here running
    | renew i =>
      obtain ⟨name, here, removed, rfl⟩ := stepSub_some step
      exact h.renew removed
    | fatal i =>
      obtain ⟨name, here, running, rfl⟩ := stepSub_some step
      exact h.halt

theorem run (h : Inv flags mux) {moves : List Move} (steps : run flags moves mux = some mux') :
    Inv flags mux' := by
  induction moves generalizing mux with
  | nil =>
    obtain rfl := Option.some.inj steps
    exact h
  | cons move rest ih =>
    obtain ⟨mid, first, more⟩ := Option.bind_eq_some_iff.mp steps
    exact ih (h.next first) more

end Inv

/-- Two subscribers in the map are for different descriptions. -/
theorem Inv.distinct {flags : Flags} {mux : Mux} (h : Inv flags mux) {i j : Nat} {desc : List UInt8}
    (first : mux.names[i]? = some desc) (second : mux.names[j]? = some desc)
    (liveFirst : (mux.stage i).Live) (liveSecond : (mux.stage j).Live) : i = j := by
  have one := (h.inMap desc i).mpr ⟨first, liveFirst⟩
  have other := (h.inMap desc j).mpr ⟨second, liveSecond⟩
  exact Option.some.inj (one.symm.trans other)

/-! ## A subscriber is started -/

/-- A step of the loop, or one of a goroutine that goes on. -/
def Move.Plain : Move → Prop
  | .loop => True
  | .exit _ => True
  | .renew _ => True
  | _ => False

/-- Where the loop is after so many steps with an advertisement that starts subscriber `i`. -/
def LoopAt.along (jsstr desc : List UInt8) (i : Nat) : Nat → LoopAt
  | 0 => .mark jsstr
  | 1 => .look jsstr desc
  | 2 => .make jsstr desc
  | 3 => .launch i
  | _ => .read

/-- The loop has taken `k` steps with an advertisement. `left` says that the new subscriber has had
the time to exit. -/
structure Starting (before : Mux) (jsstr desc : List UInt8) (k : Nat) (left : Prop) (mux : Mux) :
    Prop where
  alive : mux.halted = false
  loop : mux.loop = .along jsstr desc before.names.length k
  early : k < 3 → mux.names = before.names ∧ mux.subsMap desc = none ∧ mux.hasRun = before.hasRun
  late : 3 ≤ k → mux.names = before.names ++ [desc]
  made : k = 3 → mux.stage before.names.length = .made
  running : 4 ≤ k → mux.stage before.names.length = .running ∨ left

namespace Starting

variable {flags : Flags} {before mux mux' : Mux} {jsstr desc : List UInt8} {k : Nat} {left : Prop}

/-- Each of the four steps can be taken, and leads to the next. -/
theorem loops (h : Starting before jsstr desc k left mux)
    (wanted : judge flags jsstr = .wanted desc)
    (unspent : ¬ (flags.restartOnExit = false ∧ desc ∈ before.hasRun)) (few : k < 4) :
    ∃ mux', stepLoop flags mux = some mux' ∧ Starting before jsstr desc (k + 1) left mux' := by
  have place := h.loop
  obtain rfl | rfl | rfl | rfl : k = 0 ∨ k = 1 ∨ k = 2 ∨ k = 3 := by omega
  · have step : stepLoop flags mux = some { mux with
        ignored := insert jsstr mux.ignored, loop := .look jsstr desc } := by
      simp only [stepLoop, place, LoopAt.along, wanted]
    exact ⟨_, step, h.alive, rfl, fun _ => h.early (by decide), by omega, by omega, by omega⟩
  · obtain ⟨names, free, ran⟩ := h.early (by decide)
    have step : stepLoop flags mux = some { mux with loop := .make jsstr desc } := by
      simp only [stepLoop, place, LoopAt.along, free, ran, unspent, Option.isSome_none,
        Bool.false_eq_true, ↓reduceIte]
    exact ⟨_, step, h.alive, rfl, fun _ => h.early (by decide), by omega, by omega, by omega⟩
  · obtain ⟨names, free, ran⟩ := h.early (by decide)
    have step : stepLoop flags mux = some { mux with
        subsMap := Function.update mux.subsMap desc (some mux.names.length)
        hasRun := insert desc mux.hasRun
        names := mux.names ++ [desc]
        stage := Function.update mux.stage mux.names.length .made
        loop := .launch mux.names.length } := by
      simp only [stepLoop, place, LoopAt.along]
    refine ⟨_, step, h.alive, by rw [names]; rfl, by omega, fun _ => by rw [names], fun _ => ?_, by omega⟩
    rw [names]
    exact Function.update_self ..
  · have step : stepLoop flags mux = some { mux with
        stage := Function.update mux.stage before.names.length .running, loop := .read } := by
      simp only [stepLoop, place, LoopAt.along]
    exact ⟨_, step, h.alive, rfl, by omega, fun _ => h.late (by decide), by omega,
      fun _ => Or.inl (Function.update_self ..)⟩

/-- A goroutine leaves the loop where it is, and only the subscriber's own takes the subscriber
out. -/
theorem goroutine (h : Starting before jsstr desc k left mux) {i : Nat} {stage stage' : Stage}
    (active : mux.stage i = stage) (old : stage ≠ .made) (ignored : Finset (List UInt8))
    {subsMap : List UInt8 → Option Nat} (free : mux.subsMap desc = none → subsMap desc = none) :
    Starting before jsstr desc k (left ∨ i = before.names.length ∧ stage = .running) { mux with
      ignored := ignored, subsMap := subsMap, stage := Function.update mux.stage i stage' } := by
  refine ⟨h.alive, h.loop, fun early => ?_, h.late, fun three => ?_, fun four => ?_⟩
  · obtain ⟨names, vacant, ran⟩ := h.early early
    exact ⟨names, free vacant, ran⟩
  · have made := h.made three
    have other : before.names.length ≠ i := by
      rintro rfl
      exact old (active.symm.trans made)
    dsimp only
    rw [Function.update_of_ne other]
    exact made
  · rcases h.running four with running | gone
    · by_cases mine : i = before.names.length
      · refine Or.inr (Or.inr ⟨mine, ?_⟩)
        rw [← active, mine]
        exact running
      · left
        dsimp only
        rw [Function.update_of_ne (Ne.symm mine)]
        exact running
    · exact Or.inr (Or.inl gone)

theorem weaken {left' : Prop} (h : Starting before jsstr desc k left mux) (more : left → left') :
    Starting before jsstr desc k left' mux :=
  ⟨h.alive, h.loop, h.early, h.late, h.made, fun four => (h.running four).imp_right more⟩

theorem next (h : Starting before jsstr desc k left mux) (wanted : judge flags jsstr = .wanted desc)
    (unspent : ¬ (flags.restartOnExit = false ∧ desc ∈ before.hasRun)) {move : Move}
    (plain : move.Plain) (step : next flags move mux = some mux') :
    Starting before jsstr desc (k + [move].count .loop) (left ∨ move = .exit before.names.length) mux' := by
  have alive : ¬ mux.halted = true := by
    rw [h.alive]
    exact Bool.false_ne_true
  unfold Submux.next at step
  rw [if_neg alive] at step
  cases move with
  | loop =>
    have few : k < 4 := by
      by_contra done
      obtain ⟨n, rfl⟩ : ∃ n, k = n + 4 := ⟨k - 4, by omega⟩
      have place : mux.loop = .read := h.loop
      simp [stepLoop, place] at step
    obtain ⟨mux'', taken, after⟩ := h.loops wanted unspent few
    obtain rfl := Option.some.inj (taken.symm.trans step)
    exact after.weaken Or.inl
  | exit i =>
    obtain ⟨name, here, active, rfl⟩ := Inv.stepSub_some step
    refine (h.goroutine active nofun mux.ignored (fun free => ?_)).weaken ?_
    · rw [Function.update_apply]
      split
      · rfl
      · exact free
    · exact Or.imp_right fun mine => congrArg Move.exit mine.1
  | renew i =>
    obtain ⟨name, here, active, rfl⟩ := Inv.stepSub_some step
    refine (h.goroutine active nofun ∅ id).weaken ?_
    exact Or.imp_right fun mine => absurd mine.2 nofun
  | _ => exact plain.elim

theorem run (h : Starting before jsstr desc k left mux) (wanted : judge flags jsstr = .wanted desc)
    (unspent : ¬ (flags.restartOnExit = false ∧ desc ∈ before.hasRun)) {moves : List Move}
    (plain : ∀ move ∈ moves, move.Plain) (ran : run flags moves mux = some mux') :
    Starting before jsstr desc (k + moves.count .loop) (left ∨ .exit before.names.length ∈ moves) mux' := by
  induction moves generalizing k left mux with
  | nil =>
    obtain rfl := Option.some.inj ran
    exact h.weaken Or.inl
  | cons move rest ih =>
    obtain ⟨mid, first, more⟩ := Option.bind_eq_some_iff.mp ran
    have moved := h.next wanted unspent (plain move List.mem_cons_self) first
    have after := ih moved (fun m here => plain m (List.mem_cons_of_mem move here)) more
    have steps : k + (move :: rest).count .loop = k + [move].count .loop + rest.count .loop := by
      rw [← List.singleton_append, List.count_append, Nat.add_assoc]
    rw [steps]
    refine after.weaken ?_
    rintro ((out | rfl) | out)
    · exact Or.inl out
    · exact Or.inr List.mem_cons_self
    · exact Or.inr (List.mem_cons_of_mem move out)

theorem next_loop (alive : mux.halted = false) :
    Submux.next flags .loop mux = stepLoop flags mux := by
  rw [Submux.next, alive, if_neg Bool.false_ne_true]

/-- The loop can take its steps in a row. -/
theorem completes (h : Starting before jsstr desc k left mux)
    (wanted : judge flags jsstr = .wanted desc)
    (unspent : ¬ (flags.restartOnExit = false ∧ desc ∈ before.hasRun)) {n : Nat} (few : k + n ≤ 4) :
    ∃ mux', Submux.run flags (List.replicate n .loop) mux = some mux' := by
  induction n generalizing k mux with
  | zero => exact ⟨mux, rfl⟩
  | succ n ih =>
    obtain ⟨mid, step, after⟩ := h.loops wanted unspent (by omega)
    obtain ⟨mux', ran⟩ := ih after (by omega)
    refine ⟨mux', ?_⟩
    rw [List.replicate_succ, Submux.run, next_loop h.alive, step]
    exact ran

end Starting

/-- The loop waits, no goroutine is on its way out, and there is no subscriber for a description
that may be started: an advertisement of it is not ignored. -/
theorem Inv.accepts {flags : Flags} {mux : Mux} (h : Inv flags mux) {jsstr desc : List UInt8}
    (wanted : judge flags jsstr = .wanted desc) (alive : mux.halted = false)
    (waits : mux.loop = .read) (settled : ∀ i, i < mux.names.length → mux.stage i ≠ .removed)
    (absent : ∀ i, mux.names[i]? = some desc → ¬ (mux.stage i).Live)
    (allowed : flags.restartOnExit = true ∨ desc ∉ mux.names) :
    ¬ (flags.restartOnExit = false ∧ desc ∈ mux.hasRun) ∧
      ∃ marking, Submux.next flags (.advert jsstr) mux = some marking ∧
        Starting mux jsstr desc 0 False marking := by
  have free : mux.subsMap desc = none := by
    cases found : mux.subsMap desc with
    | none => rfl
    | some i =>
      obtain ⟨here, live⟩ := (h.inMap desc i).mp found
      exact absurd live (absent i here)
  have unspent : ¬ (flags.restartOnExit = false ∧ desc ∈ mux.hasRun) := by
    rintro ⟨norestart, spent⟩
    rcases allowed with restart | new
    · rw [restart] at norestart
      cases norestart
    · exact new ((h.ran desc).mp spent)
  have unseen : jsstr ∉ mux.ignored := by
    intro seen
    rcases h.ignored jsstr desc seen wanted with taken | ⟨i, inside, removed⟩ | about | spent
    · rw [free] at taken
      cases taken
    · exact settled i inside removed
    · rw [waits] at about
      cases about
    · exact unspent spent
  refine ⟨unspent, { mux with loop := .mark jsstr }, ?_, ?_⟩
  · simp only [Submux.next, alive, waits, unseen, Bool.false_eq_true, ↓reduceIte]
  · exact ⟨alive, rfl, fun _ => ⟨rfl, free, rfl⟩, by omega, by omega, by omega⟩

/-- However the loop and the goroutines of the subscribers take turns, and whatever is advertised:
at most one subscriber for a description is made and not yet out of the map; without restarts there
is at most one ever; and once every goroutine on its way out has renewed `ignore`, the next
advertisement of a description that has no subscriber, and may have one, starts it, whatever the
goroutines do between the steps of the loop, unless one of them ends submux. -/
theorem one_subscriber_each (flags : Flags) {moves : List Move} {mux : Mux}
    (ran : run flags moves initial = some mux) :
    (∀ i j desc, mux.names[i]? = some desc → mux.names[j]? = some desc → (mux.stage i).Live →
      (mux.stage j).Live → i = j) ∧
    (flags.restartOnExit = false → mux.names.Nodup) ∧
    ∀ jsstr desc, judge flags jsstr = .wanted desc → mux.halted = false → mux.loop = .read →
      (∀ i, i < mux.names.length → mux.stage i ≠ .removed) →
      (∀ i, mux.names[i]? = some desc → ¬ (mux.stage i).Live) →
      (flags.restartOnExit = true ∨ desc ∉ mux.names) →
      (∃ mux', run flags [.advert jsstr, .loop, .loop, .loop, .loop] mux = some mux' ∧
        mux'.names = mux.names ++ [desc] ∧ mux'.stage mux.names.length = .running ∧
        mux'.loop = .read) ∧
      ∀ moves mux', (∀ move ∈ moves, move.Plain) →
        run flags (.advert jsstr :: moves) mux = some mux' →
        (moves.count .loop < 4 → (next flags .loop mux').isSome) ∧
        (moves.count .loop = 4 → mux'.names = mux.names ++ [desc] ∧ mux'.loop = .read ∧
          (mux'.stage mux.names.length = .running ∨ .exit mux.names.length ∈ moves)) := by
  have h := (Inv.initial flags).run ran
  refine ⟨?_, h.once, ?_⟩
  · intro i j desc first second liveFirst liveSecond
    exact h.distinct first second liveFirst liveSecond
  · intro jsstr desc wanted alive waits settled absent allowed
    obtain ⟨unspent, marking, read, starting⟩ := h.accepts wanted alive waits settled absent allowed
    constructor
    · obtain ⟨mux', steps⟩ := starting.completes wanted unspent (n := 4) (by decide)
      have started := starting.run wanted unspent (by simp [Move.Plain]) steps
      refine ⟨mux', ?_, started.late (by decide), ?_, started.loop⟩
      · rw [run, read]
        exact steps
      · exact (started.running (by decide)).resolve_right (by simp)
    · intro moves mux' plain steps
      rw [run, read] at steps
      have started := starting.run wanted unspent plain steps
      rw [Nat.zero_add] at started
      constructor
      · intro few
        obtain ⟨after, step, -⟩ := started.loops wanted unspent few
        rw [Starting.next_loop started.alive, step]
        rfl
      · intro four
        rw [four] at started
        exact ⟨started.late (by decide), started.loop,
          (started.running (by decide)).imp_right fun out => out.resolve_left id⟩

def anyFlags : Flags := ⟨Text.ascii "*", Text.ascii "test", fun _ => true, fun _ => true, true⟩

def LoopAt.isRead : LoopAt → Bool
  | .read => true
  | _ => false

def feedAdvert : List UInt8 := Text.ascii
  "\x7b\"hostname\":\"h\",\"env\":\"test\",\"version\":\"2.0\",\"data\":[\x7b\"port\":1,\"description\":\"a\"\x7d]\x7d"

/-- The subscriber of "a" is started, seen again in an advertisement, and exits; then the next
advertisement starts another one. -/
theorem one_subscriber_each_restarted : ∃ mux mux',
    run anyFlags [.advert feedAdvert, .loop, .loop, .loop, .loop, .advert feedAdvert,
      .exit 0, .renew 0]
      initial = some mux ∧
    run anyFlags [.advert feedAdvert, .loop, .loop, .loop, .loop] mux = some mux' ∧
    mux'.names = [Text.ascii "a", Text.ascii "a"] ∧ mux'.stage 1 = .running := by
  have wanted : judge anyFlags feedAdvert = .wanted (Text.ascii "a") := by
    decide +kernel
  have ends : (run anyFlags [.advert feedAdvert, .loop, .loop, .loop, .loop,
    .advert feedAdvert, .exit 0,
      .renew 0] initial).any (fun mux => decide (mux.names = [Text.ascii "a"] ∧ mux.stage 0 = .gone ∧
        mux.halted = false) && mux.loop.isRead) = true := by
    decide +kernel
  obtain ⟨mux, ran, stands⟩ := (Option.any_eq_true _ _).mp ends
  obtain ⟨facts, loop⟩ := Bool.and_eq_true_iff.mp stands
  obtain ⟨names, gone, alive⟩ := of_decide_eq_true facts
  have waits : mux.loop = .read := by
    cases stands : mux.loop <;> rw [stands] at loop <;> first | rfl | cases loop
  have only : ∀ i, i < mux.names.length → i = 0 := by
    rw [names]
    intro i below
    exact Nat.lt_one_iff.mp below
  obtain ⟨mux', more, after, running, _⟩ := ((one_subscriber_each anyFlags ran).2.2 feedAdvert
    (Text.ascii "a") wanted alive waits
    (fun i below => by rw [only i below, gone]; decide)
    (fun i here => by rw [only i (List.getElem?_eq_some_iff.mp here).1, gone]; exact id)
    (Or.inl rfl)).1
  rw [names] at after running
  exact ⟨mux, mux', ran, more, after, running⟩

end Submux

end Lancaster
