import Lancaster.Ports

/-!
# The launches of the publishers

`Run` of the commander starts a process, waits for its end and starts it again, with hooks
before the start and after the end. The hooks of `pubmux` reserve a port before each start and
give it back after each end. Every publisher has a `Run` of its own; they take turns in any
order, and share the ports.
-/

namespace Lancaster

inductive RunAt where
  /-- At the condition of the loop. -/
  | loop
  | beforeStart
  | start
  | afterStart
  /-- After `AfterStart` has failed: the process is killed and waited for. -/
  | kill
  | wait
  /-- At `AfterStop` for a process that was killed. -/
  | afterKill
  /-- At `AfterStop` for a process that has ended. -/
  | afterStop
  /-- After the loop. -/
  | exit
  | returned
deriving DecidableEq

/-- A command, with the port in the state of its hooks, and what has come of the ports. -/
structure Publisher where
  autoRestart : Bool
  launchCount : Nat
  /-- Whether `Cmd` is set. -/
  cmd : Bool
  failure : Option String
  /-- How often `stopped` has been closed. -/
  closes : Nat
  port : Int
  standing : RunAt
  events : List PortEvent

namespace Publisher

def new (autoRestart : Bool) : Publisher := ⟨autoRestart, 0, false, none, 0, 0, .loop, []⟩

/-- One step of `Run`. An outcome is the error of the hook or of the start, if there is one.
The error of the wait is only logged. -/
def step (picker : PortPicker) (pub : Publisher) (outcome : Option String) :
    PortPicker × Publisher :=
  match pub.standing with
  | .loop =>
    if pub.autoRestart || pub.launchCount == 0 then
      (picker, { pub with launchCount := pub.launchCount + 1, standing := .beforeStart })
    else (picker, { pub with standing := .exit })
  | .beforeStart =>
    match picker.reservePort with
    | (.ok port, picker) =>
      (picker, { pub with port := port, standing := .start, events := pub.events ++ [.reserved port] })
    | (.error err, picker) =>
      (picker, { pub with
        port := 0, failure := some err, standing := .exit, events := pub.events ++ [.refused err] })
  | .start =>
    match outcome with
    | none => (picker, { pub with cmd := true, standing := .afterStart })
    -- the only return out of the loop: `AfterStop` and the close are passed over
    | some err => (picker, { pub with cmd := false, failure := some err, standing := .returned })
  | .afterStart =>
    match outcome with
    | none => (picker, { pub with standing := .wait })
    | some err => (picker, { pub with failure := some err, standing := .kill })
  | .kill => (picker, { pub with cmd := false, standing := .afterKill })
  | .wait => (picker, { pub with cmd := false, standing := .afterStop })
  | .afterKill =>
    (picker.releasePort pub.port, { pub with
      port := 0, standing := .exit, events := pub.events ++ [.released pub.port] })
  | .afterStop =>
    let after : Publisher := { pub with port := 0, events := pub.events ++ [.released pub.port] }
    match outcome with
    | none => (picker.releasePort pub.port, { after with standing := .loop })
    | some err => (picker.releasePort pub.port, { after with failure := some err, standing := .exit })
  | .exit => (picker, { pub with closes := pub.closes + 1, cmd := false, standing := .returned })
  | .returned => (picker, pub)

/-- A launch is under way from `BeforeStart` until `AfterStop`. -/
def launched (pub : Publisher) : Bool :=
  match pub.standing with
  | .start | .afterStart | .kill | .wait | .afterKill | .afterStop => true
  | .loop | .beforeStart | .exit | .returned => false

def held (pub : Publisher) : List Int := if pub.launched then [pub.port] else []

/-- The launch is between a hook and the process. -/
def turning (pub : Publisher) : Bool :=
  match pub.standing with
  | .start | .afterKill | .afterStop => true
  | _ => false

structure Consistent (pub : Publisher) : Prop where
  outstanding_eq : outstanding pub.events = pub.held.toFinset
  cmd_eq : pub.cmd = (pub.launched && !pub.turning)
  closes_eq : pub.closes = if pub.standing = .returned then 1 else 0

theorem consistent_new (autoRestart : Bool) : Consistent (new autoRestart) := ⟨rfl, rfl, rfl⟩

/-- What a step may do with the ports in use, and with the port of the publisher. -/
inductive Turn (inUse : Finset Int) (held : List Int) (inUse' : Finset Int) (held' : List Int) :
    Prop where
  | keep (same : inUse' = inUse) (same_held : held' = held)
  | take (port : Int) (free : port ∉ inUse) (taken : inUse' = insert port inUse)
      (before : held = []) (after : held' = [port])
  | give (port : Int) (given : inUse' = inUse.erase port) (before : held = [port]) (after : held' = [])

/-- A step leaves the picker sound. -/
theorem step_sound {picker : PortPicker} {pub : Publisher} {outcome : Option String}
    (sound : picker.Sound) :
    (step picker pub outcome).1.Sound := by
  have reserved := sound.reservePort.1
  obtain ⟨autoRestart, launchCount, cmd, failure, closes, port, standing, events⟩ := pub
  unfold step
  cases standing with
  | beforeStart =>
    dsimp only
    rcases eq : picker.reservePort with ⟨err | port, after⟩
    · rw [eq] at reserved
      exact reserved
    · rw [eq] at reserved
      exact reserved
  | afterKill => exact sound.releasePort port
  | afterStop =>
    cases outcome with
    | none => exact sound.releasePort port
    | some err => exact sound.releasePort port
  | loop =>
    dsimp only
    split
    · exact sound
    · exact sound
  | start =>
    cases outcome with
    | none => exact sound
    | some err => exact sound
  | afterStart =>
    cases outcome with
    | none => exact sound
    | some err => exact sound
  | _ => exact sound

theorem released_held {events : List PortEvent} {port : Int} (one : outstanding events = {port}) :
    outstanding (events ++ [.released port]) = ∅ := by
  rw [outstanding_snoc, one]
  exact Finset.erase_singleton port

/-- A step that is not a failed start keeps the publisher consistent, and the port that it
holds is the one that is in use for it. -/
theorem Consistent.step {picker : PortPicker} {pub : Publisher} (h : Consistent pub)
    (sound : picker.Sound)
    {outcome : Option String} (starts : pub.standing = .start → outcome = none) :
    Consistent (step picker pub outcome).2 ∧
    Turn picker.inUse pub.held (step picker pub outcome).1.inUse (step picker pub outcome).2.held := by
  obtain ⟨out, cmd_eq, closes_eq⟩ := h
  -- with the standing known, all but the ports is read off the definitions
  obtain ⟨autoRestart, launchCount, cmd, failure, closes, port, standing, events⟩ := pub
  cases standing with
  | loop =>
    unfold Publisher.step
    dsimp only
    split
    · exact ⟨⟨out, cmd_eq, closes_eq⟩, .keep rfl rfl⟩
    · exact ⟨⟨out, cmd_eq, closes_eq⟩, .keep rfl rfl⟩
  | beforeStart =>
    have reserved := @sound.reserved
    have refused := @sound.refused
    unfold Publisher.step
    dsimp only
    rcases eq : picker.reservePort with ⟨err | port, after⟩
    · rw [eq] at refused
      refine ⟨⟨?_, cmd_eq, closes_eq⟩, .keep (refused rfl) rfl⟩
      rw [outstanding_snoc]
      exact out
    · rw [eq] at reserved
      obtain ⟨free, taken⟩ := reserved rfl
      refine ⟨⟨?_, cmd_eq, closes_eq⟩, .take port free taken rfl rfl⟩
      rw [outstanding_snoc]
      exact congrArg (insert port) out
  | start =>
    rw [starts rfl]
    exact ⟨⟨out, rfl, closes_eq⟩, .keep rfl rfl⟩
  | afterStart =>
    cases outcome with
    | none => exact ⟨⟨out, cmd_eq, closes_eq⟩, .keep rfl rfl⟩
    | some err => exact ⟨⟨out, cmd_eq, closes_eq⟩, .keep rfl rfl⟩
  | kill => exact ⟨⟨out, rfl, closes_eq⟩, .keep rfl rfl⟩
  | wait => exact ⟨⟨out, rfl, closes_eq⟩, .keep rfl rfl⟩
  | afterKill => exact ⟨⟨released_held out, cmd_eq, closes_eq⟩, .give port rfl rfl rfl⟩
  | afterStop =>
    cases outcome with
    | none => exact ⟨⟨released_held out, cmd_eq, closes_eq⟩, .give port rfl rfl rfl⟩
    | some err => exact ⟨⟨released_held out, cmd_eq, closes_eq⟩, .give port rfl rfl rfl⟩
  | exit => exact ⟨⟨out, rfl, congrArg (· + 1) closes_eq⟩, .keep rfl rfl⟩
  | returned => exact ⟨⟨out, cmd_eq, closes_eq⟩, .keep rfl rfl⟩

/-- A failed start returns, and closes nothing. -/
theorem step_start_fails {picker : PortPicker} {pub : Publisher} {outcome : Option String}
    (fails : pub.standing = .start) (err : outcome ≠ none) :
    (step picker pub outcome).2.standing = .returned ∧
      (step picker pub outcome).2.closes = pub.closes := by
  cases outcome with
  | none => exact absurd rfl err
  | some err =>
    unfold step
    rw [fails]
    exact ⟨rfl, rfl⟩

end Publisher

/-! ## All publishers, in any order of steps -/

structure Pubmux where
  picker : PortPicker
  publishers : List Publisher

inductive PubmuxEvent where
  /-- `startIfNeeded` has found a new file: a command is made, and its `Run` begins. -/
  | launch (restartOnExit : Bool)
  | step (i : Nat) (outcome : Option String)
  /-- `Stop` of a command, which only takes back the restart; that its process ends is a step
  of the command itself. -/
  | stop (i : Nat)

namespace Pubmux

open Publisher

def initial (range : PortRange) : Pubmux := ⟨PortPicker.initial range, []⟩

def step (mux : Pubmux) : PubmuxEvent → Pubmux
  | .launch restartOnExit => { mux with publishers := mux.publishers ++ [Publisher.new restartOnExit] }
  | .step i outcome =>
    match mux.publishers[i]? with
    | none => mux
    | some pub =>
      let (picker, pub) := Publisher.step mux.picker pub outcome
      ⟨picker, mux.publishers.set i pub⟩
  | .stop i =>
    match mux.publishers[i]? with
    | none => mux
    | some pub => { mux with publishers := mux.publishers.set i { pub with autoRestart := false } }

def run (range : PortRange) (events : List PubmuxEvent) : Pubmux :=
    events.foldl step (initial range)

def StartFails (mux : Pubmux) (event : PubmuxEvent) : Prop :=
  ∃ i pub err, event = .step i (some err) ∧ mux.publishers[i]? = some pub ∧ pub.standing = .start

/-- Whoever has returned has given back all ports, closed `stopped` once and cleared `Cmd`;
as many ports are in use as launches are under way, which are as many as there are processes
unless one of the launches is between a hook and its process. -/
def Accounted (mux : Pubmux) : Prop :=
  (∀ pub ∈ mux.publishers, pub.standing = .returned →
    outstanding pub.events = ∅ ∧ pub.closes = 1 ∧ pub.cmd = false) ∧
  mux.picker.inUse.card = mux.publishers.countP launched ∧
  ((∀ pub ∈ mux.publishers, pub.turning = false) →
    mux.picker.inUse.card = mux.publishers.countP Publisher.cmd)

def heldPorts (publishers : List Publisher) : List Int := publishers.flatMap held

/-- No two launches hold the same port, and these are the ports in use. -/
structure Balanced (mux : Pubmux) : Prop where
  sound : mux.picker.Sound
  consistent : ∀ pub ∈ mux.publishers, Consistent pub
  distinct : (heldPorts mux.publishers).Nodup
  inUse_eq : mux.picker.inUse = (heldPorts mux.publishers).toFinset

theorem length_heldPorts (publishers : List Publisher) :
    (heldPorts publishers).length = publishers.countP launched := by
  induction publishers with
  | nil => rfl
  | cons pub publishers ih =>
    rw [heldPorts, List.flatMap_cons, List.length_append, List.countP_cons, Nat.add_comm]
    unfold held
    split
    · exact congrArg (· + 1) ih
    · exact ih

theorem Balanced.accounted {mux : Pubmux} (h : Balanced mux) : Accounted mux := by
  have count : mux.picker.inUse.card = mux.publishers.countP launched := by
    rw [h.inUse_eq, List.toFinset_card_of_nodup h.distinct, length_heldPorts]
  refine ⟨?_, count, ?_⟩
  · intro pub here returned
    obtain ⟨out, cmd, closes⟩ := h.consistent pub here
    have idle : pub.launched = false := by simp [launched, returned]
    refine ⟨?_, ?_, ?_⟩
    · simpa [held, idle] using out
    · simpa [returned] using closes
    · simpa [idle] using cmd
  · intro steady
    rw [count]
    apply List.countP_congr
    intro pub here
    rw [(h.consistent pub here).cmd_eq, steady pub here]
    simp

/-- A publisher takes its step, and the ports with it. -/
theorem Balanced.turn {picker picker' : PortPicker} {front back : List Publisher}
    {pub pub' : Publisher}
    (h : Balanced ⟨picker, front ++ pub :: back⟩) (sound : picker'.Sound)
    (consistent : Consistent pub') (turn : Turn picker.inUse pub.held picker'.inUse pub'.held) :
    Balanced ⟨picker', front ++ pub' :: back⟩ := by
  -- the port of the publisher is put before those of all others
  have moved (pub : Publisher) :
      (heldPorts (front ++ pub :: back)).Perm (pub.held ++ heldPorts (front ++ back)) := by
    unfold heldPorts
    rw [List.flatMap_append, List.flatMap_append, List.flatMap_cons]
    exact List.perm_append_comm_assoc _ _ _
  have distinct : (pub.held ++ heldPorts (front ++ back)).Nodup :=
    (moved pub).nodup_iff.mp h.distinct
  have used : picker.inUse = (pub.held ++ heldPorts (front ++ back)).toFinset :=
    h.inUse_eq.trans (List.toFinset_eq_of_perm _ _ (moved pub))
  have goal : (pub'.held ++ heldPorts (front ++ back)).Nodup ∧
      picker'.inUse = (pub'.held ++ heldPorts (front ++ back)).toFinset := by
    cases turn with
    | keep same same_held =>
      rw [same, same_held]
      exact ⟨distinct, used⟩
    | take port free taken before after =>
      rw [before, List.nil_append] at distinct used
      rw [taken, after, used]
      refine ⟨List.nodup_cons.mpr ⟨?_, distinct⟩, ?_⟩
      · intro here
        rw [used, List.mem_toFinset] at free
        exact free here
      · exact List.toFinset_cons.symm
    | give port given before after =>
      rw [before, List.singleton_append] at distinct used
      obtain ⟨other, distinct⟩ := List.nodup_cons.mp distinct
      rw [given, after, used, List.nil_append]
      refine ⟨distinct, ?_⟩
      rw [List.toFinset_cons, Finset.erase_insert]
      rwa [List.mem_toFinset]
  constructor
  · exact sound
  · intro other here
    rcases List.mem_append.mp here with here | here
    · exact h.consistent other (List.mem_append_left _ here)
    · rcases List.mem_cons.mp here with rfl | here
      · exact consistent
      · exact h.consistent other (List.mem_append_right _ (List.mem_cons_of_mem _ here))
  · exact (moved pub').nodup_iff.mpr goal.1
  · exact goal.2.trans (List.toFinset_eq_of_perm _ _ (moved pub')).symm

theorem split_at {publishers : List Publisher} {i : Nat} {pub : Publisher}
    (here : publishers[i]? = some pub) :
    ∃ front back, publishers = front ++ pub :: back ∧
      ∀ pub', publishers.set i pub' = front ++ pub' :: back := by
  obtain ⟨less, rfl⟩ := List.getElem?_eq_some_iff.mp here
  refine ⟨publishers.take i, publishers.drop (i + 1), ?_, ?_⟩
  · rw [List.getElem_cons_drop, List.take_append_drop]
  · intro pub'
    exact List.set_eq_take_append_cons_drop.trans (if_pos less)

theorem Balanced.step {mux : Pubmux} (h : Balanced mux) {event : PubmuxEvent}
    (starts : ¬ StartFails mux event) : Balanced (mux.step event) := by
  obtain ⟨picker, publishers⟩ := mux
  cases event with
  | launch restartOnExit =>
    have same : heldPorts (publishers ++ [Publisher.new restartOnExit]) = heldPorts publishers := by
      rw [heldPorts, List.flatMap_append]
      exact List.append_nil _
    unfold Pubmux.step
    refine ⟨h.sound, ?_, same ▸ h.distinct, same ▸ h.inUse_eq⟩
    intro pub here
    rcases List.mem_append.mp here with here | here
    · exact h.consistent pub here
    · rw [List.mem_singleton.mp here]
      exact consistent_new restartOnExit
  | step i outcome =>
    unfold Pubmux.step
    dsimp only
    split
    · exact h
    · rename_i pub here
      obtain ⟨front, back, rfl, replaced⟩ := split_at here
      have consistent := h.consistent pub (List.mem_append_right _ (List.mem_cons_self ..))
      have absent : pub.standing = .start → outcome = none := by
        intro start
        cases outcome with
        | none => rfl
        | some err => exact absurd ⟨i, pub, err, rfl, here, start⟩ starts
      obtain ⟨consistent, turn⟩ := consistent.step h.sound absent
      rw [replaced]
      exact h.turn (step_sound h.sound) consistent turn
  | stop i =>
    unfold Pubmux.step
    dsimp only
    split
    · exact h
    · rename_i pub here
      obtain ⟨front, back, rfl, replaced⟩ := split_at here
      obtain ⟨out, cmd, closes⟩ := h.consistent pub (List.mem_append_right _ (List.mem_cons_self ..))
      rw [replaced]
      exact h.turn h.sound ⟨out, cmd, closes⟩ (.keep rfl rfl)

theorem balanced_initial (range : PortRange) : Balanced (initial range) := by
  refine ⟨PortPicker.sound_initial range, ?_, List.nodup_nil, rfl⟩
  intro pub here
  cases here

/-- After a failed start the publisher has returned without closing `stopped`. -/
theorem Balanced.start_fails {mux : Pubmux} (h : Balanced mux) {event : PubmuxEvent}
    (fails : StartFails mux event) : ¬ Accounted (mux.step event) := by
  obtain ⟨i, pub, err, rfl, here, start⟩ := fails
  obtain ⟨returned, closes⟩ := @step_start_fails mux.picker pub (some err) start (Option.some_ne_none err)
  obtain ⟨less, _⟩ := List.getElem?_eq_some_iff.mp here
  unfold Pubmux.step
  dsimp only
  rw [here]
  rintro ⟨accounted, _⟩
  have closed := (accounted _ (List.mem_set less _) returned).2.1
  have closings := (h.consistent pub (List.mem_of_getElem? here)).closes_eq
  rw [start] at closings
  rw [closes, closings] at closed
  cases closed

theorem run_snoc (range : PortRange) (events : List PubmuxEvent) (event : PubmuxEvent) :
    run range (events ++ [event]) = (run range events).step event := by
  rw [run, List.foldl_append]
  rfl

/-- What holds of the prefixes of a list with one more element holds of those of the list. -/
theorem prefixes_init {events : List PubmuxEvent} {event : PubmuxEvent}
    {P : List PubmuxEvent → Prop}
    (all : ∀ before after, events ++ [event] = before ++ after → P before) :
    ∀ before after, events = before ++ after → P before := by
  rintro before after rfl
  exact all before (after ++ [event]) (List.append_assoc ..)

theorem balanced_of_accounted {range : PortRange} {events : List PubmuxEvent}
    (all : ∀ before after, events = before ++ after → Accounted (run range before)) :
    Balanced (run range events) := by
  induction events using List.reverseRecOn with
  | nil => exact balanced_initial range
  | append_singleton events event ih =>
    have balanced := ih (prefixes_init all)
    rw [run_snoc]
    apply balanced.step
    intro fails
    apply balanced.start_fails fails
    rw [← run_snoc]
    exact all (events ++ [event]) [] (List.append_nil _).symm

theorem balanced_of_starts {range : PortRange} {events : List PubmuxEvent}
    (all : ∀ before event after, events = before ++ event :: after →
    ¬ StartFails (run range before) event) :
    Balanced (run range events) := by
  induction events using List.reverseRecOn with
  | nil => exact balanced_initial range
  | append_singleton events event ih =>
    rw [run_snoc]
    apply Balanced.step
    · apply ih
      rintro before event' after rfl
      exact all before event' (after ++ [event]) (by simp)
    · exact all events event [] rfl

/-- In every interleaving of every number of publishers the launches are accounted for in all
states, if and only if no start of a process fails. -/
theorem launches_accounted (range : PortRange) (events : List PubmuxEvent) :
    (∀ before after, events = before ++ after → Accounted (run range before)) ↔
    ∀ before event after, events = before ++ event :: after →
      ¬ StartFails (run range before) event := by
  constructor
  · rintro all before event after rfl fails
    have balanced : Balanced (run range before) := by
      apply balanced_of_accounted
      rintro front back rfl
      exact all front (back ++ event :: after) (List.append_assoc ..)
    apply balanced.start_fails fails
    rw [← run_snoc]
    exact all (before ++ [event]) after (by simp)
  · rintro starts before after rfl
    apply Balanced.accounted
    apply balanced_of_starts
    rintro front event back rfl
    exact starts front event (back ++ after) (by simp)

/-- One publisher on one port, whose program cannot be started: the port stays in use, and
`stopped` is never closed. -/
theorem failed_start_leaks :
    let range : PortRange := ⟨26000, 26999, by decide, by decide, by decide⟩
    let mux := run range [.launch false, .step 0 none, .step 0 none, .step 0 (some "fork/exec: no such file")]
    (mux.publishers.map fun pub => (pub.standing, pub.closes, pub.cmd)) = [(.returned, 0, false)] ∧
      mux.picker.inUse = {26000} ∧ mux.publishers.countP launched = 0 ∧ ¬ Accounted mux := by
  intro range mux
  have used : mux.picker.inUse = {26000} := rfl
  have idle : mux.publishers.countP launched = 0 := rfl
  refine ⟨rfl, used, idle, ?_⟩
  rintro ⟨_, count, _⟩
  rw [used, idle] at count
  cases count

end Pubmux

end Lancaster
