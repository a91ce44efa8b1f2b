import Lancaster.Convergence
import Lancaster.ReceiverLog

/-!
# Chains of publishers

A subscriber's storage has a change queue of its own, so that a publisher can be run over it. In a
chain, hop `k + 1` publishes the storage that one subscriber of hop `k` writes. A subscriber whose
queue has the size of its publisher's, as it has by default, does to its storage what the writer of
the next hop does: it locks a record, unlocks it with the next revision, writes a slot of the ring
and moves the head, and the next sender may look at the storage between any two of these.
-/

namespace Lancaster

open Interleaving Sender
open Receiver (McastInput Segment segmentBytes)

variable {g : Geometry}

/-! ## What a subscriber does to its storage -/

/-- The steps of one call of `update_record`. -/
def updateMoves (id now : Int) (val : Value g) : List (WriterMove g) :=
  [.lock id now val, .unlock, .slot, .bump]

/-- What the calls of `update_record` between `r` and `r'` do to the storage, step by step. An event
reads the clock once for all its updates. -/
def fedBy (r r' : Receiver g) : List (WriterMove g) :=
  ((updates r'.acts).drop (updates r.acts).length).flatMap fun u =>
    updateMoves u.2.1 (r'.store.record u.2.1).ts u.2.2

namespace World

def feeds : List (WriterMove g) → World g → Option (World g)
  | [], w => some w
  | m :: rest, w => (w.writerMove m).bind (feeds rest)

theorem feeds_append (ms more : List (WriterMove g)) (w : World g) :
    feeds (ms ++ more) w = (feeds ms w).bind (feeds more) := by
  induction ms generalizing w with
  | nil => rfl
  | cons m rest ih =>
    rw [List.cons_append, feeds, feeds, Option.bind_assoc]
    congr 1
    exact funext ih

/-- The writer looks at the storage and at nothing else. -/
theorem writerMove_alike {m : WriterMove g} {w w₁ w' : World g} (store : w₁.store = w.store)
    (writer : w₁.writer = w.writer) (h : w.writerMove m = some w') :
    ∃ w₁', w₁.writerMove m = some w₁' ∧ w₁'.store = w'.store ∧ w₁'.writer = w'.writer := by
  unfold writerMove at h ⊢
  rw [store, writer]
  split at h
  · split at h
    · obtain rfl := Option.some.inj h
      rename_i ok
      rw [if_pos ok]
      exact ⟨_, rfl, rfl, rfl⟩
    · cases h
  · obtain rfl := Option.some.inj h
    refine ⟨_, rfl, ?_, rfl⟩
    simp only [commit, store]
  · split at h
    · cases h
    · rename_i queue
      obtain rfl := Option.some.inj h
      rw [if_neg queue]
      exact ⟨_, rfl, rfl, rfl⟩
  · obtain rfl := Option.some.inj h
    exact ⟨_, rfl, rfl, rfl⟩
  · cases h

theorem feeds_alike {ms : List (WriterMove g)} {w w₁ w' : World g} (store : w₁.store = w.store)
    (writer : w₁.writer = w.writer) (h : feeds ms w = some w') :
    ∃ w₁', feeds ms w₁ = some w₁' ∧ w₁'.store = w'.store ∧ w₁'.writer = w'.writer := by
  induction ms generalizing w w₁ with
  | nil =>
    obtain rfl := Option.some.inj h
    exact ⟨w₁, rfl, store, writer⟩
  | cons m rest ih =>
    obtain ⟨v, first, more⟩ := Option.bind_eq_some_iff.mp h
    obtain ⟨v₁, first₁, store, writer⟩ := writerMove_alike store writer first
    obtain ⟨w₁', more₁, same⟩ := ih store writer more
    exact ⟨w₁', Option.bind_eq_some_iff.mpr ⟨v₁, first₁, more₁⟩, same⟩

/-- The steps of one call come to what the call does. -/
theorem feeds_update {w : World g} {id : Int} (now : Int) (val : Value g) (queue : g.qCapacity ≠ 0)
    (idle : w.writer = .idle) (known : g.Holds id) (free : 0 ≤ (w.store.record id).rev) :
    ∃ w', feeds (updateMoves id now val) w = some w' ∧ w'.writer = .idle ∧
      w'.store = w.store.update g.qCapacity now id val := by
  have locked : w.writerMove (.lock id now val) = some { w with
      store := w.store.setRecord id { w.store.record id with
        rev := lockedWord (w.store.record id).rev }
      writer := .locked id ⟨nextRev (w.store.record id).rev, now, val⟩ } := by
    simp only [writerMove, idle]
    rw [if_pos ⟨known, free⟩]
  have again : ∀ (st : Storage g) (r r' : Record g), (st.setRecord id r).setRecord id r' =
      st.setRecord id r' := by
    intro st r r'
    simp only [Storage.setRecord]
    congr 1
    funext i
    split <;> rfl
  refine ⟨{ w with
    store := w.store.update g.qCapacity now id val
    commits := fun i => if i = id then
      w.commits i ++ [⟨nextRev (w.store.record id).rev, now, val⟩] else w.commits i
    log := fun q => if q = w.store.qHead then id else w.log q
    writer := .idle }, ?_, rfl, rfl⟩
  rw [updateMoves, feeds, locked]
  simp only [Option.bind_some, feeds, writerMove, commit, if_neg queue, Storage.writeSlot, again,
    Storage.setRecord_qHead, Storage.setRecord_changeQ, Storage.update,
      if_pos (Nat.pos_of_ne_zero queue)]
  rfl

/-- The steps of several calls. -/
theorem feeds_replay {w : World g} (now : Int) (queue : g.qCapacity ≠ 0) (idle : w.writer = .idle)
    (free : ∀ id, 0 ≤ (w.store.record id).rev) (ups : List (Int × Int × Value g))
    (known : ∀ u ∈ ups, g.Holds u.2.1) :
    ∃ w', feeds (ups.flatMap fun u => updateMoves u.2.1 now u.2.2) w = some w' ∧
      w'.writer = .idle ∧ w'.store = w.store.replay g.qCapacity now ups := by
  induction ups generalizing w with
  | nil => exact ⟨w, rfl, idle, rfl⟩
  | cons u rest ih =>
    obtain ⟨v, first, idle, store⟩ := feeds_update now u.2.2 queue idle
      (known u (List.mem_cons_self ..)) (free u.2.1)
    have free : ∀ id, 0 ≤ (v.store.record id).rev := by
      intro id
      rw [store, Storage.update_record]
      split
      · exact Int.emod_nonneg _ (by decide)
      · exact free id
    obtain ⟨w', more, idle, after⟩ := ih idle free fun u here => known u (List.mem_cons_of_mem _ here)
    refine ⟨w', ?_, idle, ?_⟩
    · rw [List.flatMap_cons, feeds_append, first]
      exact more
    · rw [after, store]
      rfl

end World

namespace Storage

/-- Every record that was updated has the time of the updates. -/
theorem replay_ts (cap : Nat) (now : Int) (st : Storage g) (ups : List (Int × Int × Value g))
    {id : Int} (h : (∃ u ∈ ups, u.2.1 = id) ∨ (st.record id).ts = now) :
    ((st.replay cap now ups).record id).ts = now := by
  induction ups generalizing st with
  | nil =>
    rcases h with ⟨u, here, _⟩ | h
    · cases here
    · exact h
  | cons u rest ih =>
    rw [replay, List.foldl_cons]
    refine ih (st.update cap now u.2.1 u.2.2) ?_
    rw [update_record]
    rcases h with ⟨v, here, same⟩ | h
    · rcases List.mem_cons.mp here with rfl | here
      · exact Or.inr (by rw [if_pos same.symm])
      · exact Or.inl ⟨v, here, same⟩
    · refine Or.inr ?_
      split
      · rfl
      · exact h

theorem replay_rev (cap : Nat) (now : Int) (st : Storage g) (ups : List (Int × Int × Value g))
    (free : ∀ id, 0 ≤ (st.record id).rev) (id : Int) :
    0 ≤ ((st.replay cap now ups).record id).rev := by
  induction ups generalizing st with
  | nil => exact free id
  | cons u rest ih =>
    rw [replay, List.foldl_cons]
    refine ih (st.update cap now u.2.1 u.2.2) ?_
    intro i
    rw [update_record]
    split
    · exact Int.emod_nonneg _ (by decide)
    · exact free i

end Storage

/-- Receiver `r` is the writer of the storage in `w`: this is what `r` holds once `r` has done
what is in `feed`. -/
structure Coupled (feed : List (WriterMove g)) (r : Receiver g) (w : World g) : Prop where
  queue : r.qCapacity = g.qCapacity
  free : ∀ id, 0 ≤ (r.store.record id).rev
  ends : ∃ w', w.feeds feed = some w' ∧ w'.writer = .idle ∧ w'.store = r.store

namespace Coupled

variable {feed : List (WriterMove g)} {r r' : Receiver g} {w w' : World g}

/-- The receiver handles an event. -/
theorem handled {now : Int} (queue : g.qCapacity ≠ 0) (h : Coupled [] r w) (logs : Logs now r r') :
    Coupled (fedBy r r') r' w := by
  obtain ⟨_, eq, idle, same⟩ := h.ends
  obtain rfl := Option.some.inj eq
  obtain ⟨cap, ups, acts, store, _, known⟩ := logs
  rw [h.queue] at store
  have free : ∀ id, 0 ≤ (w.store.record id).rev := by
    rw [same]
    exact h.free
  obtain ⟨w', done, idle, after⟩ := World.feeds_replay now queue idle free ups known
  refine ⟨cap.trans h.queue, ?_, w', ?_, idle, ?_⟩
  · rw [store]
    exact Storage.replay_rev _ _ _ _ h.free
  · rw [fedBy, acts, List.drop_left]
    rw [← done]
    congr 1
    refine List.flatMap_congr fun u here => ?_
    rw [store, Storage.replay_ts _ _ _ _ (Or.inl ⟨u, here, rfl⟩)]
  · rw [after, same, store]

/-- The receiver does the next step in its storage. -/
theorem fed {m : WriterMove g} (h : Coupled (m :: feed) r w) (step : w.writerMove m = some w') :
    Coupled feed r w' := by
  obtain ⟨v, done, last⟩ := h.ends
  obtain ⟨w₁, first, more⟩ := Option.bind_eq_some_iff.mp done
  obtain rfl := Option.some.inj (first.symm.trans step)
  exact ⟨h.queue, h.free, v, more, last⟩

/-- Others leave the storage alone. -/
theorem same (h : Coupled feed r w) (store : w'.store = w.store) (writer : w'.writer = w.writer) :
    Coupled feed r w' := by
  obtain ⟨v, done, idle, last⟩ := h.ends
  obtain ⟨v', done', store', writer'⟩ := World.feeds_alike store writer done
  exact ⟨h.queue, h.free, v', done', writer'.trans idle, store'.trans last⟩

end Coupled

/-! ## Chains -/

/-- The publishers of a chain, and what the subscriber between hop `k` and hop `k + 1` has still to
do in its storage. -/
structure Chain (g : Geometry) where
  hop : Nat → Conf (netEnv g).host
  feed : Nat → List (WriterMove g)

inductive ChainStep (g : Geometry) where
  | hop (k : Nat) (ch : Choice (netEnv g).host)
  | feed (k : Nat)

def ChainStep.place : ChainStep g → Nat
  | .hop k _ => k
  | .feed k => k + 1

def NetMove.peer : NetMove g → Option Nat
  | .writer _ => none
  | .datagram c _ => some c
  | .tcp c _ _ _ _ _ _ _ _ _ => some c

def moveOf (ch : Choice (netEnv g).host) : Option (NetMove g) :=
  match ch with
  | .move m => some m
  | _ => none

/-- Only the first hop has a writer of its own, and a subscriber handles no event while it is
writing its storage. -/
def ChainStep.choice (tap : Nat → Nat) (s : ChainStep g) (x : Chain g) :
    Option (Choice (netEnv g).host) :=
  match s with
  | .hop k ch =>
    match moveOf ch with
    | none => some ch
    | some m =>
      if (m.peer = none ∧ k ≠ 0) ∨ (m.peer = some (tap k) ∧ (x.feed k).isEmpty = false) then none
      else some ch
  | .feed k => (x.feed k).head?.map fun m => .move (NetMove.writer m)

namespace Chain

/-- What the subscriber of hop `k` has to do after a step there. -/
def fedAt (tap : Nat → Nat) (x : Chain g) (k : Nat) (y : Conf (netEnv g).host) :
    List (WriterMove g) :=
  x.feed k ++ fedBy ((x.hop k).world.peers (tap k)).recv (y.world.peers (tap k)).recv

def after (tap : Nat → Nat) (x : Chain g) (s : ChainStep g) (y : Conf (netEnv g).host) :
    Chain g where
  hop := Function.update x.hop s.place y
  feed :=
    match s with
    | .hop k _ => Function.update x.feed k (fedAt tap x k y)
    | .feed k => Function.update x.feed k (x.feed k).tail

/-- Runs of a chain in which no queue is overrun and no hop loses its last client. -/
inductive Reach (tap : Nat → Nat) (x₀ : Chain g) : Chain g → Prop where
  | refl : Reach tap x₀ x₀
  | step {x : Chain g} (s : ChainStep g) {ch : Choice (netEnv g).host} {y : Conf (netEnv g).host}
      (before : Reach tap x₀ x) (able : s.choice tap x = some ch)
      (one : (netEnv g).host.next ch (x.hop s.place) = some y)
      (allowed : Admissible (x.hop s.place) ch y) : Reach tap x₀ (x.after tap s y)

/-- The same as a computation. -/
def run (tap : Nat → Nat) : List (ChainStep g) → Chain g → Option (Chain g)
  | [], x => some x
  | s :: rest, x => (s.choice tap x).bind fun ch =>
    ((netEnv g).host.next ch (x.hop s.place)).bind fun y =>
      if undisturbed y.state y.world y.waiting ∧
          (0 < (x.hop s.place).state.clientCount → 0 < y.state.clientCount) then
        run tap rest (x.after tap s y)
      else none

variable {tap : Nat → Nat} {x₀ x : Chain g}

theorem reach_of_run {steps : List (ChainStep g)} {y : Chain g} (before : Reach tap x₀ x)
    (h : run tap steps x = some y) : Reach tap x₀ y := by
  induction steps generalizing x with
  | nil =>
    obtain rfl := Option.some.inj h
    exact before
  | cons s rest ih =>
    obtain ⟨ch, able, more⟩ := Option.bind_eq_some_iff.mp h
    obtain ⟨z, one, more⟩ := Option.bind_eq_some_iff.mp more
    split at more
    · rename_i calm
      exact ih (.step s before able one calm) more
    · cases more

@[simp] theorem after_hop_place (s : ChainStep g) (y : Conf (netEnv g).host) :
    (x.after tap s y).hop s.place = y := Function.update_self ..

theorem after_hop_other {s : ChainStep g} {k : Nat} (h : k ≠ s.place) (y : Conf (netEnv g).host) :
    (x.after tap s y).hop k = x.hop k := Function.update_of_ne h ..

/-- Every hop of a chain runs as a publisher does that is alone. -/
theorem Reach.hop (run : Reach tap x₀ x) (k : Nat) :
    (netEnv g).host.Reach Admissible (x₀.hop k) (x.hop k) := by
  induction run with
  | refl => exact .refl
  | @step x s ch y _ _ one allowed ih =>
    by_cases here : k = s.place
    · subst here
      rw [after_hop_place]
      exact .step ch ih one allowed
    · rw [after_hop_other here]
      exact ih

end Chain

/-! ## The subscriber and the next hop -/

/-- A receiver changes in its own events only, and then by its calls of `update_record`. -/
theorem netMove_logs {m : NetMove g} {w w' : World g} (h : w.netMove m = some w') (c : Nat) :
    w'.peers c = w.peers c ∨
    (m.peer = some c ∧ ∃ now, Logs now (w.peers c).recv (w'.peers c).recv) := by
  cases m with
  | writer m => exact Or.inl (congrFun (writerMove_same h).2.2.2.2 c)
  | datagram i inp =>
    simp only [World.netMove] at h
    split at h
    · obtain rfl := Option.some.inj h
      by_cases hi : c = i
      · subst hi
        refine Or.inr ⟨rfl, ?_⟩
        simp only [World.setPeer, ↓reduceIte]
        exact Receiver.mcastOnRead_logs (w.peers c).recv inp
      · exact Or.inl (if_neg hi)
    · cases h
  | tcp i pollin pollout segs clock lockStats clockUpdate lock results setEvent =>
    simp only [World.netMove] at h
    split at h
    · obtain rfl := Option.some.inj h
      by_cases hi : c = i
      · subst hi
        refine Or.inr ⟨rfl, ?_⟩
        simp only [World.setPeer, ↓reduceIte]
        exact Receiver.eventFunc_logs (w.peers c).recv pollin pollout
          ⟨segs, clock, lockStats, clockUpdate, fun _ => lock⟩ results setEvent
      · exact Or.inl (if_neg hi)
    · cases h

theorem netMove_store {m : NetMove g} {w w' : World g} (h : w.netMove m = some w')
    (other : m.peer ≠ none) : w'.store = w.store ∧ w'.writer = w.writer := by
  cases m with
  | writer m => exact absurd rfl other
  | datagram c inp =>
    simp only [World.netMove] at h
    split at h
    · obtain rfl := Option.some.inj h
      exact ⟨rfl, rfl⟩
    · cases h
  | tcp c pollin pollout segs clock lockStats clockUpdate lock results setEvent =>
    simp only [World.netMove] at h
    split at h
    · obtain rfl := Option.some.inj h
      exact ⟨rfl, rfl⟩
    · cases h

theorem fedBy_self (r : Receiver g) : fedBy r r = [] := by simp [fedBy]

namespace Coupled

variable {feed : List (WriterMove g)} {w : World g} {x y : Conf (netEnv g).host}
  {ch : Choice (netEnv g).host} {c : Nat}

/-- A step at the subscriber's own hop. -/
theorem upper (queue : g.qCapacity ≠ 0) (h : Coupled feed (x.world.peers c).recv w)
    (one : (netEnv g).host.next ch x = some y)
    (ready : ∀ m, moveOf ch = some m → m.peer = some c → feed = []) :
    Coupled (feed ++ fedBy (x.world.peers c).recv (y.world.peers c).recv) (y.world.peers c).recv w := by
  have still : y.world.peers c = x.world.peers c →
      Coupled (feed ++ fedBy (x.world.peers c).recv (y.world.peers c).recv) (y.world.peers c).recv w := by
    intro same
    rw [same, fedBy_self, List.append_nil]
    exact h
  rcases Host.next_cases _ one with ⟨m, v, rfl, hm, rfl⟩ | ⟨s, call, k, a, v, _, hr, rfl⟩ |
    ⟨e, a, t, _, _, _, rfl⟩
  · rcases netMove_logs hm c with same | ⟨own, now, logs⟩
    · exact still same
    · obtain rfl := ready m rfl own
      exact h.handled queue logs
  · exact still (congrFun (reply_same hr).2.2 c)
  · exact still rfl

/-- A step at the next hop that is not one of its writer. -/
theorem lower {r : Receiver g} (h : Coupled feed r x.world)
    (one : (netEnv g).host.next ch x = some y) (other : ∀ m, moveOf ch = some m → m.peer ≠ none) :
    Coupled feed r y.world := by
  rcases Host.next_cases _ one with ⟨m, v, rfl, hm, rfl⟩ | ⟨s, call, k, a, v, _, hr, rfl⟩ |
    ⟨e, a, t, _, _, _, rfl⟩
  · obtain ⟨store, writer⟩ := netMove_store hm (other m rfl)
    exact h.same store writer
  · exact h.same (reply_same hr).1 (reply_writer hr)
  · exact h

end Coupled

namespace Chain

variable {tap : Nat → Nat} {x₀ x : Chain g} {s : ChainStep g} {ch : Choice (netEnv g).host}
  {y : Conf (netEnv g).host}

/-- Every storage of the chain is the one that its subscriber writes. -/
def Joined (tap : Nat → Nat) (x : Chain g) : Prop :=
  ∀ k, Coupled (x.feed k) ((x.hop k).world.peers (tap k)).recv (x.hop (k + 1)).world

theorem Joined.hop {k : Nat} (queue : g.qCapacity ≠ 0) (h : Joined tap x)
    (able : (ChainStep.hop k ch).choice tap x = some ch)
    (one : (netEnv g).host.next ch (x.hop k) = some y) :
    Joined tap (x.after tap (.hop k ch) y) := by
  have able : ∀ m, moveOf ch = some m →
      ¬ ((m.peer = none ∧ k ≠ 0) ∨ (m.peer = some (tap k) ∧ (x.feed k).isEmpty = false)) := by
    intro m moves
    rw [ChainStep.choice, moves] at able
    dsimp only at able
    intro no
    rw [if_pos no] at able
    cases able
  have moved : ∀ j, (x.after tap (.hop k ch) y).hop j = if j = k then y else x.hop j := by
    intro j
    exact Function.update_apply ..
  have feed : ∀ j, (x.after tap (.hop k ch) y).feed j = if j =
    k then x.fedAt tap k y else x.feed j := by
    intro j
    exact Function.update_apply ..
  intro j
  rw [moved, moved, feed]
  by_cases here : j = k
  · subst here
    rw [if_pos rfl, if_pos rfl, if_neg (by omega)]
    refine (h j).upper queue one fun m moves own => ?_
    have no := able m moves
    simp only [own, true_and, not_or, Bool.not_eq_false, List.isEmpty_iff] at no
    exact no.2
  · rw [if_neg here, if_neg here]
    by_cases below : j + 1 = k
    · rw [if_pos below]
      subst below
      refine (h j).lower one fun m moves own => ?_
      exact able m moves (Or.inl ⟨own, Nat.succ_ne_zero j⟩)
    · rw [if_neg below]
      exact h j

theorem Joined.fed {k : Nat} (h : Joined tap x)
    (able : (ChainStep.feed k).choice tap x = some ch)
    (one : (netEnv g).host.next ch (x.hop (k + 1)) = some y) :
    Joined tap (x.after tap (.feed k) y) := by
  obtain ⟨m, first, rfl⟩ := Option.map_eq_some_iff.mp able
  obtain ⟨rest, eq⟩ : ∃ rest, x.feed k = m :: rest := by
    cases hf : x.feed k with
    | nil =>
      rw [hf] at first
      cases first
    | cons m' rest =>
      rw [hf] at first
      exact ⟨rest, by rw [Option.some.inj first]⟩
  obtain ⟨v, hm, rfl⟩ := Option.map_eq_some_iff.mp one
  have step : (x.hop (k + 1)).world.writerMove m = some v := hm
  have moved : ∀ j, (x.after tap (.feed k) { x.hop (k + 1) with world := v }).hop j =
      if j = k + 1 then { x.hop (k + 1) with world := v } else x.hop j := by
    intro j
    exact Function.update_apply ..
  have feed : ∀ j, (x.after tap (.feed k) { x.hop (k + 1) with world := v }).feed j =
      if j = k then (x.feed k).tail else x.feed j := by
    intro j
    exact Function.update_apply ..
  intro j
  rw [moved, moved, feed]
  by_cases here : j = k
  · subst here
    rw [if_pos rfl, if_neg (by omega), if_pos rfl, eq, List.tail_cons]
    have whole := h j
    rw [eq] at whole
    exact whole.fed step
  · rw [if_neg here, if_neg (show j + 1 ≠ k + 1 by omega)]
    by_cases above : j = k + 1
    · rw [if_pos above]
      subst above
      rw [(writerMove_same step).2.2.2.2]
      exact h (k + 1)
    · rw [if_neg above]
      exact h j

theorem Reach.joined (queue : g.qCapacity ≠ 0) (run : Reach tap x₀ x) (start : Joined tap x₀) :
    Joined tap x := by
  induction run with
  | refl => exact start
  | @step x s ch y _ able one _ ih =>
    cases s with
    | hop k ch' =>
      have same : ch' = ch := by
        simp only [ChainStep.choice] at able
        split at able
        · exact Option.some.inj able
        · split at able
          · cases able
          · exact Option.some.inj able
      subst same
      exact ih.hop queue able one
    | feed k => exact ih.fed able one

end Chain

/-! ## Runs -/

/-- One publisher before its first event, and the subscribers that it may have. -/
structure Station (g : Geometry) where
  ifaceMtu : Nat
  mtu : Nat
  buf : List UInt8
  ignoreOverrun : Bool
  heartbeatUsec : Int
  maxPktAgeUsec : Int
  now : Int
  store : Storage g
  peers : Nat → Peer g
  enough : 28 ≤ ifaceMtu
  size : ifaceMtu < 18446744073709551616
  created : initMtu g ifaceMtu = .ok mtu
  len : buf.length = mtu
  revs : ∀ id, 0 ≤ (store.record id).rev ∧ (store.record id).rev ≤ spinMax
  fresh : ∀ c, (peers c).Fresh

def Station.conf (p : Station g) : Conf (netEnv g).host :=
  (netEnv g).idleConf (Sender.init p.mtu p.buf p.ignoreOverrun p.heartbeatUsec p.maxPktAgeUsec p.now)
    (World.start p.store p.peers)

/-- What is known of a hop in a run. -/
theorem Station.repairing (p : Station g) {x : Conf (netEnv g).host}
    (run : (netEnv g).host.Reach Admissible p.conf x) (c : Nat) :
    ∃ ph, Repairing c ph x.state x.world := by
  have pristine : Pristine (Sender.init p.mtu p.buf p.ignoreOverrun p.heartbeatUsec p.maxPktAgeUsec
    p.now) (World.start p.store p.peers) := ⟨rfl, fun _ => rfl, fun _ => rfl⟩
  have counted := run.strengthen _ fun x run =>
    counted_or_pristine rfl pristine (fun _ _ _ admissible => admissible.2) run
  exact (repairingKept c).holds (fun _ _ _ _ known => ⟨known.1.1, known.2⟩)
    (fun _ _ _ _ _ => trivial) (fun _ _ _ _ _ _ => trivial)
    (repairing_start p.enough p.size p.created p.len p.revs (p.fresh c)) ⟨rfl, Or.inr pristine⟩ counted

/-- The publishers of a chain before their first events. Every subscriber on the way takes over the
size of its publisher's queue. -/
structure ChainPlan (g : Geometry) where
  station : Nat → Station g
  tap : Nat → Nat
  shared : ∀ k, (station (k + 1)).store = ((station k).peers (tap k)).recv.store
  queue : ∀ k, ((station k).peers (tap k)).recv.qCapacity = g.qCapacity
  queued : g.qCapacity ≠ 0

namespace ChainPlan

variable (p : ChainPlan g)

def start : Chain g where
  hop := fun k => (p.station k).conf
  feed := fun _ => []

theorem start_joined : Chain.Joined p.tap p.start := by
  intro k
  refine ⟨p.queue k, ?_, _, rfl, rfl, p.shared k⟩
  intro id
  have range := (p.station (k + 1)).revs id
  rw [p.shared k] at range
  exact range.1

end ChainPlan

/-- A receiver's storage is the log of its updates in every run. -/
theorem recounts_reach {ok : Conf (netEnv g).host → Choice (netEnv g).host →
    Conf (netEnv g).host → Prop}
    {x₀ x : Conf (netEnv g).host} {c cap : Nat} {st : Storage g}
    (run : (netEnv g).host.Reach ok x₀ x) (start : Recounts st cap (x₀.world.peers c).recv) :
    Recounts st cap (x.world.peers c).recv := by
  induction run with
  | refl => exact start
  | step ch _ one _ ih =>
    rcases Host.next_cases _ one with ⟨m, v, _, hm, rfl⟩ | ⟨s, call, k, a, v, _, hr, rfl⟩ |
      ⟨e, a, t, _, _, _, rfl⟩
    · rcases netMove_logs hm c with same | ⟨_, now, logs⟩
      · dsimp only
        rw [same]
        exact ih
      · exact ih.logs logs
    · dsimp only
      rw [(reply_same hr).2.2]
      exact ih
    · exact ih

/-- A receiver that has caught up has updated every record that is in use. -/
theorem Repairing.labelled {c : Nat} {ph : Phase} {s : Sender g} {w : World g}
    (h : Repairing c ph s w) (settled : CaughtUp c s w) {id : Int} (known : g.Holds id)
    (used : (w.store.record id).rev ≠ 0) : 0 ≤ (w.peers c).recv.recordSeqs (id - g.baseId) := by
  obtain ⟨a, ord, link, converging⟩ := h.running settled.running
  have last := h.net.stored.last id (settled.free h.unlocked id)
  obtain ⟨label, _⟩ := converging.repaired.arrived ord (settled.fresh h.queue link converging id)
    ⟨known, _, last, used⟩ (settled.passed ord link converging id) (settled.no_frames link)
    (settled.not_owed link id)
  rw [← link.peer.label, label, link.sender.label]
  exact h.net.low _

/-- A record that was updated fewer than 2^63 times is in use. -/
theorem Recounts.used {st : Storage g} {cap : Nat} {r : Receiver g} {id : Int}
    (h : Recounts st cap r)
    (labelled : 0 ≤ r.recordSeqs (id - g.baseId)) (low : 0 ≤ (st.record id).rev)
    (few : (st.record id).rev + (valuesOf id (updates r.acts)).length < 9223372036854775808) :
    (r.store.record id).rev ≠ 0 := by
  have nonempty : 0 < (valuesOf id (updates r.acts)).length := by
    rw [h.seqs id, seqsOf] at labelled
    rw [valuesOf, List.length_map]
    cases of : (updates r.acts).filter fun u => u.2.1 = id with
    | nil =>
      rw [of] at labelled
      cases labelled
    | cons u rest => exact Nat.succ_pos _
  rw [h.tells.revs id]
  omega

namespace ChainPlan

variable {p : ChainPlan g} {x : Chain g}

/-- The next storage has what this one has, once both are caught up. -/
theorem link_agrees (run : Chain.Reach p.tap p.start x) {k : Nat}
    (settled : CaughtUp (p.tap k) (x.hop k).state (x.hop k).world) (fed : x.feed k = []) {id : Int}
    (known : g.Holds id) (used : ((x.hop k).world.store.record id).rev ≠ 0)
    (few : ((p.station (k + 1)).store.record id).rev +
      (valuesOf id (updates ((x.hop k).world.peers (p.tap k)).recv.acts)).length <
        9223372036854775808) :
    ((x.hop (k + 1)).world.store.record id).val = ((x.hop k).world.store.record id).val ∧
      ((x.hop (k + 1)).world.store.record id).rev ≠ 0 := by
  have hop := run.hop k
  obtain ⟨ph, repairing⟩ := (p.station k).repairing hop (p.tap k)
  have coupled := run.joined p.queued p.start_joined k
  rw [fed] at coupled
  obtain ⟨_, eq, _, store⟩ := coupled.ends
  obtain rfl := Option.some.inj eq
  have revs := (p.station (k + 1)).revs
  rw [p.shared k] at few revs
  have start : Recounts ((p.station k).peers (p.tap k)).recv.store g.qCapacity
      ((p.station k).conf.world.peers (p.tap k)).recv := by
    obtain ⟨st, cap, inBuf, outBuf, now, _, _, fresh⟩ := (p.station k).fresh (p.tap k)
    have queue := p.queue k
    have here : (p.station k).conf.world.peers (p.tap k) = (p.station k).peers (p.tap k) := rfl
    rw [fresh] at queue revs
    rw [here, fresh]
    exact ⟨queue, List.forall_mem_nil _, fun _ => rfl, .start revs⟩
  rw [store]
  refine ⟨repairing.agrees settled known used, ?_⟩
  exact (recounts_reach hop start).used (repairing.labelled settled known used) (revs id).1 few

/-- Along a chain of publishers of any length whose storages have queues of one size, however its
writers, senders and receivers take turns and whatever the networks lose, repeat and reorder, while
no queue is overrun, no hop loses its last client, no record is erased, no sender is shut down and
every request is written before the next datagram is handled: when every hop up to the last has
caught up and no subscriber on the way is in the middle of its updates, the last receiver has the
first storage's value of every record that is in use there, unless a storage on the way has counted
the record's revision once round. -/
theorem chain_converges (run : Chain.Reach p.tap p.start x) (n : Nat)
    (settled : ∀ k, k ≤ n → CaughtUp (p.tap k) (x.hop k).state (x.hop k).world)
    (fed : ∀ k, k < n → x.feed k = []) {id : Int} (known : g.Holds id)
    (used : ((x.hop 0).world.store.record id).rev ≠ 0)
    (few : ∀ k, k < n → ((p.station (k + 1)).store.record id).rev +
      (valuesOf id (updates ((x.hop k).world.peers (p.tap k)).recv.acts)).length <
        9223372036854775808) :
    (((x.hop n).world.peers (p.tap n)).recv.store.record id).val =
      ((x.hop 0).world.store.record id).val := by
  have storage : ∀ k, k ≤ n → ((x.hop k).world.store.record id).val =
      ((x.hop 0).world.store.record id).val ∧ ((x.hop k).world.store.record id).rev ≠ 0 := by
    intro k
    induction k with
    | zero => exact fun _ => ⟨rfl, used⟩
    | succ k ih =>
      intro below
      obtain ⟨val, used⟩ := ih (by omega)
      obtain ⟨same, used⟩ := link_agrees run (settled k (by omega)) (fed k (by omega)) known used
        (few k (by omega))
      exact ⟨same.trans val, used⟩
  obtain ⟨val, used⟩ := storage n (le_refl n)
  obtain ⟨ph, repairing⟩ := (p.station n).repairing (run.hop n) (p.tap n)
  rw [repairing.agrees (settled n (le_refl n)) known used, val]

end ChainPlan

/-! ## A chain of two -/

theorem smallStore_revs (id : Int) :
    0 ≤ (smallStore.record id).rev ∧ (smallStore.record id).rev ≤ spinMax :=
  ⟨le_refl _, Int.zero_le_ofNat _⟩

theorem smallReceiver_fresh (_ : Nat) : Peer.Fresh (.init smallReceiver) :=
  ⟨_, _, _, _, _, rfl, rfl, rfl⟩

theorem smallMtu : 28 ≤ 53 ∧ 53 < 18446744073709551616 := by decide

def smallStation : Station small where
  ifaceMtu := 53
  mtu := 25
  buf := List.replicate 25 0
  ignoreOverrun := false
  heartbeatUsec := 50
  maxPktAgeUsec := 10
  now := 0
  store := smallStore
  peers := fun _ => .init smallReceiver
  enough := smallMtu.1
  size := smallMtu.2
  created := rfl
  len := rfl
  revs := smallStore_revs
  fresh := smallReceiver_fresh

theorem small_qCapacity : small.qCapacity ≠ 0 := by decide

def smallPlan : ChainPlan small where
  station := fun _ => smallStation
  tap := fun _ => 0
  shared := fun _ => rfl
  queue := fun _ => rfl
  queued := small_qCapacity

/-- At the second hop record 1 is staged from the second entry of the queue and sent. -/
def sendSecond : List (Choice (netEnv small).host) :=
  [.start Event.mcast, .reply .storageGetQueueHead (2 : Nat),
   .reply (.storageReadQueue 1) (.ok (1 : Int)), .reply (.recordReadLock 1) (.ok (1 : Int)),
   .reply (.recordCopy 1) (.ok ⟨1, 0, smallValue 9⟩), .reply .clockTime (.ok (5 : Int)),
   .reply (.latencyOnSample 5) (.ok ()),
   .start Event.mcast, .reply .storageGetQueueHead (2 : Nat), .reply .clockTime (.ok (100 : Int)),
   .reply .clockTime (.ok (100 : Int)),
   .reply (.sockSendto (datagram 1 (netLong 100) [(1, smallValue 9)])) (.ok (25 : Nat)),
   .reply .lockStats (.ok ()),
   .move (NetMove.datagram 0 (.ofDatagram (datagram 1 (netLong 100) [(1, smallValue 9)]) 0))]

def repairSecond : List (Choice (netEnv small).host) :=
  [.start (Event.client 0 ⟨false, false, true⟩), .reply (.recordCopy 0) (.ok ⟨1, 0, smallValue 7⟩),
   .start (Event.client 0 ⟨false, false, true⟩),
   .reply (.sockWrite 0 (Frame.record 0 0 (smallValue 7)).encode) (.ok (17 : Nat)),
   .reply .clockTime (.ok (1 : Int)), .reply .lockStats (.ok ()),
   readBytes (netLong 0), readBytes (netLong 0 ++ [7])]

/-- Record 1 is updated before there is a client, and the receiver of the first hop hears of
record 0. -/
def firstHop : List (Choice (netEnv small).host) :=
  queueByte 1 9 ++ acceptFirst (netEnv small) 0 1 ++ queueByte 0 7 ++ sendFirst ++ [hearByte 7 1]

/-- The receiver asks for what lies before the packet that it heard. -/
def askBefore (repair : List (Choice (netEnv small).host)) : List (Choice (netEnv small).host) :=
  writeRequest :: (askGap (netEnv small) 1 ++ repair)

/-- Record 0 is in the second storage before it has a client, record 1 comes with a reply. At the
second hop it is the other way round. -/
def twoHops : List (ChainStep small) :=
  firstHop.map (.hop 0) ++ List.replicate 4 (.feed 0) ++
    (acceptFirst (netEnv small) 0 1).map (.hop 1) ++ (askBefore repairFirst).map (.hop 0) ++
    List.replicate 4 (.feed 0) ++ sendSecond.map (.hop 1) ++ List.replicate 4 (.feed 1) ++
    (askBefore repairSecond).map (.hop 1)

/-- The values of both records have come two hops far. -/
theorem chain_converges_small : ∃ x : Chain small, Chain.Reach smallPlan.tap smallPlan.start x ∧
    ((x.hop 0).world.store.record 0).val = smallValue 7 ∧
    ((x.hop 0).world.store.record 1).val = smallValue 9 ∧
    (((x.hop 1).world.peers 0).recv.store.record 0).val = smallValue 7 ∧
    (((x.hop 1).world.peers 0).recv.store.record 1).val = smallValue 9 := by
  have ends : (Chain.run smallPlan.tap twoHops smallPlan.start).any (fun x =>
      caughtUpFirst (x.hop 0) && caughtUpFirst (x.hop 1) && (x.feed 0).isEmpty &&
      decide (((x.hop 0).world.store.record 0).val = smallValue 7 ∧
        ((x.hop 0).world.store.record 1).val = smallValue 9 ∧
        ∀ id ∈ [0, 1], ((x.hop 0).world.store.record id).rev ≠ 0 ∧
          (valuesOf id (updates ((x.hop 0).world.peers 0).recv.acts)).length = 1)) = true := by
    decide +kernel
  obtain ⟨x, run, there⟩ := (Option.any_eq_true _ _).mp ends
  obtain ⟨rest, facts⟩ := Bool.and_eq_true_iff.mp there
  obtain ⟨rest, fed⟩ := Bool.and_eq_true_iff.mp rest
  obtain ⟨first, second⟩ := Bool.and_eq_true_iff.mp rest
  obtain ⟨seven, nine, records⟩ := of_decide_eq_true facts
  have reach : Chain.Reach smallPlan.tap smallPlan.start x := Chain.reach_of_run .refl run
  have settled : ∀ k, k ≤ 1 → CaughtUp (smallPlan.tap k) (x.hop k).state (x.hop k).world := by
    intro k below
    obtain rfl | rfl : k = 0 ∨ k = 1 := by omega
    · exact caughtUpFirst_spec first
    · exact caughtUpFirst_spec second
  have fed : ∀ k, k < 1 → x.feed k = [] := by
    intro k below
    obtain rfl : k = 0 := by omega
    exact List.isEmpty_iff.mp fed
  have arrived : ∀ id ∈ [(0 : Int), 1], (((x.hop 1).world.peers 0).recv.store.record id).val =
      ((x.hop 0).world.store.record id).val := by
    intro id here
    have known : small.Holds id := by
      rcases List.mem_pair.mp here with rfl | rfl <;> decide
    obtain ⟨used, once⟩ := records id here
    refine ChainPlan.chain_converges reach 1 settled fed known used fun k below => ?_
    obtain rfl : k = 0 := by omega
    have zero : ((smallPlan.station 1).store.record id).rev = 0 := rfl
    have once : (valuesOf id (updates ((x.hop 0).world.peers (smallPlan.tap 0)).recv.acts)).length =
      1 := once
    rw [zero, once]
    decide
  refine ⟨x, reach, seven, nine, ?_, ?_⟩
  · rw [arrived 0 (by decide), seven]
  · rw [arrived 1 (by decide), nine]

end Lancaster
