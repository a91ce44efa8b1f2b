import Lancaster.Flushing
import Lancaster.Hearing
import Lancaster.Answering

/-!
# A receiver can always catch up

However many datagrams were lost, whatever was asked for and half answered: as long as the queue is
not overrun and there are sequences left, the sender and a connected receiver can go on in a way
that leaves nothing to be asked, answered or read.
-/

namespace Lancaster

open Bytes Interleaving Sender

variable {g : Geometry}

/-! ## The entries of the queue -/

structure Entries (w : World g) : Prop where
  queued : ∀ p, p < w.written → w.written ≤ p + g.qCapacity → g.Holds (w.log p)
  updated : ∀ id, w.writer.Updates id → g.Holds id

namespace Entries

variable {w w' : World g}

theorem start {store : Storage g} {peers : Nat → Peer g}
    (known : ∀ p, p < store.qHead → store.qHead ≤ p + g.qCapacity →
      g.Holds (store.changeQ (Storage.slot g.qCapacity p))) : Entries (World.start store peers) :=
  ⟨known, fun _ nothing => nothing.elim⟩

theorem same (h : Entries w) (store : w'.store = w.store) (log : w'.log = w.log)
    (writer : w'.writer = w.writer) : Entries w' := by
  have written : w'.written = w.written := by
    rw [World.written, World.written, writer, store]
  refine ⟨?_, ?_⟩
  · rw [written, log]
    exact h.queued
  · rw [writer]
    exact h.updated

theorem moved (h : Entries w) {m : WriterMove g} (hm : World.writerMove m w = some w') :
    Entries w' := by
  rcases writerMove_cases hm with ⟨id, ts, val, hw, known, _, rfl⟩ | ⟨id, r, hw, rfl⟩ |
    ⟨id, hw, _, rfl⟩ | ⟨id, hw, rfl⟩
  · have queued := h.queued
    simp only [World.written, hw] at queued
    refine ⟨queued, ?_⟩
    rintro i rfl
    exact known
  · have queued := h.queued
    have known : g.Holds id := h.updated id (by rw [hw]; rfl)
    simp only [World.written, hw] at queued
    refine ⟨queued, ?_⟩
    rintro i rfl
    exact known
  · have queued := h.queued
    have known : g.Holds id := h.updated id (by rw [hw]; rfl)
    simp only [World.written, hw] at queued
    constructor
    · intro p below near
      simp only [World.written, Storage.writeSlot] at below near ⊢
      by_cases last : p = w.store.qHead
      · rw [if_pos last]
        exact known
      · rw [if_neg last]
        exact queued p (by omega) (by omega)
    · rintro i rfl
      exact known
  · have queued := h.queued
    simp only [World.written, hw] at queued
    exact ⟨queued, fun _ nothing => nothing.elim⟩

/-- What the sender, the writer and the receivers do keeps the entries. -/
theorem next (ch : Choice (netEnv g).host) (x y : Conf (netEnv g).host) (h : Entries x.world)
    (hn : (netEnv g).host.next ch x = some y) : Entries y.world := by
  rcases Host.next_cases _ hn with ⟨m, w, rfl, hm, rfl⟩ | ⟨s, c, k, a, w, _, hr, rfl⟩ |
    ⟨e, a, t, rfl, _, _, rfl⟩
  · rcases netMove_cases hm with ⟨m, hm⟩ | ⟨i, p, rfl, _⟩
    · exact h.moved hm
    · exact h.same rfl rfl rfl
  · obtain ⟨store, log, _⟩ := reply_same hr
    exact h.same store log (reply_writer hr)
  · exact h

/-- What the sender has still to look at. -/
theorem window (h : Entries w) {s : Sender g} (ring : QueueInv w) (complete : w.writer = .idle)
    (near : w.store.qHead ≤ s.lastQIdx + g.qCapacity) :
    ∀ id ∈ Lancaster.window w.store s.lastQIdx, g.Holds id := by
  intro id here
  obtain ⟨p, inside, rfl⟩ := List.mem_map.mp here
  rw [List.mem_range'_1] at inside
  have written : w.written = w.store.qHead := by
    rw [World.written, complete]
  have below : p < w.written := by omega
  have close : w.written ≤ p + g.qCapacity := by omega
  rw [ring.intact p below close]
  exact h.queued p below close

end Entries

/-! ## The way to the end -/

/-- The sender drains its queue, sends what it holds and a heartbeat. The receiver writes its
request, hears the heartbeat and asks for what it has missed; the sender reads every request and
answers it, and the receiver reads every answer. -/
theorem Serving.catchesUp {c : Nat} {s : Sender g} {w : World g} (h : Serving c s w)
    (near : w.store.qHead ≤ s.lastQIdx + g.qCapacity)
    (ids : ∀ id ∈ window w.store s.lastQIdx, g.Holds id)
    (left : s.nextSeq + (due w.store s s.lastQIdx).length + 1 < sequenceMax) :
    ∃ s' w', Leads s w s' w' ∧ Serving c s' w' ∧ Settled c s' w' := by
  obtain ⟨s₁, w₁, run₁, serving₁, drained₁, next₁⟩ := h.drains near ids (by omega)
  have head₁ : w₁.store.qHead = w.store.qHead := by rw [run₁.unwritten.store]
  obtain ⟨s₂, w₂, run₂, serving₂, drained₂, empty₂⟩ :=
    serving₁.flushes (drained₁.trans head₁.symm) (by omega)
  have head₂ : w₂.store.qHead = w₁.store.qHead := by rw [run₂.unwritten.store]
  obtain ⟨s₃, w₃, stamp, run₃, serving₃, drained₃, empty₃, eight, beat⟩ :=
    serving₂.beats (drained₂.trans head₂.symm) empty₂
  -- the receiver is ready for the heartbeat, and asks for what it announces
  obtain ⟨w₄, run₄, serving₄, written₄, _⟩ :=
    serving₃.reads [] List.nil_prefix (Nat.zero_le _)
  obtain ⟨w₅, run₅, serving₅, level₅⟩ :=
    serving₄.hears written₄.empty eight (by rw [written₄.wire]; exact beat)
  obtain ⟨w₆, run₆, serving₆, written₆, _⟩ :=
    serving₅.reads [] List.nil_prefix (Nat.zero_le _)
  -- the sender answers everything
  obtain ⟨a, _, link, _⟩ := serving₆.repairing.running serving₆.going
  have arrived := link.conn.arrived.length_le
  obtain ⟨s₇, w₇, run₇, serving₇, beside₇, peers₇, all₇⟩ := serving₆.takesAll written₆.empty
    ((w₆.peers c).up.length - (w₆.recd c).length) (by omega)
  obtain ⟨clnt₇, here₇⟩ := serving₇.client
  obtain ⟨s₈, w₈, run₈, serving₈, beside₈, peers₈, recd₈, clnt₈, here₈, answered₈⟩ :=
    serving₇.answersAll (by rw [peers₇]; exact written₆.empty) all₇ here₇ _ rfl
  have same₈ : w₈.peers = w₆.peers := peers₈.trans peers₇
  -- and the receiver reads it
  have within := serving₈.got_le
  obtain ⟨w₉, run₉, serving₉, written₉, all₉, up₉⟩ := serving₈.readsAll
    (by rw [same₈]; exact written₆.room) (by rw [same₈]; exact written₆.empty)
    ((w₈.sent c).length - (w₈.peers c).got) (by omega)
  have idle : ∀ clnt, s₈.clients c = some clnt → clnt.outRemain = 0 := by
    intro clnt here
    rw [here₈] at here
    rw [← Option.some.inj here]
    exact answered₈.2.2
  have later : Leads s₃ w₃ s₈ w₉ :=
    run₄.trans (run₅.trans (run₆.trans (run₇.trans (run₈.trans run₉))))
  have run : Leads s w s₈ w₉ := run₁.trans (run₂.trans (run₃.trans later))
  have whole := serving₉.whole written₉.room all₉ idle
  refine ⟨s₈, w₉, run, serving₉, ⟨serving₉.complete, ?_, ?_, serving₉.going, ?_, written₉.empty, ?_,
    ⟨clnt₈, here₈, answered₈.1, answered₈.2.1, 0,
      underway_silent answered₈.2.2 all₉ whole⟩, by omega⟩,
    idle, all₉, whole⟩
  · rw [beside₈.last, beside₇.last, drained₃, later.unwritten.store, run₃.unwritten.store]
  · rw [beside₈.fill, beside₇.fill, empty₃]
  · rw [written₉.level, same₈, written₆.level, level₅, beside₈.next, beside₇.next]
  · rw [written₉.recd, recd₈, all₇, up₉, peers₈]

section Runs

variable {ifaceMtu mtu : Nat} {buf : List UInt8} {ignoreOverrun : Bool}
  {heartbeatUsec maxPktAgeUsec now : Int} {store : Storage g} {peers : Nat → Peer g}
  {x₀ x : Conf (netEnv g).host}

/-- Of a run in which the queue is not overrun, the clients do not all leave and every request is
written before the next datagram is handled, take any state between two handlers in which nothing
has failed and the receiver is connected: as long as no update is under way and there is a sequence
for each packet to come, there is a run of the same kind without a further update after which the
receiver has caught up. It has the value of every record that is in use. -/
theorem receivers_can_catch_up
    (start : x₀ = (netEnv g).idleConf (Sender.init mtu buf ignoreOverrun heartbeatUsec
      maxPktAgeUsec now) (World.start store peers)) (enough : 28 ≤ ifaceMtu)
    (size : ifaceMtu < 18446744073709551616) (created : initMtu g ifaceMtu = .ok mtu)
    (len : buf.length = mtu)
    (revs : ∀ id, 0 ≤ (store.record id).rev ∧ (store.record id).rev ≤ spinMax)
    (entries : ∀ p, p < store.qHead → store.qHead ≤ p + g.qCapacity →
      g.Holds (store.changeQ (Storage.slot g.qCapacity p)))
    (fresh : ∀ c, (peers c).Fresh) (run : (netEnv g).host.Reach Admissible x₀ x) {a : Turn g}
    (idle : x.task = .done a) (alive : a.hasQuit = false) (fine : ¬ Status.Failed a.status)
    (clients : 0 < a.sndr.clientCount) {c : Nat} {clnt : TcpClient}
    (client : a.sndr.clients c = some clnt) (going : (x.world.peers c).ended = false)
    (complete : x.world.writer = .idle) (near : NotOverrun a.sndr x.world)
    (left : a.sndr.nextSeq + (due x.world.store a.sndr a.sndr.lastQIdx).length + 1 < sequenceMax) :
    ∃ y, (netEnv g).host.Reach Admissible x y ∧ y.world.store = x.world.store ∧
      Settled c y.state y.world ∧
      ∀ id, g.Holds id → (x.world.store.record id).rev ≠ 0 →
        ((y.world.peers c).recv.store.record id).val = (x.world.store.record id).val := by
  have pristine : Pristine (Sender.init mtu buf ignoreOverrun heartbeatUsec maxPktAgeUsec now)
    (World.start store peers) := ⟨rfl, fun _ => rfl, fun _ => rfl⟩
  have counted := run.strengthen _ fun x run =>
    counted_or_pristine start pristine (fun _ _ _ admissible => admissible.2) run
  subst start
  have known : Entries x.world := run.invariant _ (fun x => Entries x.world) (.start entries)
    fun x ch y h hn _ => h.next ch x y hn
  have kept := (repairingKept c).reaches (fun _ _ _ _ known => ⟨known.1.1, known.2⟩)
    (fun _ _ _ _ _ => trivial) (fun _ _ _ _ _ _ => trivial)
    (repairing_start enough size created len revs (fresh c)) ⟨rfl, Or.inr pristine⟩ counted
  rcases kept with ⟨a', same, ph, inv, rest⟩ | ⟨_, _, _, busy, _⟩
  · rw [idle] at same
    obtain rfl : a = a' := by injection same
    rw [rest alive fine] at inv
    have serving : Serving c a.sndr x.world := ⟨inv, clients, complete, going, clnt, client⟩
    rw [NotOverrun, serving.written] at near
    obtain ⟨s', w', leads, there, settled⟩ :=
      serving.catchesUp near (known.window inv.queue.ring complete near) left
    obtain ⟨y, reached, idling⟩ := leads.reach x ⟨⟨a, idle, alive, fine, rfl⟩, rfl⟩
    obtain rfl := idling.world
    obtain rfl := idling.state
    have same := leads.unwritten.store
    refine ⟨y, reached, same, settled, fun id holds used => ?_⟩
    rw [← same] at used ⊢
    exact there.repairing.agrees settled.toCaughtUp holds used
  · rw [idle] at busy
    cases busy

end Runs

/-- Both records of the small storage are written, one of them before there is a client. -/
def writtenBoth : List (Choice (netEnv small).host) :=
  queueByte 1 9 ++ acceptFirst (netEnv small) 0 1 ++ queueByte 0 7

/-- The sender has a client, and nothing has been sent to it. -/
def unsentFirst (x : Conf (netEnv small).host) : Bool :=
  (match x.task with
  | .done a => decide (a.hasQuit = false ∧ a.status = Status.ok ∧ 0 < a.sndr.clientCount ∧
      (a.sndr.clients 0).isSome ∧ NotOverrun a.sndr x.world ∧
      a.sndr.nextSeq + (due x.world.store a.sndr a.sndr.lastQIdx).length + 1 < sequenceMax)
  | .call _ _ _ => false) &&
  (match x.world.writer with
  | .idle => true
  | _ => false) &&
  decide ((x.world.peers 0).ended = false ∧ (x.world.peers 0).recv.nextSeq = 0 ∧
    (x.world.store.record 0).rev ≠ 0 ∧ (x.world.store.record 1).rev ≠ 0)

/-- Nothing has been sent yet, and record 1 will never be: it is asked for and comes with a
reply. -/
theorem receivers_can_catch_up_small : ∃ x y : Conf (netEnv small).host,
    (netEnv small).host.Reach Admissible ((netEnv small).idleConf smallSender
      (World.start smallStore fun _ => .init smallReceiver)) x ∧
    (x.world.peers 0).recv.nextSeq = 0 ∧ (netEnv small).host.Reach Admissible x y ∧
    Settled 0 y.state y.world ∧
    ((y.world.peers 0).recv.store.record 0).val = (x.world.store.record 0).val ∧
    ((y.world.peers 0).recv.store.record 1).val = (x.world.store.record 1).val := by
  have start : (netEnv small).idleConf smallSender
        (World.start smallStore fun _ => .init smallReceiver) =
      (netEnv small).idleConf (Sender.init 25 (List.replicate 25 0) false 50 10 0)
        (World.start smallStore fun _ => .init smallReceiver) := rfl
  have ends : ((netEnv small).host.runWhile
      (fun x _ y => decide (undisturbed y.state y.world y.waiting ∧
        (0 < x.state.clientCount → 0 < y.state.clientCount))) writtenBoth
      ((netEnv small).idleConf smallSender (World.start smallStore fun _ => .init smallReceiver))).any
      unsentFirst = true := by
    decide +kernel
  obtain ⟨x, run, here⟩ := Host.reach_of_runWhile _ _ ends
  have run : (netEnv small).host.Reach Admissible ((netEnv small).idleConf smallSender
      (World.start smallStore fun _ => .init smallReceiver)) x := by
    refine run.mono _ fun _ _ _ kept => ?_
    obtain ⟨calm, stays⟩ := of_decide_eq_true kept
    exact ⟨calm, stays⟩
  obtain ⟨writer, rest⟩ := Bool.and_eq_true_iff.mp here
  obtain ⟨sender, resting⟩ := Bool.and_eq_true_iff.mp writer
  obtain ⟨going, unheard, used₀, used₁⟩ := of_decide_eq_true rest
  have complete : x.world.writer = .idle := by
    split at resting
    · rename_i idle
      exact idle
    · cases resting
  have fresh : ∀ _ : Nat, Peer.Fresh (.init smallReceiver) :=
    fun _ => ⟨_, _, _, _, _, rfl, rfl, rfl⟩
  have revs : ∀ id, 0 ≤ (smallStore.record id).rev ∧ (smallStore.record id).rev ≤ spinMax :=
    fun _ => ⟨le_refl _, Int.zero_le_ofNat _⟩
  split at sender
  · rename_i a idle
    obtain ⟨alive, fine, clients, client, near, left⟩ := of_decide_eq_true sender
    obtain ⟨clnt, client⟩ := Option.isSome_iff_exists.mp client
    obtain ⟨y, reached, _, settled, agree⟩ := receivers_can_catch_up start (show 28 ≤ 53 by decide)
      (by decide) rfl rfl revs (fun _ nothing => absurd nothing (Nat.not_lt_zero _)) fresh run idle alive
      (by rw [fine]; exact not_failed_ok) clients client going complete near left
    exact ⟨x, y, run, unheard, reached, settled,
      agree 0 (by decide) used₀, agree 1 (by decide) used₁⟩
  · cases sender

end Lancaster
