import Lancaster.PacketStream
import Lancaster.ChangeQueue

/-!
# Staged records that have changed

A packet may stay half filled for long, and its records may change meanwhile. Such a
record is in the queue and will be staged again, unless the queue position jumps over it:
a first client takes up the queue at its head, whatever the packet still holds from the
time of earlier clients.
-/

namespace Lancaster

open Interleaving Sender

variable {g : Geometry}

/-- The sender beside one writer. The multicast socket is only polled while there are
clients. -/
def writerEnv (g : Geometry) : Env g where
  Move := WriterMove g
  move := World.writerMove
  admits := fun _ _ _ => true
  allows := fun e s _ =>
    match e with
    | .mcast => decide (0 < s.clientCount)
    | _ => true

/-- The storage has the staged revision of record `id`, or the record will come up in the
queue from position `q` on. -/
def Due (s : Sender g) (w : World g) (q : Nat) (id : Int) : Prop :=
  (w.store.record id).rev = s.recordRevs (id - g.baseId) ∨ w.Queued q id ∨ w.writer.Updates id

theorem Due.mono {s s' : Sender g} {w : World g} {q q' : Nat} {id : Int} (h : Due s w q id)
    (le : q' ≤ q) (revs : s'.recordRevs = s.recordRevs) : Due s' w q' id := by
  rw [Due, revs]
  rcases h with same | queued | updates
  · exact Or.inl same
  · exact Or.inr (Or.inl (queued.mono le))
  · exact Or.inr (Or.inr updates)

/-- Every step of the writer leaves what it changes due. -/
theorem Due.moved {s : Sender g} {w w' : World g} {m : WriterMove g} {q : Nat} {id : Int}
    (h : Due s w q id) (ring : QueueInv w) (reach : q ≤ w.store.qHead)
    (hm : World.writerMove m w = some w') : Due s w' q id := by
  rcases writerMove_cases hm with ⟨i, ts, val, hw, _, _, rfl⟩ | ⟨i, r, hw, rfl⟩ |
    ⟨i, hw, _, rfl⟩ | ⟨i, hw, rfl⟩ <;> simp only [Due, hw, Writer.Updates] at h
  · by_cases hi : i = id
    · exact Or.inr (Or.inr hi)
    · rcases h with same | queued | updates
      · left
        simpa [Storage.setRecord, Ne.symm hi] using same
      · exact Or.inr (Or.inl queued)
      · exact updates.elim
  · by_cases hi : i = id
    · exact Or.inr (Or.inr hi)
    · rcases h with same | queued | updates
      · left
        simpa [World.commit, Storage.setRecord, Ne.symm hi] using same
      · exact Or.inr (Or.inl queued)
      · exact absurd updates hi
  · rcases h with same | ⟨p, low, high, here⟩ | updates
    · exact Or.inl same
    · refine Or.inr (Or.inl ⟨p, low, high, ?_⟩)
      simpa [Nat.ne_of_lt high] using here
    · exact Or.inr (Or.inr updates)
  · rcases h with same | ⟨p, low, high, here⟩ | rfl
    · exact Or.inl same
    · exact Or.inr (Or.inl ⟨p, low, Nat.lt_succ_of_lt high, here⟩)
    · exact Or.inr (Or.inl ⟨w.store.qHead, reach, Nat.lt_succ_self _, ring.slotted i hw⟩)

/-- The assumption of a run: the queue is not overrun while it is read, and a first client
finds every staged record unchanged or in the course of an update. -/
def StagedKept (asked : Option (Event × Call)) (s : Sender g) (w : World g) : Prop :=
  match asked with
  | some (.mcast, _) => NotOverrun s w
  | some (.accept _ _ _, .storageGetQueueHead) => ∀ r ∈ s.staged,
      (w.store.record r.1).rev = s.recordRevs (r.1 - g.baseId) ∨ w.writer.Updates r.1
  | _ => True

structure FreshInv (ph : Phase) (s : Sender g) (w : World g) : Prop where
  stream : StreamInv ph s w
  queue : CursorInv ph s w
  due : ∀ r ∈ s.staged, Due s w (ph.cursor s) r.1

namespace FreshInv

variable {ph ph' : Phase} {s s' : Sender g} {w w' : World g}

theorem moved (h : FreshInv ph s w) {m : WriterMove g} (hm : World.writerMove m w = some w') :
    FreshInv ph s w' := by
  have wire : w'.wire = w.wire := by
    rcases writerMove_cases hm with ⟨_, _, _, _, _, _, rfl⟩ | ⟨_, _, _, rfl⟩ | ⟨_, _, _, rfl⟩ |
      ⟨_, _, rfl⟩ <;> rfl
  refine ⟨h.stream.same ⟨rfl, rfl, rfl, rfl, rfl, rfl⟩ wire, h.queue.moved hm, ?_⟩
  intro r hr
  exact (h.due r hr).moved h.queue.ring h.queue.place.cursor_le hm

theorem silent (h : FreshInv ph s w) (step : Silent ph s ph' s') : FreshInv ph' s' w := by
  refine ⟨h.stream.silent step, h.queue.silent step, ?_⟩
  have revs : s'.recordRevs = s.recordRevs := by
    cases step with
    | room | reopen => simp
    | _ => rfl
  rw [h.stream.staged_silent step]
  intro r hr
  exact (h.due r hr).mono (h.queue.place.silent step).2 revs

/-- Looking at a record moves on behind its entry. -/
theorem looked (h : FreshInv ph s w) {q e : Nat} {id : Int} (reads : Phase.Reads s w q e id)
    (phase : ph.cursor s = q) {r : Int × Value g} (hr : r ∈ s.staged) (other : r.1 ≠ id) :
    Due s w (q + 1) r.1 := by
  rcases h.due r hr with same | queued | updates
  · exact Or.inl same
  · rw [phase] at queued
    refine Or.inr (Or.inl (queued.next ?_))
    rw [reads.2.2.2]
    exact Ne.symm other
  · exact Or.inr (Or.inr updates)

theorem answered {E : Env g} {e : Event} {call : Call} (h : FreshInv ph s w)
    (kept : StagedKept (some (e, call)) s w) (step : Answer E e call ph s w ph' s' w') :
    FreshInv ph' s' w' := by
  have ahead : e = .mcast → NotOverrun s w := by
    rintro rfl
    exact kept
  refine ⟨h.stream.answered step, h.queue.answered (h.queue.calm ahead step) step, ?_⟩
  have due := h.due
  cases step with
  | idle small =>
    intro r hr
    exact (due r hr).mono small rfl
  | overrun past =>
    have head := w.head_le_written
    have := ahead rfl
    simp only [NotOverrun] at this
    omega
  | @skip q n id _ _ known free same =>
    intro r hr
    by_cases hi : r.1 = id
    · left
      rw [hi]
      exact same
    · exact h.looked h.queue.place rfl hr hi
  | @stamp _ ph' _ _ now sends due' =>
    rw [h.stream.staged_stamp sends due' now]
    intro r hr
    exact due r hr
  | send => simp [staged_empty]
  | overflow sends =>
    intro r hr
    refine (due r hr).mono ?_ rfl
    cases sends <;> exact le_refl _
  | @copy q n id sent _ _ known free =>
    rw [h.stream.staged_copy known]
    intro r hr
    by_cases hi : r.1 = id
    · left
      simp [stageValue, hi]
    · have hr : r ∈ s.staged := by
        rcases List.mem_append.mp hr with hr | hr
        · exact hr
        · obtain rfl := List.mem_singleton.mp hr
          exact absurd rfl hi
      have next := h.looked h.queue.place rfl hr hi
      have other : ¬ r.1 - g.baseId = id - g.baseId := by omega
      simpa [Due, stageValue, other, Phase.cursor] using next
  | jump =>
    intro r hr
    rcases kept r hr with same | updates
    · exact Or.inl same
    · exact Or.inr (Or.inr updates)
  | write =>
    intro r hr
    refine (due r hr).mono ?_ rfl
    cases ph <;> exact le_refl _
  | _ => exact due

end FreshInv

theorem freshKept : Kept (writerEnv g) StagedKept (fun _ _ _ => True) (fun _ _ _ => True)
    FreshInv where
  moved := fun h _ _ hm => h.moved hm
  silent := fun h step => h.silent step
  answered := fun h kept step => h.answered kept step
  quits := by
    intro ph s w order rounds h _ _ _
    refine ⟨⟨h.stream.1, h.stream.abandoned⟩, ⟨h.queue.ring, ?_⟩, ?_⟩
    · exact h.queue.place.from_last.trans h.queue.place.cursor_le
    · intro r hr
      exact (h.due r hr).mono h.queue.place.from_last rfl

/-- In every run in which the queue is not overrun and each first client finds the staged
records unchanged or in the course of an update: a staged record that has changed since is in
the queue again, from the position the sender has reached on. -/
theorem staged_requeued {ifaceMtu mtu : Nat} {buf : List UInt8} {ignoreOverrun : Bool}
    {heartbeatUsec maxPktAgeUsec now : Int} {store : Storage g} (enough : 28 ≤ ifaceMtu)
    (size : ifaceMtu < 18446744073709551616) (created : initMtu g ifaceMtu = .ok mtu)
    (len : buf.length = mtu) {x : Conf (writerEnv g).host}
    (run : (writerEnv g).host.Reach (fun _ _ y => StagedKept y.waiting y.state y.world)
      ((writerEnv g).idleConf (Sender.init mtu buf ignoreOverrun heartbeatUsec maxPktAgeUsec now)
        (World.init store)) x)
    (ahead : NotOverrun x.state x.world) {r : Int × Value g} (staged : r ∈ x.state.staged)
    (complete : ¬ x.world.writer.Updates r.1)
    (changed : (x.world.store.record r.1).rev ≠ x.state.recordRevs (r.1 - g.baseId)) :
    ∃ p, x.state.lastQIdx ≤ p ∧ p < x.world.store.qHead ∧
      x.world.store.changeQ (Storage.slot g.qCapacity p) = r.1 := by
  have init : FreshInv .rest
      (Sender.init (g := g) mtu buf ignoreOverrun heartbeatUsec maxPktAgeUsec now)
      (World.init store) := by
    refine ⟨streamInv_init enough size created len, ⟨queueInv_init store _, Nat.zero_le _⟩, ?_⟩
    simp [staged_empty, Sender.init]
  obtain ⟨ph, h⟩ := freshKept.holds (fun _ _ _ _ kept => kept) (fun _ _ _ _ _ => trivial)
    (fun _ _ _ _ _ _ => trivial) init trivial run
  obtain same | ⟨p, low, high, here⟩ | updates := h.due r staged
  · exact absurd same changed
  · have last := h.queue.place.from_last
    refine ⟨p, by omega, high, ?_⟩
    rw [← here]
    have head := x.world.head_le_written
    simp only [NotOverrun] at ahead
    exact h.queue.ring.intact p (by omega) (by omega)
  · exact absurd updates complete

/-- Record 0 is updated to the value of byte `b` and queued. -/
def updateByte (b : UInt8) : List (Choice (writerEnv small).host) :=
  [.move (WriterMove.lock 0 0 (smallValue b)), .move WriterMove.unlock, .move WriterMove.slot,
   .move WriterMove.bump]

/-- With client 0 connected, record 0 is updated and staged. -/
def stageByte : List (Choice (writerEnv small).host) :=
  acceptFirst (writerEnv small) 0 0 ++ updateByte 7 ++
  [.start Event.mcast, .reply .storageGetQueueHead (1 : Nat),
   .reply (.storageReadQueue 0) (.ok (0 : Int)), .reply (.recordReadLock 0) (.ok (1 : Int)),
   .reply (.recordCopy 0) (.ok ⟨1, 0, smallValue 7⟩), .reply .clockTime (.ok (0 : Int)),
   .reply (.latencyOnSample 0) (.ok ())]

/-- The staged record has the byte 7 while the storage has a newer revision. -/
def stagedStale (x : Conf (writerEnv small).host) : Bool :=
  decide (0 < x.state.clientCount ∧ (0, smallValue 7) ∈ x.state.staged ∧
    (x.world.store.record 0).rev ≠ x.state.recordRevs (0 - small.baseId)) &&
  match x.world.writer with
  | .idle => true
  | _ => false

theorem stagedStale_spec {x : Conf (writerEnv small).host} (h : stagedStale x = true) :
    0 < x.state.clientCount ∧ (0, smallValue 7) ∈ x.state.staged ∧
    (x.world.store.record 0).rev ≠ x.state.recordRevs (0 - small.baseId) ∧
    ¬ x.world.writer.Updates 0 := by
  obtain ⟨stale, idle⟩ := Bool.and_eq_true_iff.mp h
  obtain ⟨clients, staged, changed⟩ := of_decide_eq_true stale
  refine ⟨clients, staged, changed, ?_⟩
  split at idle
  · rename_i hw
    simp [hw, Writer.Updates]
  · cases idle

def acceptsEmpty (s : Sender small) : Option (Event × Call) → Bool
  | some (.accept _ _ _, _) => decide (s.staged = [])
  | _ => true

theorem stagedKept_of_empty {s : Sender small} {w : World small} {asked : Option (Event × Call)}
    (ahead : NotOverrun s w) (empty : acceptsEmpty s asked = true) : StagedKept asked s w := by
  unfold StagedKept
  split
  · exact ahead
  · simp [of_decide_eq_true empty]
  · trivial

/-- A record that changes while it is staged. -/
theorem staged_requeued_small : ∃ x : Conf (writerEnv small).host, 0 < x.state.clientCount ∧
    (0, smallValue 7) ∈ x.state.staged ∧
    (x.world.store.record 0).rev ≠ x.state.recordRevs (0 - small.baseId) ∧
    ∃ p, x.state.lastQIdx ≤ p ∧ p < x.world.store.qHead ∧
      x.world.store.changeQ (Storage.slot small.qCapacity p) = 0 := by
  have ends : ((writerEnv small).host.runWhile
      (fun _ _ y => decide (NotOverrun y.state y.world) && acceptsEmpty y.state y.waiting)
      (stageByte ++ updateByte 9)
      ((writerEnv small).idleConf smallSender (World.init smallStore))).any
      (fun x => stagedStale x && decide (NotOverrun x.state x.world)) = true := by
    decide +kernel
  obtain ⟨x, run, here⟩ := Host.reach_of_runWhile _ _ ends
  obtain ⟨stale, ahead⟩ := Bool.and_eq_true_iff.mp here
  obtain ⟨clients, staged, changed, complete⟩ := stagedStale_spec stale
  have run : (writerEnv small).host.Reach (fun _ _ y => StagedKept y.waiting y.state y.world)
      ((writerEnv small).idleConf smallSender (World.init smallStore)) x := by
    refine run.mono _ ?_
    intro _ _ y kept
    obtain ⟨ahead, empty⟩ := Bool.and_eq_true_iff.mp kept
    exact stagedKept_of_empty (of_decide_eq_true ahead) empty
  refine ⟨x, clients, staged, changed, ?_⟩
  exact staged_requeued (by decide : 28 ≤ 53) (by decide) (by rfl) (by rfl) run
    (of_decide_eq_true ahead) staged complete changed

/-- The client leaves, the staged record is updated, and the next client takes up the queue
behind the update. -/
theorem staged_forgotten : ∃ x, (writerEnv small).host.Reach
      (fun _ _ y => NotOverrun y.state y.world)
      ((writerEnv small).idleConf smallSender (World.init smallStore)) x ∧
    0 < x.state.clientCount ∧ ∃ r ∈ x.state.staged, ¬ x.world.writer.Updates r.1 ∧
      (x.world.store.record r.1).rev ≠ x.state.recordRevs (r.1 - small.baseId) ∧
      ¬ ∃ p, x.state.lastQIdx ≤ p ∧ p < x.world.store.qHead ∧
        x.world.store.changeQ (Storage.slot small.qCapacity p) = r.1 := by
  have ends : ((writerEnv small).host.runWhile
      (fun _ _ y => decide (NotOverrun y.state y.world))
      (stageByte ++
        [.start (Event.client 0 ⟨true, false, false⟩), .reply (.lib (.pollerRemove 0)) (.ok ()),
         .reply (.lib (.sockDestroy 0)) (.ok ()), .reply (.lib .pollerRemoveMcast) (.ok ())] ++
        updateByte 9 ++ acceptFirst (writerEnv small) 1 2)
      ((writerEnv small).idleConf smallSender (World.init smallStore))).any
      (fun x => stagedStale x && decide (x.world.store.qHead = x.state.lastQIdx)) = true := by
    decide +kernel
  obtain ⟨x, run, here⟩ := Host.reach_of_runWhile _ _ ends
  obtain ⟨stale, head⟩ := Bool.and_eq_true_iff.mp here
  obtain ⟨clients, staged, changed, complete⟩ := stagedStale_spec stale
  refine ⟨x, run.mono _ fun _ _ _ kept => of_decide_eq_true kept, clients, _, staged, complete,
    changed, ?_⟩
  rintro ⟨p, low, high, _⟩
  have := of_decide_eq_true head
  omega

end Lancaster
