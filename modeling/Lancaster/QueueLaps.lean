import Lancaster.QueueScan

/-!
# Entries that the writer has come round to

The head of the queue is taken once for a whole pass over it, while the writer goes on. An
entry that is read when the writer is more than a round ahead of it is another entry. The
queue calls of the storage are single steps here.
-/

namespace Lancaster

open Interleaving Sender

variable {g : Geometry}

/-- What others do to the queue and to the records, each as one step. -/
inductive QueueMove (g : Geometry) where
  | write (id : Int)
  | record (id : Int) (r : Record g)

def World.queueMove : QueueMove g → World g → Option (World g)
  | .write id, w =>
    match w.store.storageWriteQueue g.qCapacity id with
    | .error _ => none
    | .ok store => some { w with
        store := store
        log := fun q => if q = w.store.qHead then id else w.log q }
  | .record id r, w => some { w with store := w.store.setRecord id r }

/-- One writer of the queue; nothing is known of the records. -/
def queueEnv (g : Geometry) : Env g where
  Move := QueueMove g
  move := World.queueMove
  admits := fun _ _ _ => true
  allows := fun _ _ _ => true

def RingIntact (w : World g) : Prop :=
  ∀ q, q < w.store.qHead → w.store.qHead ≤ q + g.qCapacity →
    w.store.changeQ (Storage.slot g.qCapacity q) = w.log q

structure QueueGrows (w w' : World g) : Prop where
  head : w.store.qHead ≤ w'.store.qHead
  log : ∀ q, q < w.store.qHead → w'.log q = w.log q
  ring : RingIntact w → RingIntact w'

namespace QueueGrows

variable {w w' w'' : World g}

theorem same (store : w'.store = w.store) (log : w'.log = w.log) : QueueGrows w w' := by
  refine ⟨by rw [store], fun q _ => by rw [log], fun intact => ?_⟩
  unfold RingIntact
  rw [store, log]
  exact intact

theorem trans (h : QueueGrows w w') (h' : QueueGrows w' w'') : QueueGrows w w'' :=
  ⟨le_trans h.head h'.head,
    fun q below => (h'.log q (lt_of_lt_of_le below h.head)).trans (h.log q below),
    fun intact => h'.ring (h.ring intact)⟩

theorem moved {m : QueueMove g} (h : World.queueMove m w = some w') : QueueGrows w w' := by
  cases m with
  | record id r =>
    obtain rfl := Option.some.inj h
    exact ⟨le_refl _, fun _ _ => rfl, fun intact => intact⟩
  | write id =>
    simp only [World.queueMove, Storage.storageWriteQueue] at h
    split at h
    · cases h
    · rename_i st hst
      split at hst
      · cases hst
      · obtain rfl := Except.ok.inj hst
        obtain rfl := Option.some.inj h
        refine ⟨Nat.le_succ _, fun q below => if_neg (Nat.ne_of_lt below), fun intact => ?_⟩
        intro q below near
        dsimp only at below near ⊢
        by_cases here : q = w.store.qHead
        · simp [here]
        · have other : Storage.slot g.qCapacity q ≠ Storage.slot g.qCapacity w.store.qHead :=
            Storage.slot_ne (by omega) (by omega)
          rw [if_neg other, if_neg here]
          exact intact q (by omega) (by omega)

/-- No answer touches the queue. -/
theorem replied {c : Call} {a : c.Ans g} (h : (queueEnv g).host.reply c a w = some w') :
    QueueGrows w w' := by
  obtain ⟨store, log, _⟩ := reply_same h
  exact same store log

theorem next {ch : Choice (queueEnv g).host} {x y : Conf (queueEnv g).host}
    (h : (queueEnv g).host.next ch x = some y) : QueueGrows x.world y.world := by
  rcases Host.next_cases _ h with ⟨m, w, _, hm, rfl⟩ | ⟨s, c, k, a, w, _, hr, rfl⟩ |
    ⟨e, a, t, _, _, _, rfl⟩
  · exact moved hm
  · exact replied hr
  · exact same rfl rfl

theorem path {ok : Conf (queueEnv g).host → Choice (queueEnv g).host →
    Conf (queueEnv g).host → Prop}
    {x y : Conf (queueEnv g).host} {chs : List (Choice (queueEnv g).host)}
    (h : (queueEnv g).host.Path ok x chs y) : QueueGrows x.world y.world := by
  induction h with
  | nil x => exact same rfl rfl
  | cons hn _ _ ih => exact (next hn).trans ih

end QueueGrows

theorem ringIntact_start (store : Storage g) (peers : Nat → Peer g) :
    RingIntact (World.start store peers) := fun _ _ _ => rfl

/-- An entry is read while the writer is at most a round ahead of it. -/
def readsInTime (x : Conf (queueEnv g).host) (ch : Choice (queueEnv g).host)
    (_ : Conf (queueEnv g).host) : Bool :=
  match ch with
  | .reply (.storageReadQueue q) _ => x.world.store.qHead ≤ q + g.qCapacity
  | _ => true

abbrev ReadsInTime (x : Conf (queueEnv g).host) (ch : Choice (queueEnv g).host)
    (y : Conf (queueEnv g).host) : Prop := readsInTime x ch y = true

/-- The entry that an answer brings is the one in the slot. -/
theorem reply_readQueue {q : Nat} {id : Int} {w w' : World g}
    (h : (queueEnv g).host.reply (.storageReadQueue q) (.ok id) w = some w') :
    id = w.store.changeQ (Storage.slot g.qCapacity q) := by
  simp only [Env.host, queueEnv, ↓reduceIte, World.reply, Storage.storageReadQueue] at h
  split at h
  · rename_i eq _
    cases eq
  · rename_i eq ring
    cases eq
    split at ring
    · cases ring
    · cases ring
      split at h
      · assumption
      · cases h
  · cases h

theorem reply_getQueueHead {head : Nat} {w w' : World g}
    (h : (queueEnv g).host.reply .storageGetQueueHead head w = some w') :
    head = w.store.qHead := by
  simp only [Env.host, queueEnv, ↓reduceIte, World.reply] at h
  split at h
  · assumption
  · cases h

section Calls

variable {ok : Conf (queueEnv g).host → Choice (queueEnv g).host → Conf (queueEnv g).host → Prop}
  {x y : Conf (queueEnv g).host} {chs : List (Choice (queueEnv g).host)}

/-- A handler reads an entry after it has seen the head: what the queue was at both times. -/
theorem read_at (path : (queueEnv g).host.Path ok x chs y) {head : Nat} {rest : Trace g}
    (calls : (queueEnv g).host.replies chs = ⟨.storageGetQueueHead, head⟩ :: rest) {q : Nat}
    {id : Int} (read : ⟨.storageReadQueue q, .ok id⟩ ∈ rest) :
    Choice.reply (.storageReadQueue q) (.ok id) ∈ chs ∧
    ∃ u v, QueueGrows x.world u.world ∧ head ≤ u.world.store.qHead ∧
      ok u (.reply (.storageReadQueue q) (.ok id)) v ∧
      id = u.world.store.changeQ (Storage.slot g.qCapacity q) ∧ QueueGrows u.world y.world := by
  obtain ⟨as, bs, rfl, _, later⟩ := Host.replies_eq_cons _ calls
  have here := (Host.mem_replies _).mp (later ▸ read)
  refine ⟨List.mem_append_right _ (List.mem_cons_of_mem _ here), ?_⟩
  obtain ⟨u, v, before, heads, _, after⟩ := path.cut
  obtain ⟨cs, ds, rfl⟩ := List.append_of_mem here
  obtain ⟨u', v', between, reads, fine, behind⟩ := after.cut
  have seen := reply_getQueueHead (Host.next_reply _ heads)
  have grown := (QueueGrows.next heads).trans (.path between)
  refine ⟨u', v', (QueueGrows.path before).trans grown, ?_, fine, ?_, ?_⟩
  · rw [seen]
    exact grown.head
  · exact reply_readQueue (Host.next_reply _ reads)
  · exact (QueueGrows.next reads).trans (.path behind)

/-- An entry that is read in time is the one that was written. -/
theorem log_of_read {u w : World g} {head q : Nat} {id : Int} (intact : RingIntact u)
    (announced : head ≤ u.store.qHead) (below : q < head) (near : u.store.qHead ≤ q + g.qCapacity)
    (read : id = u.store.changeQ (Storage.slot g.qCapacity q)) (grows : QueueGrows u w) :
    w.log q = id := by
  have low : q < u.store.qHead := by omega
  rw [grows.log q low, read]
  exact (intact q low near).symm

/-- A call of `mcast_on_write`, from its start to its end. -/
theorem mcast_call {result : Turn g}
    (call : (queueEnv g).host.Path ok x (.start .mcast :: chs) y)
    (one : ∀ e, .start e ∉ chs) (finished : y.task = .done result) :
    ∃ z, (queueEnv g).host.Path ok z chs y ∧ z.world = x.world ∧
      (mcastOnWrite x.state).Ends ((queueEnv g).host.replies chs) (result.status, result.sndr) := by
  cases call with
  | @cons _ z _ _ _ started _ path =>
    rcases Host.next_cases _ started with ⟨_, _, eq, _⟩ | ⟨s, c, k, a, w, pending, _, _⟩ |
      ⟨e, a, t, eq, idle, starts, rfl⟩
    · cases eq
    · simp only [Host.next, pending] at started
      cases started
    cases eq
    have state : x.state = a.sndr := by
      rw [Conf.state, idle]
      rfl
    have task : t = (mcastOnWrite a.sndr).bind fun r => .done (turn false r) := by
      simp only [Env.host] at starts
      split at starts
      · cases starts
      · split at starts
        · exact (Option.some.inj starts).symm
        · cases starts
    subst task
    refine ⟨_, path, rfl, ?_⟩
    obtain ⟨⟨st, s'⟩, calls, nothing, split, writes, done⟩ :=
      Task.ends_bind.mp (path.ends one finished)
    obtain ⟨rfl, rfl⟩ := Task.ends_done.mp done
    rw [List.append_nil] at split
    rw [split, state]
    exact writes

end Calls

/-- Without `ignore_overrun`, if every entry is read while the writer is at most a round
ahead of it, then a call of `mcast_on_write` fails with an overrun or has read each entry
that it passes as it was written. -/
theorem passed_as_written {s₀ : Sender g} {store : Storage g} {peers : Nat → Peer g}
    {x y : Conf (queueEnv g).host} {chs : List (Choice (queueEnv g).host)} {result : Turn g}
    (before : (queueEnv g).host.Reach ReadsInTime
      ((queueEnv g).idleConf s₀ (World.start store peers)) x)
    (strict : x.state.ignoreOverrun = false)
    (call : (queueEnv g).host.Path ReadsInTime x (.start .mcast :: chs) y)
    (one : ∀ e, .start e ∉ chs) (finished : y.task = .done result) :
    result.status = Status.changeQueueOverrun ∨
    ∀ q, x.state.lastQIdx ≤ q → q < result.sndr.lastQIdx →
      ∃ id, Choice.reply (.storageReadQueue q) (.ok id) ∈ chs ∧ y.world.log q = id := by
  have intact : RingIntact x.world := by
    refine Host.Reach.invariant _ (fun x => RingIntact x.world) (ringIntact_start store peers) ?_ before
    intro x ch y h hn _
    exact (QueueGrows.next hn).ring h
  obtain ⟨z, path, same, writes⟩ := mcast_call call one finished
  obtain ⟨head, rest, split, outcome⟩ := mcastOnWrite_ends writes
  rcases outcome with ⟨empty, ends⟩ | ⟨_, _, _, overrun, _⟩ |
    ⟨more, ignores, st₁, s₁, q', pass, _, after⟩
  · obtain ⟨_, ⟨last, _, _⟩, _⟩ := mcastOnEmptyQueue_ends ends
    refine Or.inr fun q low high => ?_
    have last : result.sndr.lastQIdx = head := last
    omega
  · exact Or.inl overrun
  · refine Or.inr fun q low high => ?_
    have near : ¬ x.state.lastQIdx + g.qCapacity < head := by
      intro far
      rw [ignores far] at strict
      cases strict
    have start : x.state.scanStart head = x.state.lastQIdx := by rw [scanStart, if_neg near]
    rw [start] at pass
    rw [after] at high
    have high : q < q' := high
    obtain ⟨id, read⟩ := pass.passed q low high
    have top := pass.high
    obtain ⟨here, u, v, grown, announced, inTime, value, grows⟩ := read_at path split read
    refine ⟨id, here, log_of_read (grown.ring (same ▸ intact)) announced (by omega) ?_ value grows⟩
    exact of_decide_eq_true inTime

/-- A sender that waits for its first client, with nothing in the queue. -/
def smallQueueConf : Conf (queueEnv small).host :=
  (queueEnv small).idleConf smallSender (World.init smallStore)

def stageEntry (q : Nat) (id : Int) : List (Choice (queueEnv small).host) :=
  [.reply (.storageReadQueue q) (.ok id), .reply (.recordReadLock id) (.ok (0 : Int)),
   .reply (.recordCopy id) (.ok ⟨0, 0, smallValue 0⟩), .reply .clockTime (.ok (0 : Int)),
   .reply (.latencyOnSample 0) (.ok ())]

/-- The handler has ended without a failure, at position `q` of the queue. -/
def endedAt (q : Nat) (y : Conf (queueEnv small).host) : Bool :=
  match y.task with
  | .done result => result.status = Status.ok ∧ result.sndr.lastQIdx = q
  | .call _ _ _ => false

theorem endedAt_spec {q : Nat} {y : Conf (queueEnv small).host} (h : endedAt q y = true) :
    ∃ result, y.task = .done result ∧ result.status = Status.ok ∧ result.sndr.lastQIdx = q := by
  unfold endedAt at h
  split at h
  · rename_i result task
    exact ⟨result, task, (of_decide_eq_true h).1, (of_decide_eq_true h).2⟩
  · cases h

def readOne : List (Choice (queueEnv small).host) :=
  .reply .storageGetQueueHead (1 : Nat) :: stageEntry 0 0

theorem passed_as_written_small : ∃ (x y : Conf (queueEnv small).host) (result : Turn small),
    (queueEnv small).host.Reach ReadsInTime smallQueueConf x ∧ y.task = .done result ∧
    result.sndr.lastQIdx = 1 ∧ (result.status = Status.changeQueueOverrun ∨
      ∀ q, x.state.lastQIdx ≤ q → q < result.sndr.lastQIdx →
        ∃ id, Choice.reply (.storageReadQueue q) (.ok id) ∈ readOne ∧ y.world.log q = id) := by
  have run : (((queueEnv small).host.runWhile readsInTime
      (acceptFirst (queueEnv small) 0 0 ++ [.move (.write 0)]) smallQueueConf).any fun x =>
      !x.state.ignoreOverrun && ((queueEnv small).host.runWhile readsInTime
        (.start .mcast :: readOne) x).any (endedAt 1)) = true := by decide +kernel
  obtain ⟨x, first, rest⟩ := (Option.any_eq_true _ _).mp run
  rw [Bool.and_eq_true] at rest
  obtain ⟨y, second, ended⟩ := (Option.any_eq_true _ _).mp rest.2
  obtain ⟨result, task, _, last⟩ := endedAt_spec ended
  have before := (Host.Path.of_runWhile first).reach .refl
  refine ⟨x, y, result, before, task, last, ?_⟩
  refine passed_as_written before (by simpa using rest.1) (Host.Path.of_runWhile second) ?_ task
  intro e here
  simp [readOne, stageEntry] at here

/-- Two entries are found; while the first is staged, the writer queues two more. -/
def readLapped : List (Choice (queueEnv small).host) :=
  .reply .storageGetQueueHead (2 : Nat) :: stageEntry 0 0 ++
    [.move (.write 0), .move (.write 0), .reply (.storageReadQueue 1) (.ok (0 : Int)),
     .reply (.recordReadLock 0) (.ok (0 : Int))]

/-- The second entry is record 1. It is passed as record 0, and no failure tells. -/
theorem lap_unnoticed : ∃ (x y : Conf (queueEnv small).host) (result : Turn small),
    (queueEnv small).host.Reachable smallQueueConf x ∧ x.state.ignoreOverrun = false ∧
    (queueEnv small).host.Path (fun _ _ _ => True) x (.start .mcast :: readLapped) y ∧
    (∀ e, .start e ∉ readLapped) ∧ y.task = .done result ∧
    ¬ (result.status = Status.changeQueueOverrun ∨
      ∀ q, x.state.lastQIdx ≤ q → q < result.sndr.lastQIdx →
        ∃ id, Choice.reply (.storageReadQueue q) (.ok id) ∈ readLapped ∧ y.world.log q = id) := by
  have run : (((queueEnv small).host.run
      (acceptFirst (queueEnv small) 0 0 ++ [.move (.write 0), .move (.write 1)])
      smallQueueConf).any fun x =>
      !x.state.ignoreOverrun && decide (x.state.lastQIdx = 0) &&
        ((queueEnv small).host.run (.start .mcast :: readLapped) x).any fun y =>
          endedAt 2 y && decide (y.world.log 1 = 1)) = true := by decide +kernel
  obtain ⟨x, first, rest⟩ := (Option.any_eq_true _ _).mp run
  simp only [Bool.and_eq_true, decide_eq_true_eq] at rest
  obtain ⟨⟨strict, zero⟩, rest⟩ := rest
  obtain ⟨y, second, ended⟩ := (Option.any_eq_true _ _).mp rest
  simp only [Bool.and_eq_true, decide_eq_true_eq] at ended
  obtain ⟨result, task, ok, last⟩ := endedAt_spec ended.1
  refine ⟨x, y, result, (Host.Path.of_run first).reach .refl, by simpa using strict,
    Host.Path.of_run second, ?_, task, ?_⟩
  · intro e here
    simp [readLapped, stageEntry] at here
  · rintro (overrun | all)
    · rw [ok] at overrun
      exact absurd overrun (by decide)
    · obtain ⟨id, here, log⟩ := all 1 (by omega) (by omega)
      have zero : id = 0 := by simpa [readLapped, stageEntry] using here
      rw [ended.2] at log
      omega

end Lancaster
