import Lancaster.QueueLaps

/-!
# The queue of a writer that has restarted

A writer that starts again may reset the storage: the records, the slots and the head of the
queue are all zero, and revisions count from zero. With `ignore_recreate` the sender goes on
with the `last_q_idx` and the revisions of the earlier life. What it makes of the new queue
depends on the first head that it finds there.
-/

namespace Lancaster

open Interleaving Sender

variable {g : Geometry}

def foundHeads (chs : List (Choice (queueEnv g).host)) : List Nat :=
  chs.filterMap fun
    | .reply .storageGetQueueHead (head : Nat) => some head
    | _ => none

theorem mem_foundHeads {chs : List (Choice (queueEnv g).host)} {head : Nat} :
    head ∈ foundHeads chs ↔ Choice.reply .storageGetQueueHead head ∈ chs := by
  rw [foundHeads, List.mem_filterMap]
  constructor
  · rintro ⟨ch, here, eq⟩
    split at eq
    · cases eq
      exact here
    · cases eq
  · intro here
    exact ⟨_, here, rfl⟩

theorem foundHeads_append (as bs : List (Choice (queueEnv g).host)) :
    foundHeads (as ++ bs) = foundHeads as ++ foundHeads bs := by
  simp [foundHeads]

/-- The entry at `q` has been read, and it was the one that the writer had put there. -/
def Visited (chs : List (Choice (queueEnv g).host)) (w : World g) (q : Nat) : Prop :=
  Choice.reply (.storageReadQueue q) (.ok (w.log q)) ∈ chs

def Overrun (w : World g) (q : Nat) : Prop := q + g.qCapacity < w.store.qHead

theorem Visited.grow {as : List (Choice (queueEnv g).host)} {w w' : World g} {q : Nat}
    (h : Visited as w q) (grows : QueueGrows w w') (announced : q < w.store.qHead)
    (bs : List (Choice (queueEnv g).host)) : Visited (as ++ bs) w' q := by
  unfold Visited
  rw [grows.log q announced]
  exact List.mem_append_left _ h

theorem Overrun.grow {w w' : World g} {q : Nat} (h : Overrun w q) (grows : QueueGrows w w') :
    Overrun w' q := lt_of_lt_of_le h grows.head

/-- The first head behind a reset with which nothing that is left of the new queue lies below
the old `last`. -/
def Realigned (g : Geometry) (last head : Nat) : Prop :=
  last = 0 ∨ head = 0 ∨ last + g.qCapacity ≤ head

instance (last head : Nat) : Decidable (Realigned g last head) :=
  inferInstanceAs (Decidable (_ ∨ _))

/-- If the revision of `r` is the one that record `id` was last staged with, then so is its
value. -/
def Marked (s : Sender g) (id : Int) (r : Record g) : Prop :=
  s.recordRevs (id - g.baseId) = r.rev → s.lastStaged id = some r.val

instance (s : Sender g) (id : Int) (r : Record g) : Decidable (Marked s id r) :=
  inferInstanceAs (Decidable (_ → _))

/-- The queue head is asked for by `mcast_on_write`, not for a first client; and what is
written to a record brings back no revision that was staged with another value. -/
def restartStep (x : Conf (queueEnv g).host) (ch : Choice (queueEnv g).host)
    (_ : Conf (queueEnv g).host) : Bool :=
  match ch with
  | .reply .storageGetQueueHead _ =>
    match x.last with
    | some .mcast => true
    | _ => false
  | .move (.record id r) => decide (0 ≤ r.rev → Marked x.state id r)
  | _ => true

abbrev RestartStep (x : Conf (queueEnv g).host) (ch : Choice (queueEnv g).host)
    (y : Conf (queueEnv g).host) : Prop := restartStep x ch y = true

theorem RestartStep.asks {x y : Conf (queueEnv g).host} {head : Nat}
    (h : RestartStep x (.reply .storageGetQueueHead head) y) : x.last = some .mcast := by
  simp only [RestartStep, restartStep] at h
  split at h
  · assumption
  · cases h

/-! ## Handlers that do not ask for the head -/

def Phase.Outside : Phase → Prop
  | .rest | .beat | .accepting _ | .joined _ | .first | .quitting | .telling _ | .dead => True
  | _ => False

/-- The sender has the position `last`, and is not in the queue loop. -/
def Still (last : Nat) (ph : Phase) (s : Sender g) (_ : World g) : Prop :=
  ph.Outside ∧ s.lastQIdx = last

theorem Still.silent {last : Nat} {ph ph' : Phase} {s s' : Sender g} {w : World g}
    (h : Still last ph s w) (step : Silent ph s ph' s') : Still last ph' s' w := by
  obtain ⟨outside, here⟩ := h
  cases step with
  | fail => exact ⟨by cases ph <;> trivial, here⟩
  | settle | drained | blocked | broke | goOn | full | room | reopen | aged => exact absurd outside id
  | tally | sendTime => exact ⟨outside, here⟩
  | _ => exact ⟨trivial, here⟩

theorem stillKept (last : Nat) : Kept (queueEnv g)
    (fun e _ _ => ∀ e' c, e = some (e', c) → c ≠ .storageGetQueueHead) (fun _ _ _ => True)
    (fun _ _ _ => True) (Still last) where
  moved := fun h _ _ _ => h
  silent := Still.silent
  answered := by
    intro e c ph s w ph' s' w' h other step
    obtain ⟨outside, here⟩ := h
    cases step with
    | idle | opens | overrun | jump => exact absurd rfl (other _ _ rfl)
    | readQueue | skip | changed | copy => exact absurd outside id
    | stamp => exact ⟨outside, here⟩
    | send sends => cases sends <;> first | exact absurd outside id | exact ⟨trivial, here⟩
    | overflow sends => cases sends <;> first | exact absurd outside id | exact ⟨trivial, here⟩
    | write => exact ⟨outside, here⟩
    | _ => exact ⟨trivial, here⟩
  quits := fun h _ _ _ => ⟨trivial, h.2⟩

section Runs

variable {ok : Conf (queueEnv g).host → Choice (queueEnv g).host → Conf (queueEnv g).host → Prop}
  {x y : Conf (queueEnv g).host} {chs : List (Choice (queueEnv g).host)}

/-- Between two handlers, a run in which no head is found leaves `last_q_idx` alone. -/
theorem last_of_unasked {a b : Turn g} (path : (queueEnv g).host.Path ok x chs y)
    (idle : x.task = .done a) (finished : y.task = .done b) (unasked : foundHeads chs = []) :
    b.sndr.lastQIdx = a.sndr.lastQIdx := by
  -- a handler that waits for the head gets it before the run is over
  have assumed : ∀ u ch v, (queueEnv g).host.next ch u = some v →
      (ok u ch v ∧ ∃ as bs, chs = as ++ ch :: bs ∧ (queueEnv g).host.Path ok v bs y) →
      ∀ e c, v.waiting = some (e, c) → c ≠ .storageGetQueueHead := by
    rintro u ch v _ ⟨_, as, bs, rfl, later⟩ e c waits rfl
    have task : ∃ s k, v.task = .call s .storageGetQueueHead k := by
      unfold Conf.waiting at waits
      split at waits
      · rename_i s c k e' task _
        cases Option.some.inj waits
        exact ⟨s, k, task⟩
      · cases waits
    obtain ⟨s, k, task⟩ := task
    obtain ⟨head, answered⟩ := later.answers task finished
    have found : head ∈ foundHeads (as ++ ch :: bs) :=
      mem_foundHeads.mpr (List.mem_append_right _ (List.mem_cons_of_mem _ answered))
    rw [unasked] at found
    cases found
  obtain ⟨ph, still⟩ := (stillKept a.sndr.lastQIdx).holds_from assumed
    (fun _ _ _ _ _ => trivial) (fun _ _ _ _ _ _ => trivial) idle ⟨trivial, rfl⟩ nofun
    path.reach_rest
  rw [Conf.state, finished] at still
  exact still.2

/-! ## What a call of `mcast_on_write` passes -/

/-- The first answer of a handler is the head of the queue. -/
theorem head_found (path : (queueEnv g).host.Path ok x chs y) {head : Nat} {rest : Trace g}
    (calls : (queueEnv g).host.replies chs = ⟨.storageGetQueueHead, head⟩ :: rest) :
    (foundHeads chs).head? = some head ∧ head ≤ y.world.store.qHead := by
  obtain ⟨as, bs, rfl, empty, _⟩ := Host.replies_eq_cons _ calls
  constructor
  · have unasked : foundHeads as = [] := by
      refine List.eq_nil_iff_forall_not_mem.mpr fun h found => ?_
      have here := (Host.mem_replies _).mpr (mem_foundHeads.mp found)
      rw [empty] at here
      cases here
    rw [foundHeads_append, unasked]
    rfl
  · obtain ⟨u, v, _, heads, _, after⟩ := path.cut
    rw [reply_getQueueHead (Host.next_reply _ heads)]
    exact ((QueueGrows.next heads).trans (.path after)).head

/-- A call passes only what it has read as it was written, what is overrun, and what lies
below the position it began with. -/
theorem mcast_passes {result : Turn g} (intact : RingIntact x.world)
    (call : (queueEnv g).host.Path ok x (.start .mcast :: chs) y)
    (one : ∀ e, .start e ∉ chs) (finished : y.task = .done result) :
    ∃ head : Nat, (foundHeads chs).head? = some head ∧ head ≤ y.world.store.qHead ∧
      result.sndr.lastQIdx ≤ y.world.store.qHead ∧
      ∀ q, q < result.sndr.lastQIdx → Visited chs y.world q ∨ Overrun y.world q ∨
        (q < x.state.lastQIdx ∧ q < head) := by
  obtain ⟨z, path, same, writes⟩ := mcast_call call one finished
  obtain ⟨head, rest, split, outcome⟩ := mcastOnWrite_ends writes
  obtain ⟨found, top⟩ := head_found path split
  refine ⟨head, found, top, ?_⟩
  unfold Overrun
  rcases outcome with ⟨empty, ends⟩ | ⟨far, _, _, _, after⟩ | ⟨more, _, st₁, s₁, q', pass, _, after⟩
  · obtain ⟨_, ⟨last, _, _⟩, _⟩ := mcastOnEmptyQueue_ends ends
    have last : result.sndr.lastQIdx = head := last
    refine ⟨by omega, fun q below => Or.inr (Or.inr (by omega))⟩
  · rw [after]
    exact ⟨by omega, fun q below => Or.inr (Or.inl (by omega))⟩
  · have last : result.sndr.lastQIdx = q' := by rw [after]
    have high := pass.high
    have start : x.state.scanStart head ≤ head ∧ (x.state.scanStart head = x.state.lastQIdx ∨
        x.state.scanStart head + g.qCapacity ≤ head) := by
      unfold scanStart
      split <;> omega
    rw [last]
    refine ⟨by omega, fun q below => ?_⟩
    by_cases low : x.state.scanStart head ≤ q
    · obtain ⟨id, read⟩ := pass.passed q low below
      obtain ⟨here, u, v, grown, announced, _, value, grows⟩ := read_at path split read
      by_cases near : y.world.store.qHead ≤ q + g.qCapacity
      · left
        have soon := grows.head
        have log := log_of_read (grown.ring (same ▸ intact)) announced (by omega) (by omega) value grows
        rw [Visited, log]
        exact here
      · exact Or.inr (Or.inl (by omega))
    · rcases start.2 with same | far
      · exact Or.inr (Or.inr (by omega))
      · exact Or.inr (Or.inl (by omega))

/-- A call that ends well, and of which no part was blocked, has come up with the head. -/
theorem mcast_catches_up {result : Turn g}
    (call : (queueEnv g).host.Path ok x (.start .mcast :: chs) y)
    (one : ∀ e, .start e ∉ chs) (finished : y.task = .done result)
    (fine : result.status = Status.ok)
    (free : ∀ r ∈ (queueEnv g).host.replies chs, failure r ≠ some .blocked) :
    (foundHeads chs).head? = some result.sndr.lastQIdx := by
  obtain ⟨z, path, _, writes⟩ := mcast_call call one finished
  obtain ⟨head, rest, split, outcome⟩ := mcastOnWrite_ends writes
  rw [(head_found path split).1]
  rcases outcome with ⟨_, ends⟩ | ⟨_, _, _, overrun, _⟩ |
    ⟨more, _, st₁, s₁, q', pass, status, after⟩
  · obtain ⟨_, ⟨last, _, _⟩, _⟩ := mcastOnEmptyQueue_ends ends
    exact congrArg some last.symm
  · rw [fine] at overrun
    exact absurd overrun (by decide)
  · rw [fine] at status
    have zero : st₁ = 0 := by
      by_contra stopped
      have blocked : st₁ = Status.blocked := by
        by_contra other
        rw [if_neg other] at status
        exact stopped status.symm
      rcases pass.ends with plain | ⟨r, here, e, failed, eq⟩
      · rw [blocked] at plain
        rcases plain with eq | eq | eq | eq <;> exact absurd eq (by decide)
      · refine free r ?_ ?_
        · rw [split]
          exact List.mem_cons_of_mem _ here
        · rw [failed]
          exact congrArg some (Subtype.ext (eq.symm.trans blocked))
    have last := pass.all zero
    have low := pass.low
    have start : x.state.scanStart head ≤ head := by
      unfold scanStart
      split <;> omega
    rw [after]
    exact congrArg some (show head = q' by omega)

end Runs

/-! ## Runs behind a reset -/

/-- Behind a reset that the sender met at position `last`, with the choices `hist` since
then: up to the first head the sender stays there, and from then on all that it has passed it
has read, or the writer has come round to it. -/
structure Resumed (last : Nat) (hist : List (Choice (queueEnv g).host))
    (u : Conf (queueEnv g).host) : Prop where
  ring : RingIntact u.world
  waits : foundHeads hist = [] → u.state.lastQIdx = last
  behind : foundHeads hist ≠ [] → u.state.lastQIdx ≤ u.world.store.qHead
  passed : foundHeads hist ≠ [] → ∀ q, q < u.state.lastQIdx →
    Visited hist u.world q ∨ Overrun u.world q

namespace Resumed

variable {last : Nat} {hist cs : List (Choice (queueEnv g).host)} {u v : Conf (queueEnv g).host}

/-- Nothing is asked for, and the position stays. -/
theorem still (h : Resumed last hist u) (grows : QueueGrows u.world v.world)
    (unasked : foundHeads cs = []) (same : v.state.lastQIdx = u.state.lastQIdx) :
    Resumed last (hist ++ cs) v := by
  have heads : foundHeads (hist ++ cs) = foundHeads hist := by
    rw [foundHeads_append, unasked, List.append_nil]
  constructor
  · exact grows.ring h.ring
  · rw [heads, same]
    exact h.waits
  · rw [heads, same]
    exact fun found => le_trans (h.behind found) grows.head
  · rw [heads, same]
    intro found q below
    have announced := lt_of_lt_of_le below (h.behind found)
    rcases h.passed found q below with read | lapped
    · exact Or.inl (read.grow grows announced cs)
    · exact Or.inr (lapped.grow grows)

/-- A call of `mcast_on_write`. -/
theorem called {ok : Conf (queueEnv g).host → Choice (queueEnv g).host →
    Conf (queueEnv g).host → Prop}
    {result : Turn g} (h : Resumed last hist u)
    (realigned : ∀ head, (foundHeads (hist ++ .start .mcast :: cs)).head? = some head →
      Realigned g last head)
    (call : (queueEnv g).host.Path ok u (.start .mcast :: cs) v) (one : ∀ e, .start e ∉ cs)
    (finished : v.task = .done result) : Resumed last (hist ++ .start .mcast :: cs) v := by
  have grows := QueueGrows.path call
  obtain ⟨head, found, top, behind, passes⟩ := mcast_passes h.ring call one finished
  have state : v.state = result.sndr := by
    rw [Conf.state, finished]
    rfl
  have heads : foundHeads (hist ++ .start .mcast :: cs) = foundHeads hist ++ foundHeads cs :=
    foundHeads_append hist _
  have asked : foundHeads (hist ++ .start .mcast :: cs) ≠ [] := by
    intro empty
    rw [heads, List.append_eq_nil_iff] at empty
    rw [empty.2] at found
    cases found
  refine ⟨grows.ring h.ring, fun empty => absurd empty asked, fun _ => state ▸ behind, ?_⟩
  intro _ q below
  rw [state] at below
  rcases passes q below with read | lapped | ⟨old, seen⟩
  · exact Or.inl (List.mem_append_right _ (List.mem_cons_of_mem _ read))
  · exact Or.inr lapped
  · by_cases first : foundHeads hist = []
    · -- the first head since the reset
      rw [h.waits first] at old
      have fits := realigned head (by rw [heads, first]; exact found)
      unfold Realigned at fits
      unfold Overrun
      exact Or.inr (by omega)
    · have announced := lt_of_lt_of_le old (h.behind first)
      rcases h.passed first q old with read | lapped
      · exact Or.inl (read.grow grows announced _)
      · exact Or.inr (lapped.grow grows)

end Resumed

/-- Only the handler that was started last runs. -/
theorem last_of_path {ok : Conf (queueEnv g).host → Choice (queueEnv g).host →
    Conf (queueEnv g).host → Prop}
    {u v : Conf (queueEnv g).host} {cs : List (Choice (queueEnv g).host)}
    (path : (queueEnv g).host.Path ok u cs v) (one : ∀ e, .start e ∉ cs) : v.last = u.last := by
  induction path with
  | nil => rfl
  | @cons x z y ch chs hn _ _ ih =>
    rw [ih fun e here => one e (List.mem_cons_of_mem _ here)]
    rcases Host.next_cases _ hn with ⟨m, w, _, _, rfl⟩ | ⟨s, c, k, a, w, _, _, rfl⟩ |
      ⟨e, a, t, rfl, _, _, _⟩
    · rfl
    · rfl
    · exact absurd (List.mem_cons_self ..) (one e)

/-- From a reset on, with the first head realigned. -/
theorem resumed_of_path {x y : Conf (queueEnv g).host} {chs : List (Choice (queueEnv g).host)}
    {a b : Turn g} (path : (queueEnv g).host.Path RestartStep x chs y) (idle : x.task = .done a)
    (finished : y.task = .done b) (empty : x.world.store.qHead = 0)
    (realigned : ∀ head, (foundHeads chs).head? = some head → Realigned g a.sndr.lastQIdx head) :
    Resumed a.sndr.lastQIdx chs y := by
  let J := fun (hist : List (Choice (queueEnv g).host)) (u : Conf (queueEnv g).host) =>
    (∀ head, (foundHeads hist).head? = some head → Realigned g a.sndr.lastQIdx head) →
      Resumed a.sndr.lastQIdx hist u
  have earlier : ∀ hist cs : List (Choice (queueEnv g).host),
      (∀ head, (foundHeads (hist ++ cs)).head? = some head → Realigned g a.sndr.lastQIdx head) →
      ∀ head, (foundHeads hist).head? = some head → Realigned g a.sndr.lastQIdx head := by
    intro hist cs all head found
    refine all head ?_
    rw [foundHeads_append, List.head?_append, found]
    rfl
  have start : J [] x := by
    intro _
    refine ⟨?_, fun _ => ?_, fun nonempty => absurd rfl nonempty,
      fun nonempty => absurd rfl nonempty⟩
    · intro q below
      rw [empty] at below
      omega
    · rw [Conf.state, idle]
      rfl
  refine path.rounds (J := J) ?_ ?_ idle finished start realigned
  · intro hist u m v r before idle step _ all
    refine (before (earlier _ _ all)).still (QueueGrows.next step) rfl ?_
    obtain ⟨w, _, rfl⟩ := Option.map_eq_some_iff.mp step
    rfl
  · intro hist u e cs v r r' before idle call one finished all
    have resumed := before (earlier _ _ all)
    by_cases unasked : foundHeads cs = []
    · refine resumed.still (.path call) unasked ?_
      rw [Conf.state, Conf.state, finished, idle]
      exact last_of_unasked call idle finished unasked
    · -- only `mcast_on_write` asks
      obtain ⟨head, found⟩ := List.exists_mem_of_ne_nil _ unasked
      obtain ⟨as, bs, split⟩ := List.append_of_mem (mem_foundHeads.mp found)
      subst split
      have mcast : e = .mcast := by
        cases call with
        | @cons _ z _ _ _ step _ rest =>
          have began : z.last = some e := by
            rcases Host.next_cases _ step with ⟨_, _, eq, _⟩ | ⟨s, c, k, _, _, task, _⟩ |
              ⟨e', _, _, eq, _, _, rfl⟩
            · cases eq
            · rw [idle] at task
              cases task
            · cases eq
              rfl
          obtain ⟨p, p', before, _, asks, _⟩ := rest.cut
          have same := last_of_path before fun e here => one e (List.mem_append_left _ here)
          rw [asks.asks, began] at same
          exact (Option.some.inj same).symm
      subst mcast
      exact resumed.called all call one finished

/-! ## What is skipped -/

def MarkedInv (_ : Phase) (s : Sender g) (w : World g) : Prop :=
  ∀ id, 0 ≤ (w.store.record id).rev → Marked s id (w.store.record id)

theorem MarkedInv.same {ph ph' : Phase} {s s' : Sender g} {w w' : World g} (h : MarkedInv ph s w)
    (revs : s'.recordRevs = s.recordRevs) (staged : s'.lastStaged = s.lastStaged)
    (store : w'.store.record = w.store.record) : MarkedInv ph' s' w' := by
  intro id free
  unfold Marked
  rw [store] at free ⊢
  rw [revs, staged]
  exact h id free

theorem markedKept : Kept (queueEnv g) (fun _ _ _ => True)
    (fun m s _ => ∀ id r, m = .record id r → 0 ≤ r.rev → Marked s id r) (fun _ _ _ => True)
    MarkedInv where
  moved := by
    intro e ph s w m w' h _ marks moved
    cases m with
    | write id =>
      simp only [queueEnv, World.queueMove, Storage.storageWriteQueue] at moved
      split at moved
      · cases moved
      · rename_i st queued
        split at queued
        · cases queued
        · obtain rfl := Except.ok.inj queued
          obtain rfl := Option.some.inj moved
          exact h.same rfl rfl rfl
    | record id r =>
      obtain rfl := Option.some.inj moved
      intro i free
      by_cases here : i = id
      · subst here
        rw [Storage.setRecord_same] at free ⊢
        exact marks i r rfl free
      · rw [Storage.setRecord_other _ _ here] at free ⊢
        exact h i free
  silent := by
    intro ph s ph' s' w h step
    exact h.same step.sameRevs.1 step.sameRevs.2 rfl
  answered := by
    intro e c ph s w ph' s' w' h _ step
    cases step with
    | @copy q n id sent _ _ known free =>
      intro i unlocked
      by_cases here : i = id
      · subst here
        intro _
        simp [stageValue]
      · have other : ¬ i - g.baseId = id - g.baseId := by omega
        have := h i unlocked
        simpa [Marked, stageValue, other, here] using this
    | _ => exact h.same rfl rfl rfl
  quits := fun h _ _ _ => h

/-- The read lock of record `id` is about to find the revision it was last staged with. -/
def SkipsNext (x : Conf (queueEnv g).host) (id : Int) : Prop :=
  ∃ s k, x.task = .call s (.recordReadLock id) k ∧ 0 ≤ (x.world.store.record id).rev ∧
    (x.world.store.record id).rev = s.recordRevs (id - g.baseId)

def restarted (x : Conf (queueEnv g).host) : Conf (queueEnv g).host :=
  match x.world.store.storageReset false with
  | .ok store => { x with world := { x.world with store := store } }
  | .error _ => x

/-- The storage is reset between two handlers. If no first client connects from then on, the
first head found is zero or at least a round ahead of the old `last_q_idx`, or that is zero,
and nothing that is written brings back a revision that was staged with another value, then
all that the sender passes of the new queue it has read or finds overrun, a call that ends
well passes all that it finds, and a record is skipped only with the value it was last staged
with. -/
theorem restart_covered {x y : Conf (queueEnv g).host} {a : Turn g}
    {chs : List (Choice (queueEnv g).host)} (between : x.task = .done a)
    (zeros : ∀ id, Marked a.sndr id ⟨0, 0, Vector.replicate g.valSize 0⟩)
    (run : (queueEnv g).host.Path RestartStep (restarted x) chs y)
    (realigned : ∀ head, (foundHeads chs).head? = some head → Realigned g a.sndr.lastQIdx head) :
    (∀ result, y.task = .done result → foundHeads chs ≠ [] → ∀ q, q < result.sndr.lastQIdx →
      Visited chs y.world q ∨ Overrun y.world q) ∧
    (∀ before last result, chs = before ++ .start .mcast :: last → (∀ e, .start e ∉ last) →
      y.task = .done result → result.status = Status.ok →
      (∀ r ∈ (queueEnv g).host.replies last, failure r ≠ some .blocked) →
      (foundHeads last).head? = some result.sndr.lastQIdx) ∧
    (∀ id, SkipsNext y id → y.state.lastStaged id = some (y.world.store.record id).val) := by
  have idle : (restarted x).task = .done a := between
  refine ⟨?_, ?_, ?_⟩
  · intro result finished asked q below
    have resumed := resumed_of_path run idle finished rfl realigned
    refine resumed.passed asked q ?_
    rw [Conf.state, finished]
    exact below
  · rintro before last result rfl one finished fine free
    obtain ⟨u, v, _, step, allowed, rest⟩ := run.cut
    exact mcast_catches_up (.cons step allowed rest) one finished fine free
  · rintro id ⟨s, k, task, free, rev⟩
    have marks : ∀ u m v, (queueEnv g).host.next (.move m) u = some v →
        RestartStep u (.move m) v → ∀ id r, m = .record id r → 0 ≤ r.rev → Marked u.state id r := by
      rintro u m v _ allowed id r rfl
      exact of_decide_eq_true allowed
    obtain ⟨ph, marked⟩ := markedKept.holds_from (fun _ _ _ _ _ => trivial) marks
      (fun _ _ _ _ _ _ => trivial) idle (fun id _ => zeros id) trivial (run.reach .refl)
    have shown : y.state = s := by rw [Conf.state, task]
    rw [shown] at marked ⊢
    exact marked id free rev.symm

/-- The writer takes record `id` from revision 0 to revision 1, with the byte `b`, and queues
it. -/
def updateOnce (id : Int) (b : UInt8) : List (Choice (queueEnv small).host) :=
  [.move (.record id ⟨lockedWord 0, 0, smallValue 0⟩),
    .move (.record id ⟨lockedWord 0, 0, smallValue b⟩),
   .move (.record id ⟨1, 0, smallValue b⟩), .move (.write id)]

def findNothing (head : Nat) : List (Choice (queueEnv small).host) :=
  [.start .mcast, .reply .storageGetQueueHead head, .reply .clockTime (.ok (0 : Int))]

/-- A call that finds one entry and stages record `id`, with the byte `b`. -/
def stageOnce (id : Int) (b : UInt8) : List (Choice (queueEnv small).host) :=
  [.start .mcast, .reply .storageGetQueueHead (1 : Nat), .reply (.storageReadQueue 0) (.ok id),
   .reply (.recordReadLock id) (.ok (1 : Int)), .reply (.recordCopy id) (.ok ⟨1, 0, smallValue b⟩),
   .reply .clockTime (.ok (0 : Int)), .reply (.latencyOnSample 0) (.ok ())]

/-- The head is seen at zero once, and then one entry is visited. -/
theorem restart_covered_small : ∃ (x y : Conf (queueEnv small).host) (result : Turn small),
    x.state.lastQIdx = 1 ∧ y.task = .done result ∧ result.sndr.lastQIdx = 1 ∧
    (Visited (findNothing 0 ++ updateOnce 1 9 ++ stageOnce 1 9) y.world 0 ∨ Overrun y.world 0) := by
  have run : ((queueEnv small).host.runWhile restartStep
      (findNothing 0 ++ updateOnce 1 9 ++ stageOnce 1 9)
      (restarted ((queueEnv small).idleConf (smallIgnoring 1) (World.init smallStore)))).any
      (endedAt 1) = true := by decide +kernel
  obtain ⟨y, path, ended⟩ := (Option.any_eq_true _ _).mp run
  obtain ⟨result, task, _, last⟩ := endedAt_spec ended
  refine ⟨(queueEnv small).idleConf (smallIgnoring 1) (World.init smallStore), y, result, rfl, task,
    last, ?_⟩
  refine (restart_covered rfl ?_ (Host.Path.of_runWhile path) ?_).1 result task ?_ 0 ?_
  · intro id known
    exact absurd (show (-1 : Int) = 0 from known) (by decide)
  · intro head first
    obtain rfl : 0 = head := Option.some.inj first
    decide
  · decide
  · omega

/-- A sender that ignores overruns waits for its first client. -/
def smallIgnoringConf : Conf (queueEnv small).host :=
  (queueEnv small).idleConf (smallIgnoring 0) (World.init smallStore)

/-- A client connects, and record 0 is staged with revision 1 and the byte 7. -/
def firstLife : List (Choice (queueEnv small).host) :=
  acceptFirst (queueEnv small) 0 0 ++ updateOnce 0 7 ++ stageOnce 0 7

/-- Record 0 is about to be skipped, with the byte 9 where 7 was staged. -/
def skipsChanged (y : Conf (queueEnv small).host) : Bool :=
  match y.task with
  | .call s (.recordReadLock 0) _ =>
    decide ((y.world.store.record 0).rev = 1 ∧ s.recordRevs (0 - small.baseId) = 1 ∧
      (y.world.store.record 0).val = smallValue 9 ∧ s.lastStaged 0 = some (smallValue 7))
  | _ => false

theorem skipsChanged_spec {y : Conf (queueEnv small).host} (h : skipsChanged y = true) :
    SkipsNext y 0 ∧ y.state.lastStaged 0 ≠ some (y.world.store.record 0).val := by
  unfold skipsChanged at h
  split at h
  · rename_i s k task
    obtain ⟨rev, revs, val, staged⟩ := of_decide_eq_true h
    refine ⟨⟨s, k, task, by omega, by omega⟩, ?_⟩
    rw [Conf.state, task, val]
    dsimp only
    rw [staged]
    decide
  · cases h

/-- Record 0 is staged with revision 1; then the storage is reset. If record 1 is queued
before the next call, the head is where it was and the entry is passed over. If record 0 is
written again behind a call, it is skipped with its old revision and a new value. -/
theorem restart_misses :
    (∃ (x y : Conf (queueEnv small).host) (a result : Turn small)
        (chs : List (Choice (queueEnv small).host)),
      (queueEnv small).host.Reachable smallIgnoringConf x ∧ x.task = .done a ∧
      (queueEnv small).host.Path (fun _ _ _ => True) (restarted x) chs y ∧ y.task = .done result ∧
      foundHeads chs ≠ [] ∧
      ¬ ∀ q, q < result.sndr.lastQIdx → Visited chs y.world q ∨ Overrun y.world q) ∧
    (∃ (x y : Conf (queueEnv small).host) (a : Turn small)
        (chs : List (Choice (queueEnv small).host)) (id : Int),
      (queueEnv small).host.Reachable smallIgnoringConf x ∧ x.task = .done a ∧
      (queueEnv small).host.Path (fun _ _ _ => True) (restarted x) chs y ∧ SkipsNext y id ∧
      y.state.lastStaged id ≠ some (y.world.store.record id).val) := by
  have runs : (((queueEnv small).host.run firstLife smallIgnoringConf).any fun x =>
      endedAt 1 x &&
      (((queueEnv small).host.run (updateOnce 1 9 ++ findNothing 1) (restarted x)).any fun y =>
        endedAt 1 y && decide (y.world.store.qHead ≤ 2)) &&
      (((queueEnv small).host.run (findNothing 0 ++ updateOnce 0 9 ++ (stageOnce 0 9).take 3)
        (restarted x)).any skipsChanged)) = true := by decide +kernel
  obtain ⟨x, first, rest⟩ := (Option.any_eq_true _ _).mp runs
  simp only [Bool.and_eq_true] at rest
  obtain ⟨⟨ended, passed⟩, skipped⟩ := rest
  obtain ⟨a, between, _⟩ := endedAt_spec ended
  have before := (Host.Path.of_run first).reach .refl
  constructor
  · obtain ⟨y, path, ended⟩ := (Option.any_eq_true _ _).mp passed
    simp only [Bool.and_eq_true, decide_eq_true_eq] at ended
    obtain ⟨result, finished, _, last⟩ := endedAt_spec ended.1
    refine ⟨x, y, a, result, _, before, between, Host.Path.of_run path, finished, by decide, ?_⟩
    intro all
    rcases all 0 (by omega) with read | lapped
    · simp [Visited, updateOnce, findNothing] at read
    · have : 0 + 2 < y.world.store.qHead := lapped
      omega
  · obtain ⟨y, path, skips⟩ := (Option.any_eq_true _ _).mp skipped
    obtain ⟨skips, differs⟩ := skipsChanged_spec skips
    exact ⟨x, y, a, _, 0, before, between, Host.Path.of_run path, skips, differs⟩

end Lancaster
