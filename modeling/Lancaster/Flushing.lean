import Lancaster.Leads
import Lancaster.QueueDrain

/-!
# The sender comes to rest

While nothing is written the sender drains its queue, sends the packet that it holds, and then a
heartbeat with the next sequence.
-/

namespace Lancaster

open Bytes Interleaving Sender

variable {g : Geometry}

namespace Sender

/-! ## A call while nothing is written -/

/-- The sender has not moved in the queue, and its clients are counted as before. -/
def InPlace (last count : Nat) (s : Sender g) : Prop := s.lastQIdx = last ∧ s.clientCount = count

/-- The calls of `mcast_on_write`: the queue is read from where the sender is. -/
def Asks (last count : Nat) (s : Sender g) (call : Call) : Prop :=
  InPlace last count s ∧ ∀ q, call = .storageReadQueue q → last ≤ q

section Shows

variable {ok : (c : Call) × c.Ans g → Prop} {last count : Nat} {s : Sender g}

theorem Asks.other {call : Call} (inPlace : InPlace last count s)
    (plain : ∀ q, call ≠ .storageReadQueue q) :
    Asks last count s call :=
  ⟨inPlace, fun q same => absurd same (plain q)⟩

theorem mcastSendPkt_shows (inPlace : InPlace last count s) :
    Task.Shows ok (Asks last count) (fun r => InPlace last count r.2) (mcastSendPkt s) := by
  unfold mcastSendPkt
  refine .call (.other inPlace (by simp)) fun a _ => ?_
  cases a with
  | error st => exact .done inPlace
  | ok now =>
    refine .call (.other inPlace (by simp)) fun a _ => ?_
    cases a with
    | error st => exact .done inPlace
    | ok count =>
      dsimp only
      split
      · split
        · exact .done inPlace
        · refine .call (.other inPlace (by simp)) fun a _ => ?_
          cases a <;> exact .done inPlace
      · split
        · exact .done inPlace
        · refine .call (.other inPlace (by simp)) fun a _ => ?_
          cases a <;> exact .done inPlace

theorem mcastStageRecord_shows (inPlace : InPlace last count s) (id : Int) (usedSz : Nat)
    (sentPkt : Int) :
    Task.Shows ok (Asks last count) (fun r => InPlace last count r.2)
      (mcastStageRecord s id usedSz sentPkt) := by
  have begun : InPlace last count (s.stageId id usedSz) := by
    simp only [Sender.stageId]
    split <;> exact inPlace
  unfold mcastStageRecord
  refine .call (.other begun (by simp)) fun a _ => ?_
  cases a with
  | error st => exact .done begun
  | ok r =>
    refine .call (.other begun (by simp)) fun a _ => ?_
    cases a with
    | error st => exact .done begun
    | ok now =>
      refine .call (.other begun (by simp)) fun a _ => ?_
      cases a <;> exact .done begun

theorem mcastAccumRecord_shows (inPlace : InPlace last count s) (id : Int) :
    Task.Shows ok (Asks last count) (fun r => InPlace last count r.2) (mcastAccumRecord s id) := by
  unfold mcastAccumRecord
  split
  · refine .call (.other inPlace (by simp)) fun a _ => ?_
    cases a with
    | error st => exact .done inPlace
    | ok rev =>
      dsimp only
      split
      · exact .done inPlace
      split
      · refine (mcastSendPkt_shows inPlace).bind ?_
        rintro ⟨st, s₁⟩ sent
        dsimp only
        split
        · exact .done sent
        · exact mcastStageRecord_shows sent id 0 1
      · exact mcastStageRecord_shows inPlace id _ 0
  · exact .done inPlace

theorem mcastOnEmptyQueue_shows (inPlace : InPlace last count s) :
    Task.Shows ok (Asks last count) (fun r => InPlace last count r.2) (mcastOnEmptyQueue s) := by
  unfold mcastOnEmptyQueue
  refine .call (.other inPlace (by simp)) fun a _ => ?_
  cases a with
  | error st => exact .done inPlace
  | ok now =>
    dsimp only
    split
    · exact mcastSendPkt_shows inPlace
    split
    · split <;> exact mcastSendPkt_shows inPlace
    · exact .done inPlace

theorem mcastScanQueue_shows (n : Nat) {qi : Nat} (low : last ≤ qi)
    (inPlace : InPlace last count s) :
    Task.Shows ok (Asks last count) (fun r => InPlace last count r.2.1) (mcastScanQueue s n qi) := by
  induction n generalizing qi s with
  | zero => exact .done inPlace
  | succ n ih =>
    unfold mcastScanQueue
    refine .call ⟨inPlace, fun q same => ?_⟩ fun a _ => ?_
    · obtain rfl := Call.storageReadQueue.inj same
      exact low
    · cases a with
      | error st => exact .done inPlace
      | ok id =>
        refine (mcastAccumRecord_shows inPlace id).bind ?_
        rintro ⟨st, s₁⟩ looked
        dsimp only
        split
        · exact .done looked
        · exact ih (Nat.le_succ_of_le low) looked

/-- As long as the queue is not overrun. -/
theorem mcastOnWrite_shows {head : Nat} (found : ∀ h : Nat, ok ⟨.storageGetQueueHead, h⟩ → h = head)
    (behind : s.lastQIdx ≤ head) (near : head ≤ s.lastQIdx + g.qCapacity) :
    Task.Shows ok (Asks s.lastQIdx s.clientCount) (fun r => r.2.clientCount = s.clientCount)
      (mcastOnWrite s) := by
  have here : InPlace s.lastQIdx s.clientCount s := ⟨rfl, rfl⟩
  rw [mcastOnWrite_eq]
  refine .call (.other here (by simp)) fun (a : Nat) fine => ?_
  obtain rfl := found a fine
  by_cases empty : a ≤ s.lastQIdx
  · rw [if_pos empty]
    have level : InPlace s.lastQIdx s.clientCount { s with lastQIdx := a } :=
      ⟨Nat.le_antisymm empty behind, rfl⟩
    exact (mcastOnEmptyQueue_shows level).mono fun r after => after.2
  · rw [if_neg empty, if_neg (by omega)]
    have start : s.scanStart a = s.lastQIdx := by
      rw [scanStart, if_neg (by omega)]
    rw [start]
    refine (mcastScanQueue_shows _ (le_refl _) here).bind ?_
    rintro ⟨st, s₁, q⟩ after
    exact .done after.2

end Shows

/-! ## Sending -/

def sent (s : Sender g) (now next : Int) : Sender g :=
  { s.stamped now with
    lastActiveTime := now, mcastSendTime := now, nextSeq := next, pktNext := 0, mcastInsertTime := 0
    nextStats := { s.nextStats with
      mcastBytesSent := s.nextStats.mcastBytesSent + (s.stamped now).packet.length
      mcastPacketsSent := s.nextStats.mcastPacketsSent + 1 } }

section Sends

variable {s : Sender g} {w : World g} {seq now : Int}

/-- A packet is sent under a sequence that is not the last one, or it is a heartbeat. -/
theorem mcastSendPkt_runs (clients : 0 < s.clientCount)
    (near : w.written ≤ s.lastQIdx + 2 * g.qCapacity)
    (header : ntohll (ldLong (s.stamped now).pktBuf 0) = seq)
    (left : 0 ≤ seq → s.nextSeq + 1 ≠ sequenceMax) :
    Runs .mcast (mcastSendPkt s) w
      (Status.ok, s.sent now (if 0 ≤ seq then s.nextSeq + 1 else s.nextSeq))
      { w with wire := w.wire ++ [(s.stamped now).packet] } := by
  have calm : ∀ (s₁ : Sender g) (u : World g), s₁.lastQIdx = s.lastQIdx →
      s₁.clientCount = s.clientCount → u.written = w.written →
      decide (u.written ≤ s₁.lastQIdx + 2 * g.qCapacity) ∧ 0 < s₁.clientCount := by
    intro s₁ u last count same
    rw [last, count, same]
    exact ⟨decide_eq_true near, clients⟩
  have header' : ntohll (ldLong (stLong s.pktBuf 8 (htonll now)) 0) = seq := header
  unfold mcastSendPkt
  refine .call (.ok now) (calm s w rfl rfl rfl) rfl
    (.call (.ok (s.stamped now).packet.length) (calm _ w rfl rfl rfl) rfl ?_)
  dsimp only
  rw [header']
  by_cases data : 0 ≤ seq
  · have free := left data
    simp only [data, free, and_false, ↓reduceIte]
    exact .call (.ok ()) (calm _ _ rfl rfl rfl) rfl (.done _ _)
  · simp only [data, false_and, ↓reduceIte]
    exact .call (.ok ()) (calm _ _ rfl rfl rfl) rfl (.done _ _)

/-- A call on an empty queue, when it is time for a heartbeat. -/
theorem mcastOnWrite_runs {r : Int × Sender g} {w' : World g} (clients : 0 < s.clientCount)
    (drained : s.lastQIdx = w.store.qHead) (complete : w.writer = .idle)
    (runs : Runs .mcast (mcastOnEmptyQueue s) w r w') : Runs .mcast (mcastOnWrite s) w r w' := by
  have written : w.written = w.store.qHead := by
    rw [World.written, complete]
  rw [mcastOnWrite_eq]
  refine .call (w.store.qHead : Nat) ⟨decide_eq_true ?_, clients⟩ (if_pos rfl) ?_
  · rw [NotOverrun, written, drained]
    exact Nat.le_add_right _ _
  · rw [if_pos (le_of_eq drained.symm), ← drained]
    exact runs

end Sends

end Sender

namespace Serving

variable {c : Nat} {s s' : Sender g} {w w' : World g}

/-- The answers of a world at rest leave everything but the datagrams. -/
theorem answers (h : Serving c s w) (call : Call) (u : World g)
    (now : Unwritten w u ∧ u.peers = w.peers) :
    ∃ u', (netEnv g).host.reply call (steadyAnswer w.store call) u = some u' ∧
      Unwritten w u' ∧ u'.peers = w.peers := by
  obtain ⟨u', given, _⟩ := reply_steady h.free call u now.1.store
  have admitted : (netEnv g).admits call (steadyAnswer w.store call) u = true := by
    cases call <;> rfl
  have replied : (netEnv g).host.reply call (steadyAnswer w.store call) u = some u' := by
    have given : World.reply call (steadyAnswer w.store call) u = some u' := given
    simp only [Env.host, admitted, ↓reduceIte, given]
  have unwritten : Unwritten u u' := by
    cases call with
    | lib f =>
      have same : some u = some u' := by cases f <;> exact given
      rw [← Option.some.inj same]
      exact .refl u
    | _ => exact reply_unwritten replied (by simp)
  exact ⟨u', replied, now.1.trans unwritten, (reply_same replied).2.2.trans now.2⟩

/-- A call of `mcast_on_write` whose answers are steady. -/
theorem call (h : Serving c s w) (near : w.store.qHead ≤ s.lastQIdx + g.qCapacity)
    (fine : ¬ Status.Failed (steadyCall w.store s).2.1) :
    ∃ w', Leads s w (steadyCall w.store s).2.2 w' ∧ Serving c (steadyCall w.store s).2.2 w' := by
  have found : ∀ head : Nat, Steady w.store ⟨.storageGetQueueHead, head⟩ → head = w.store.qHead :=
    fun _ same => same
  have calm : ∀ s₁ call u, Unwritten w u ∧ u.peers = w.peers →
    Asks s.lastQIdx s.clientCount s₁ call →
      Calm .mcast s₁ call u := by
    rintro s₁ call u ⟨unwritten, _⟩ ⟨⟨last, count⟩, beyond⟩
    have head : u.written = w.store.qHead := by
      rw [World.written, unwritten.writer, h.complete, unwritten.store]
    refine ⟨?_, by rw [count]; exact h.counted⟩
    unfold undisturbed
    split
    · rename_i same
      cases same
      exact decide_eq_true (by rw [NotOverrun, head, last]; exact near)
    · rename_i q same
      cases same
      have low := beyond q rfl
      exact decide_eq_true (by omega)
    · exact decide_eq_true (by omega)
    · rfl
  have answer : ∀ call, Steady w.store ⟨call, steadyAnswer w.store call⟩ := steady_answer
  obtain ⟨w', runs, count, unwritten, peers⟩ := (mcastOnWrite_shows found h.behind near).completes
    answer calm h.answers ⟨.refl w, rfl⟩
  have clients : 0 < (steadyCall w.store s).2.2.clientCount := by
    rw [steadyCall, count]
    exact h.counted
  have run : Leads s w (steadyCall w.store s).2.2 w' :=
    .handler (e := .mcast) rfl (decide_eq_true h.counted) rfl runs fine clients unwritten
  refine ⟨w', run, h.leads run ?_ ?_⟩
  · rw [peers]
    exact h.going
  · obtain ⟨tr, ends⟩ := runs.ends
    have same := (mcastOnWrite_meets _ _ ends).2.1
    rw [steadyCall, same]
    exact h.client

/-- Call after call. -/
theorem calls (h : Serving c s w) (near : w.store.qHead ≤ s.lastQIdx + g.qCapacity)
    (ids : ∀ id ∈ window w.store s.lastQIdx, g.Holds id)
    (left : s.nextSeq + (due w.store s s.lastQIdx).length < sequenceMax) (n : Nat) :
    ∃ trs st s' w', Repeated w.store s trs (st, s') ∧ ¬ Status.Failed st ∧
      Leads s w s' w' ∧ Serving c s' w' ∧ (s'.lastQIdx = w.store.qHead ∨ n ≤ trs.length) := by
  induction n with
  | zero => exact ⟨[], Status.ok, s, w, .start, not_failed_ok, .refl s w, h, Or.inr (Nat.zero_le _)⟩
  | succ n ih =>
    obtain ⟨trs, st, s', w', repeated, fine, run, serving, reached⟩ := ih
    by_cases drained : s'.lastQIdx = w.store.qHead
    · exact ⟨trs, st, s', w', repeated, fine, run, serving, Or.inl drained⟩
    have long := reached.resolve_left drained
    have store := run.unwritten.store
    have outcome := repeated.outcome h.loaded h.behind near ids
    rcases outcome with ⟨overflow, _⟩ | ⟨_, ongoing⟩
    · dsimp only at overflow
      rw [overflow] at fine
      exact absurd overflow_hard.1 fine
    have low := ongoing.onward.low
    have again := repeated.steadily fine drained
    -- no sequence runs out, so the next call succeeds
    have fine' : ¬ Status.Failed (steadyCall w.store s').2.1 := by
      rcases again.outcome h.loaded h.behind near ids with exhausted | ⟨succeeds, _⟩
      · have spent := exhausted.spent
        omega
      · exact succeeds
    dsimp only at low
    obtain ⟨w'', more, serving'⟩ := serving.call (by rw [store]; omega) (by rw [store]; exact fine')
    rw [store] at more serving'
    refine ⟨_, _, _, w'', again, fine', run.trans more, serving', Or.inr ?_⟩
    simp only [List.length_append, List.length_singleton]
    omega

/-- The queue is drained. -/
theorem drains (h : Serving c s w) (near : w.store.qHead ≤ s.lastQIdx + g.qCapacity)
    (ids : ∀ id ∈ window w.store s.lastQIdx, g.Holds id)
    (left : s.nextSeq + (due w.store s s.lastQIdx).length < sequenceMax) :
    ∃ s' w', Leads s w s' w' ∧ Serving c s' w' ∧ s'.lastQIdx = w.store.qHead ∧
      s'.nextSeq ≤ s.nextSeq + (due w.store s s.lastQIdx).length := by
  obtain ⟨trs, st, s', w', repeated, fine, run, serving, reached⟩ :=
    h.calls near ids left ((due w.store s s.lastQIdx).length + 2)
  rcases repeated.outcome h.loaded h.behind near ids with ⟨overflow, _⟩ | ⟨_, ongoing⟩
  · dsimp only at overflow
    rw [overflow] at fine
    exact absurd overflow_hard.1 fine
  · have bound := ongoing.bound
    have seqs := ongoing.onward.seqs
    dsimp only at seqs
    refine ⟨s', w', run, serving, reached.resolve_right (by omega), by omega⟩

/-- A drained queue is not overrun. -/
theorem near (h : Serving c s w) (drained : s.lastQIdx = w.store.qHead) :
    w.written ≤ s.lastQIdx + 2 * g.qCapacity := by
  rw [h.written, drained]
  exact Nat.le_add_right _ _

/-- A packet goes out while the queue is drained. -/
theorem sends (h : Serving c s w) (drained : s.lastQIdx = w.store.qHead)
    (runs : Runs .mcast (mcastOnEmptyQueue s) w (Status.ok, s') w') (clients : 0 < s'.clientCount)
    (unwritten : Unwritten w w') : Leads s w s' w' :=
  .handler (e := .mcast) rfl (decide_eq_true h.counted) rfl
    (mcastOnWrite_runs h.counted drained h.complete runs) not_failed_ok clients unwritten

/-- What is staged is sent. -/
theorem flushes (h : Serving c s w) (drained : s.lastQIdx = w.store.qHead)
    (left : s.nextSeq + 1 < sequenceMax) :
    ∃ s' w', Leads s w s' w' ∧ Serving c s' w' ∧ s'.lastQIdx = w.store.qHead ∧ s'.pktNext = 0 := by
  by_cases empty : s.pktNext = 0
  · exact ⟨s, w, .refl s w, h, drained, empty⟩
  have loaded := h.loaded
  have low := loaded.low
  have near := h.near drained
  rcases loaded.packet with ⟨nothing, _⟩ | ⟨_, pkt⟩
  · exact absurd nothing empty
  let now := s.mcastSendTime + s.heartbeatUsec
  have stamp : Packet (s.stamped now) s.nextSeq s.staged [] := pkt.stamp now
  have header := stamp.header (isLong_of_le (by omega) (by omega))
  have sends := mcastSendPkt_runs h.counted near header (fun _ => by omega)
  have runs : Runs .mcast (mcastOnEmptyQueue s) w (Status.ok, s.sent now (s.nextSeq + 1))
      { w with wire := w.wire ++ [(s.stamped now).packet] } := by
    rw [if_pos (by omega)] at sends
    unfold mcastOnEmptyQueue
    refine .call (.ok now) ⟨decide_eq_true near, h.counted⟩ rfl ?_
    dsimp only
    by_cases old : s.mcastInsertTime ≠ 0 ∧ s.maxPktAgeUsec ≤ now - s.mcastInsertTime
    · rw [if_pos old]
      exact sends
    · rw [if_neg old, if_pos (by omega), if_neg empty]
      exact sends
  have run := h.sends drained runs h.counted ⟨rfl, rfl, rfl⟩
  exact ⟨_, _, run, h.leads run h.going h.client, drained, rfl⟩

/-- A heartbeat is sent with the next sequence. -/
theorem beats (h : Serving c s w) (drained : s.lastQIdx = w.store.qHead) (empty : s.pktNext = 0) :
    ∃ s' w' stamp, Leads s w s' w' ∧ Serving c s' w' ∧ s'.lastQIdx = w.store.qHead ∧
      s'.pktNext = 0 ∧
      stamp.length = 8 ∧ datagram (g := g) (-s'.nextSeq) stamp [] ∈ w'.wire := by
  have loaded := h.loaded
  have low := loaded.low
  have below := loaded.below
  have len := loaded.len
  have roomy := loaded.roomy
  have near := h.near drained
  have fresh : s.mcastInsertTime = 0 := by
    rcases loaded.packet with ⟨_, fresh, _⟩ | ⟨_, pkt⟩
    · exact fresh
    · exact absurd empty pkt.ne_zero
  let now := s.mcastSendTime + s.heartbeatUsec
  -- the header of the heartbeat is in the packet
  let s₁ : Sender g := { s with
    pktBuf := stLong s.pktBuf 0 (htonll (-s.nextSeq)), pktNext := s.pktNext + 16 }
  have beat : Packet s₁ (-s.nextSeq) [] [] := .beat s (-s.nextSeq) empty (by omega)
  have stamp : Packet (s₁.stamped now) (-s.nextSeq) [] [] := beat.stamp now
  have long : IsLong (-s.nextSeq) := by
    unfold sequenceMax at below
    constructor <;> omega
  have sends := mcastSendPkt_runs (s := s₁) h.counted near (stamp.header long) (fun _ => by omega)
  have runs : Runs .mcast (mcastOnEmptyQueue s) w (Status.ok, s₁.sent now s.nextSeq)
      { w with wire := w.wire ++ [(s₁.stamped now).packet] } := by
    rw [if_neg (by omega)] at sends
    unfold mcastOnEmptyQueue
    refine .call (.ok now) ⟨decide_eq_true near, h.counted⟩ rfl ?_
    dsimp only
    rw [if_neg (fun old => absurd fresh old.1), if_pos (by omega), if_pos empty]
    exact sends
  have run := h.sends drained runs h.counted ⟨rfl, rfl, rfl⟩
  obtain ⟨bytes, eight, same⟩ := stamp.bytes
  refine ⟨_, _, bytes, run, h.leads run h.going h.client, drained, rfl, eight, ?_⟩
  refine List.mem_append_right _ (List.mem_singleton.mpr ?_)
  rw [same, List.append_nil]
  rfl

end Serving

end Lancaster
