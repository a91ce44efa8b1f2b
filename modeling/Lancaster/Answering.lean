import Lancaster.Leads

/-!
# The sender answers what it was asked

While nothing fails the sender reads every request of a client and answers one after the other,
record by record, until nothing is left of its ranges.
-/

namespace Lancaster

open Bytes Interleaving Sender

variable {g : Geometry}

/-- The handlers of a connection leave the queue and the packet alone. -/
structure Beside (s s' : Sender g) : Prop where
  last : s'.lastQIdx = s.lastQIdx
  fill : s'.pktNext = s.pktNext
  next : s'.nextSeq = s.nextSeq
  count : s'.clientCount = s.clientCount

namespace Beside

variable {s s' s'' : Sender g}

theorem refl (s : Sender g) : Beside s s := ⟨rfl, rfl, rfl, rfl⟩

theorem trans (h : Beside s s') (h' : Beside s' s'') : Beside s s'' :=
  ⟨h'.last.trans h.last, h'.fill.trans h.fill, h'.next.trans h.next, h'.count.trans h.count⟩

end Beside

/-- Nothing of the world has changed but what the sender has sent. -/
structure OnlySent (w w' : World g) : Prop extends Unwritten w w' where
  peers : w'.peers = w.peers
  recd : w'.recd = w.recd

theorem OnlySent.refl (w : World g) : OnlySent w w := ⟨.refl w, rfl, rfl⟩

namespace Sender

/-! ## Requests -/

section Reads

variable {c : Nat} {rev : Revents} {s : Sender g} {w : World g} {clnt : TcpClient}
    {data : List UInt8}

theorem tcpReadBuf_full (s : Sender g) (c fuel : Nat) (st : Int) (full : clnt.inRemain = 0) :
    tcpReadBuf s c fuel st clnt = .done (st, clnt) := by
  cases fuel with
  | zero => rfl
  | succ fuel =>
    unfold tcpReadBuf
    rw [if_pos full]

/-- The rest of a range is read at once. -/
theorem tcpReadBuf_runs (clients : 0 < s.clientCount) (more : 0 < clnt.inRemain)
    (len : data.length = clnt.inRemain) (front : (w.recd c ++ data).isPrefixOf (w.peers c).up) :
    Runs (.client c rev) (tcpReadBuf s c clnt.inRemain Status.ok clnt) w
      ((data.length : Int), clnt.fed data) (w.read c data) := by
  obtain ⟨fuel, size⟩ : ∃ fuel, clnt.inRemain = fuel + 1 := ⟨clnt.inRemain - 1, by omega⟩
  have given : (netEnv g).host.reply (.sockRead c clnt.inRemain) (.ok data) w =
    some (w.read c data) := by
    have admitted : (netEnv g).admits (.sockRead c clnt.inRemain) (.ok data) w = true := front
    simp only [Env.host, admitted, ↓reduceIte, World.reply]
    rw [if_pos (by omega)]
  have remaining : ¬ clnt.inRemain = 0 := by omega
  rw [size]
  unfold tcpReadBuf
  rw [if_neg remaining]
  refine .call (.ok data) ⟨rfl, clients⟩ given ?_
  have full : (clnt.fed data).inRemain = 0 := by
    simp only [TcpClient.fed]
    omega
  show Runs (.client c rev) (tcpReadBuf s c fuel data.length (clnt.fed data)) _ _ _
  rw [tcpReadBuf_full s c fuel _ full]
  exact .done _ _

/-- A range that was read is merged. -/
theorem tcpOnRead_runs (c : Nat) (rev : Revents) (clients : 0 < s.clientCount)
    (more : 0 < clnt.inRemain)
    (len : data.length = clnt.inRemain) (front : (w.recd c ++ data).isPrefixOf (w.peers c).up)
    (valid : (clnt.fed data).inRange.IsValid) :
    ∃ s', Runs (.client c rev) (tcpOnRead s c clnt) w (Status.ok, s') (w.read c data) ∧
      Beside s s' ∧
      s'.clients c = some (clnt.fed data).merged := by
  have plain : ¬ ((data.length : Int) ≠ Status.blocked ∧ Status.Failed (data.length : Int)) := by
    rintro ⟨_, hard⟩
    unfold Status.Failed at hard
    omega
  have full : (clnt.fed data).inRemain = 0 := by
    simp only [TcpClient.fed]
    omega
  let s₁ : Sender g := { s with nextStats := { s.nextStats with
    tcpGapCount := s.nextStats.tcpGapCount + 1 } }
  refine ⟨s₁.setClient c (clnt.fed data).merged, (tcpReadBuf_runs clients more len front).bind ?_,
    ⟨rfl, rfl, rfl, rfl⟩, setClient_clients_same ..⟩
  dsimp only
  rw [if_neg plain, if_pos full, if_pos valid]
  exact .call (.ok ()) ⟨rfl, clients⟩ rfl (.done _ _)

end Reads

/-! ## Replies -/

structure Unanswered (clnt clnt' : TcpClient) : Prop where
  union : clnt'.unionRange = clnt.unionRange
  reply : clnt'.replyRange = clnt.replyRange
  place : clnt'.replyId = clnt.replyId

section Writes

variable {c : Nat} {rev : Revents} {s : Sender g} {w : World g} {clnt : TcpClient}

/-- The rest of a frame is written at once. -/
theorem tcpWriteBuf_runs (c : Nat) (rev : Revents) (w : World g) (clients : 0 < s.clientCount)
    (whole : clnt.pending.length = clnt.outRemain) :
    ∃ st s' clnt' w', Runs (.client c rev) (tcpWriteBuf s c clnt) w (st, s', clnt') w' ∧
      ¬ Status.Failed st ∧ clnt'.outRemain = 0 ∧ Unanswered clnt clnt' ∧ Beside s s' ∧
        OnlySent w w' := by
  unfold tcpWriteBuf
  by_cases empty : clnt.outRemain = 0
  · refine ⟨Status.ok, s, clnt, w, ?_, not_failed_ok, empty, ⟨rfl, rfl, rfl⟩, .refl s, .refl w⟩
    rw [empty]
    exact .done _ _
  · obtain ⟨fuel, size⟩ : ∃ fuel, clnt.outRemain = fuel + 1 := ⟨clnt.outRemain - 1, by omega⟩
    let out : TcpClient := { clnt with
      outNext := clnt.outNext + clnt.pending.length
      outRemain := clnt.outRemain - clnt.pending.length }
    let w' : World g := { w with
      sent := fun i => if i = c then w.sent i ++ clnt.pending.take clnt.pending.length else w.sent i }
    have drained : out.outRemain = 0 := by
      simp only [out]
      omega
    have rest : tcpWriteLoop s c fuel clnt.pending.length (0 + clnt.pending.length) out =
        .done ((clnt.pending.length : Int), 0 + clnt.pending.length, out) := by
      cases fuel with
      | zero => rfl
      | succ fuel =>
        unfold tcpWriteLoop
        rw [if_pos drained]
    have given : (netEnv g).host.reply (.sockWrite c clnt.pending) (.ok clnt.pending.length) w =
        some w' := by
      have admitted : (netEnv g).admits (.sockWrite c clnt.pending) (.ok clnt.pending.length) w = true :=
        rfl
      simp only [Env.host, admitted, ↓reduceIte, World.reply]
      rw [if_pos (by omega)]
    have loop : Runs (.client c rev) (tcpWriteLoop s c (fuel + 1) Status.ok 0 clnt) w
        ((clnt.pending.length : Int), 0 + clnt.pending.length, out) w' := by
      unfold tcpWriteLoop
      rw [if_neg empty]
      refine .call (.ok clnt.pending.length) ⟨rfl, clients⟩ given ?_
      dsimp only
      rw [rest]
      exact .done _ _
    have sent : 0 < 0 + clnt.pending.length := by omega
    have fine : ¬ Status.Failed (clnt.pending.length : Int) := by
      unfold Status.Failed
      omega
    refine ⟨_, { s with
        lastActiveTime := clnt.tcpSendTime
        nextStats := { s.nextStats with
          tcpBytesSent := s.nextStats.tcpBytesSent + (0 + clnt.pending.length) } },
      { out with tcpSendTime := clnt.tcpSendTime }, w', ?_, fine, drained, ⟨rfl, rfl, rfl⟩,
      ⟨rfl, rfl, rfl, rfl⟩, ⟨⟨rfl, rfl, rfl⟩, rfl, rfl⟩⟩
    rw [size]
    refine loop.bind ?_
    dsimp only
    rw [if_pos sent]
    exact .call (.ok clnt.tcpSendTime) ⟨rfl, clients⟩ rfl
      (.call (.ok ()) ⟨rfl, clients⟩ rfl (.done _ _))

/-- A scan for a reply is over, or it has stopped behind a record. -/
structure Scanned (g : Geometry) (clnt clnt' : TcpClient) : Prop where
  union : clnt'.unionRange = clnt.unionRange
  ends : (¬ clnt'.replyRange.IsValid ∧ clnt'.outRemain = clnt.outRemain) ∨
    (clnt.replyId < clnt'.replyId ∧ clnt'.replyId ≤ g.maxId ∧ clnt'.replyRange = clnt.replyRange)

/-- The scan goes on behind a record that it has passed. -/
theorem Scanned.behind {clnt₁ clnt' : TcpClient} (h : Scanned g clnt₁ clnt')
    (place : clnt₁.replyId = clnt.replyId + 1) (union : clnt₁.unionRange = clnt.unionRange)
    (reply : clnt₁.replyRange = clnt.replyRange) (remain : clnt₁.outRemain = clnt.outRemain) :
    Scanned g clnt clnt' := by
  refine ⟨h.union.trans union, ?_⟩
  rcases h.ends with ⟨finished, idle⟩ | ⟨further, bound, kept⟩
  · exact Or.inl ⟨finished, idle.trans remain⟩
  · exact Or.inr ⟨by omega, bound, kept.trans reply⟩

/-- The scan for a reply finds a record, or it is over. -/
theorem tcpScanRecords_runs (c : Nat) (rev : Revents) (clients : 0 < s.clientCount)
    (free : ∀ id, 0 ≤ (w.store.record id).rev)
    (n : Nat) {st : Int} (fine : ¬ Status.Failed st) (low : g.baseId ≤ clnt.replyId)
    (size : n = (g.maxId - clnt.replyId).toNat) :
    ∃ st' s' clnt', Runs (.client c rev) (tcpScanRecords s c n st clnt) w (st', s') w ∧
      ¬ Status.Failed st' ∧ Beside s s' ∧ s'.clients c = some clnt' ∧ Scanned g clnt clnt' := by
  induction n generalizing st clnt with
  | zero =>
    exact ⟨_, _, _, .done _ _, fine, ⟨rfl, rfl, rfl, rfl⟩, setClient_clients_same .., rfl,
      Or.inl ⟨invalid_range, rfl⟩⟩
  | succ n ih =>
    have below : clnt.replyId < g.maxId := by omega
    have more : ∀ (st : Int) (clnt₁ : TcpClient), ¬ Status.Failed st →
        clnt₁.replyId = clnt.replyId + 1 → clnt₁.unionRange = clnt.unionRange →
        clnt₁.replyRange = clnt.replyRange → clnt₁.outRemain = clnt.outRemain →
        ∃ st' s' clnt', Runs (.client c rev) (tcpScanRecords s c n st clnt₁) w (st', s') w ∧
          ¬ Status.Failed st' ∧ Beside s s' ∧ s'.clients c = some clnt' ∧ Scanned g clnt clnt' := by
      intro st clnt₁ soft place union reply remain
      obtain ⟨st', s', clnt', runs, soft', beside, here, scanned⟩ :=
        @ih clnt₁ st soft (by omega) (by omega)
      exact ⟨st', s', clnt', runs, soft', beside, here, scanned.behind place union reply remain⟩
    unfold tcpScanRecords
    dsimp only
    split
    · rw [if_pos ⟨low, below⟩]
      have given : (netEnv g).host.reply (.recordCopy clnt.replyId) (.ok (w.store.record clnt.replyId)) w =
          some w := if_pos ⟨free _, rfl⟩
      by_cases unused : (w.store.record clnt.replyId).rev = 0
      · obtain ⟨st', s', clnt', runs, rest⟩ := more Status.ok { clnt with
          minSeqFound := if s.recordSeqs (clnt.replyId - g.baseId) < clnt.minSeqFound then
            s.recordSeqs (clnt.replyId - g.baseId) else clnt.minSeqFound
          replyId := clnt.replyId + 1 } not_failed_ok rfl rfl rfl rfl
        refine ⟨st', s', clnt', .call (.ok (w.store.record clnt.replyId)) ⟨rfl, clients⟩ given ?_, rest⟩
        dsimp only
        rw [if_pos unused]
        exact runs
      · let framed : TcpClient := { clnt with
          minSeqFound := if s.recordSeqs (clnt.replyId - g.baseId) < clnt.minSeqFound then
            s.recordSeqs (clnt.replyId - g.baseId) else clnt.minSeqFound
          outBuf := frameBuf clnt (s.recordSeqs (clnt.replyId - g.baseId)) (w.store.record clnt.replyId)
          outNext := 0
          outRemain := pktSize g
          replyId := clnt.replyId + 1 }
        refine ⟨Status.ok, s.setClient c framed, framed,
          .call (.ok (w.store.record clnt.replyId)) ⟨rfl, clients⟩ given ?_, not_failed_ok,
          ⟨rfl, rfl, rfl, rfl⟩, setClient_clients_same .., rfl, Or.inr ⟨Int.lt_succ _, below, rfl⟩⟩
        dsimp only
        rw [if_neg unused]
        exact .done _ _
    · exact more _ _ fine rfl rfl rfl rfl

/-- A reply is over and written, or it has gone on by a record. -/
structure Replied (g : Geometry) (clnt clnt' : TcpClient) : Prop where
  union : clnt'.unionRange = clnt.unionRange
  ends : (¬ clnt'.replyRange.IsValid ∧ clnt'.outRemain = 0) ∨
    (clnt.replyRange.IsValid ∧ clnt.replyId < clnt'.replyId ∧ clnt'.replyId ≤ g.maxId)

/-- The out buffer is written and, if there is something to answer, filled again. -/
theorem tcpOnWrite_runs (c : Nat) (rev : Revents) (clients : 0 < s.clientCount)
    (free : ∀ id, 0 ≤ (w.store.record id).rev)
    (whole : clnt.pending.length = clnt.outRemain)
    (low : clnt.replyRange.IsValid → g.baseId ≤ clnt.replyId) :
    ∃ st s' clnt' w', Runs (.client c rev) (tcpOnWrite s c clnt) w (st, s') w' ∧
      ¬ Status.Failed st ∧ Beside s s' ∧ OnlySent w w' ∧ s'.clients c = some clnt' ∧
      Replied g clnt clnt' := by
  obtain ⟨st, s₁, clnt₁, w₁, wrote, fine, empty, same, beside, sent⟩ :=
    tcpWriteBuf_runs c rev w clients whole
  have some₁ : 0 < s₁.clientCount := by rwa [beside.count]
  have free₁ : ∀ id, 0 ≤ (w₁.store.record id).rev := by rwa [sent.store]
  have plain : ¬ (st ≠ Status.blocked ∧ Status.Failed st) := fun hard => fine hard.2
  have soft : ¬ Status.Failed (if st = Status.blocked then Status.ok else st) := by
    split
    · exact not_failed_ok
    · exact fine
  by_cases busy : clnt₁.replyRange.IsValid
  · have valid : clnt.replyRange.IsValid := by rwa [← same.reply]
    have low₁ : g.baseId ≤ clnt₁.replyId := by
      rw [same.place]
      exact low valid
    obtain ⟨st', s', clnt', scans, fine', beside', here, union, ends⟩ :=
      tcpScanRecords_runs c rev some₁ free₁ _ soft low₁ rfl
    refine ⟨st', s', clnt', w₁, wrote.bind ?_, fine', beside.trans beside', sent, here,
      union.trans same.union, ?_⟩
    · dsimp only
      rw [if_neg plain, if_pos empty, if_pos busy]
      exact scans
    · rcases ends with ⟨finished, idle⟩ | ⟨further, bound, _⟩
      · exact Or.inl ⟨finished, idle.trans empty⟩
      · exact Or.inr ⟨valid, by rwa [same.place] at further, bound⟩
  · -- the last heartbeat is not yet old
    let now := clnt₁.tcpSendTime + s₁.heartbeatUsec - 1
    refine ⟨Status.ok, s₁.setClient c clnt₁, clnt₁, w₁, wrote.bind ?_, not_failed_ok,
      beside.trans ⟨rfl, rfl, rfl, rfl⟩, sent, setClient_clients_same .., same.union,
      Or.inl ⟨busy, empty⟩⟩
    dsimp only
    rw [if_neg plain, if_pos empty, if_neg busy]
    refine .call (.ok now) ⟨rfl, some₁⟩ rfl ?_
    dsimp only
    rw [if_neg (by omega)]
    exact .done _ _

/-- What is left of the ranges of a client. -/
def work (g : Geometry) (clnt : TcpClient) : Nat :=
  (if clnt.unionRange.IsValid then (g.maxId - g.baseId).toNat + 2 else 0) +
    if clnt.replyRange.IsValid then (g.maxId - clnt.replyId).toNat + 1 else 0

def Answered (clnt : TcpClient) : Prop :=
  ¬ clnt.unionRange.IsValid ∧ ¬ clnt.replyRange.IsValid ∧ clnt.outRemain = 0

/-- A client between two ranges: the reply before goes on, or the next one is begun. -/
inductive Turned (g : Geometry) (clnt clnt' : TcpClient) : Prop where
  | onward (reply : clnt'.replyRange = clnt.replyRange) (place : clnt'.replyId = clnt.replyId)
      (left : ¬ clnt'.unionRange.IsValid ∨
        (clnt'.unionRange = clnt.unionRange ∧ clnt.replyRange.IsValid))
  | begun (idle : ¬ clnt.replyRange.IsValid) (invalid : ¬ clnt'.unionRange.IsValid)
      (reply : clnt'.replyRange = clnt.unionRange) (place : clnt'.replyId = g.baseId)

theorem tcpOnReadBlocked_cases (s : Sender g) (whole : clnt.inNext = 0) :
    ∃ clnt', tcpOnReadBlocked s clnt = clnt' ∧ clnt'.outBuf = clnt.outBuf ∧
      clnt'.outNext = clnt.outNext ∧ clnt'.outRemain = clnt.outRemain ∧ Turned g clnt clnt' := by
  refine ⟨_, rfl, ?_⟩
  unfold tcpOnReadBlocked
  rw [if_pos whole]
  split
  · exact ⟨rfl, rfl, rfl, .onward rfl rfl (Or.inl invalid_range)⟩
  · split
    · rename_i idle
      exact ⟨rfl, rfl, rfl, .begun idle invalid_range rfl rfl⟩
    · rename_i busy
      exact ⟨rfl, rfl, rfl, .onward rfl rfl (Or.inr ⟨rfl, not_not.mp busy⟩)⟩

theorem Turned.low {clnt₁ : TcpClient} (h : Turned g clnt clnt₁)
    (low : clnt.replyRange.IsValid → g.baseId ≤ clnt.replyId) (busy : clnt₁.replyRange.IsValid) :
    g.baseId ≤ clnt₁.replyId := by
  cases h with
  | onward reply place left =>
    rw [reply] at busy
    rw [place]
    exact low busy
  | begun idle invalid reply place => exact le_of_eq place.symm

/-- A reply that goes on or begins leaves less work. -/
theorem Turned.nearer {clnt₁ clnt' : TcpClient} (h : Turned g clnt clnt₁)
    (after : Replied g clnt₁ clnt') (low : clnt.replyRange.IsValid → g.baseId ≤ clnt.replyId) :
    work g clnt' < work g clnt ∨ Answered clnt' := by
  have width : g.baseId < g.maxId := g.base_lt_max
  have ends := after.ends
  rw [Answered, work, work, after.union]
  cases h with
  | onward reply place left =>
    rw [reply, place] at ends
    rcases ends with ⟨finished, empty⟩ | ⟨busy, further, bound⟩
    · rcases left with invalid | ⟨same, busy⟩
      · exact Or.inr ⟨invalid, finished, empty⟩
      · left
        rw [same, if_neg finished, if_pos busy]
        omega
    · left
      have low := low busy
      rw [if_pos busy]
      rcases left with invalid | ⟨same, _⟩
      · rw [if_neg invalid]
        split <;> split <;> omega
      · rw [same]
        split <;> split <;> omega
  | begun idle invalid reply place =>
    rw [reply, place] at ends
    rcases ends with ⟨finished, empty⟩ | ⟨busy, further, bound⟩
    · exact Or.inr ⟨invalid, finished, empty⟩
    · left
      rw [if_neg invalid, if_pos busy, if_neg idle]
      split <;> omega

/-- One event brings the client nearer to its end. -/
theorem clientEvent_runs (clients : 0 < s.clientCount) (free : ∀ id, 0 ≤ (w.store.record id).rev)
    (here : s.clients c = some clnt) (read : clnt.inNext = 0)
    (whole : clnt.pending.length = clnt.outRemain)
    (low : clnt.replyRange.IsValid → g.baseId ≤ clnt.replyId) :
    ∃ st s' clnt' w', Runs (.client c ⟨false, false, true⟩)
        (clientEvent s c ⟨false, false, true⟩) w (st, s') w' ∧
      ¬ Status.Failed st ∧ Beside s s' ∧ OnlySent w w' ∧ s'.clients c = some clnt' ∧
      (work g clnt' < work g clnt ∨ Answered clnt') := by
  obtain ⟨clnt₁, begun, outBuf, outNext, outRemain, turned⟩ := tcpOnReadBlocked_cases s read
  have whole₁ : clnt₁.pending.length = clnt₁.outRemain := by
    rw [TcpClient.pending, outBuf, outNext, outRemain]
    exact whole
  have count : 0 < (s.setClient c clnt₁).clientCount := clients
  obtain ⟨st, s', clnt', w', runs, fine, beside, sent, here', replied⟩ :=
    tcpOnWrite_runs c ⟨false, false, true⟩ count free whole₁ (turned.low low)
  refine ⟨st, s', clnt', w', ?_, fine, ⟨beside.last, beside.fill, beside.next, beside.count⟩, sent,
    here', turned.nearer replied low⟩
  have able : ¬ Status.Failed Status.ok ∧ True := ⟨not_failed_ok, trivial⟩
  unfold clientEvent
  rw [here]
  dsimp only
  rw [if_neg (by simp)]
  simp only [clientRead, Bool.false_eq_true, ↓reduceIte, Task.bind_done, begun, clientWrite,
    setClient_clients_same, able, and_true, not_false_eq_true]
  refine runs.bind ?_
  dsimp only
  rw [if_neg fine]
  exact .done _ _

end Writes

end Sender

/-! ## Runs -/

namespace Serving

variable {c : Nat} {s : Sender g} {w : World g}

/-- The sender reads the next request of client `c`. -/
theorem takes (h : Serving c s w) (empty : (w.peers c).recv.outRemain = 0)
    (more : (w.recd c).length < (w.peers c).up.length) :
    ∃ s' w', Leads s w s' w' ∧ Serving c s' w' ∧ Beside s s' ∧ w'.peers = w.peers ∧
      w'.sent = w.sent ∧ (w.recd c).length < (w'.recd c).length := by
  obtain ⟨clnt, here⟩ := h.client
  obtain ⟨a, ord, link, _⟩ := h.repairing.running h.going
  have incoming := h.repairing.net.gap.incoming c clnt here
  have requests := link.conn.requests.all_written empty
  have split := incoming.split
  have remaining := incoming.more
  obtain ⟨m, size, _⟩ := incoming.chunks
  -- the requests are whole, so the rest of this one is there
  have there : (w.recd c).length + clnt.inRemain ≤ (w.peers c).up.length := by
    rw [requests, length_encodeRanges] at more ⊢
    omega
  obtain ⟨later, all⟩ := link.conn.arrived
  have total := congrArg List.length all
  rw [List.length_append] at total
  have len : (later.take clnt.inRemain).length = clnt.inRemain := by
    rw [List.length_take]
    omega
  have front : w.recd c ++ later.take clnt.inRemain <+: (w.peers c).up := by
    rw [← all]
    exact (List.prefix_append_right_inj _).mpr (List.take_prefix _ _)
  have valid : (clnt.fed (later.take clnt.inRemain)).inRange.IsValid := by
    obtain ⟨m, whole, range, _⟩ := incoming.fed_last len
    have bound : a.rnext ≤ sequenceMax := by
      have := ord.rnext_le
      have := link.sender.next
      have := h.loaded.below
      omega
    rw [range]
    exact (link.conn.range_read bound front (le_of_eq whole.symm)).2.1
  obtain ⟨s', reads, beside, here'⟩ := tcpOnRead_runs c ⟨false, true, false⟩ h.counted
    remaining len (List.isPrefixOf_iff_prefix.mpr front) valid
  have runs : Runs (.client c ⟨false, true, false⟩) (clientEvent s c ⟨false, true, false⟩) w
      (Status.ok, s') (w.read c (later.take clnt.inRemain)) := by
    unfold clientEvent
    rw [here]
    dsimp only
    rw [if_neg (by simp)]
    refine reads.bind ?_
    simp only [clientWrite, here', Bool.false_eq_true, and_false, ↓reduceIte, Task.bind_done,
      not_failed_ok]
    exact .done _ _
  have clients : 0 < s'.clientCount := by
    rw [beside.count]
    exact h.counted
  have run : Leads s w s' (w.read c (later.take clnt.inRemain)) :=
    .handler (e := .client c ⟨false, true, false⟩) rfl rfl rfl runs not_failed_ok clients ⟨rfl, rfl, rfl⟩
  refine ⟨s', _, run, h.leads run h.going ⟨_, here'⟩, beside, rfl, rfl, ?_⟩
  rw [GapCore.read_same, List.length_append]
  omega

/-- The sender reads all requests of client `c`. -/
theorem takesAll (h : Serving c s w) (empty : (w.peers c).recv.outRemain = 0) (n : Nat)
    (size : (w.peers c).up.length = (w.recd c).length + n) :
    ∃ s' w', Leads s w s' w' ∧ Serving c s' w' ∧ Beside s s' ∧ w'.peers = w.peers ∧
      w'.recd c = (w'.peers c).up := by
  -- by strong induction on what is left to read
  induction n using Nat.strongRecOn generalizing s w with
  | ind n ih =>
    obtain ⟨a, _, link, _⟩ := h.repairing.running h.going
    by_cases last : n = 0
    · exact ⟨s, w, .refl s w, h, .refl s, rfl, link.conn.arrived.eq_of_length (by omega)⟩
    · obtain ⟨s₁, w₁, run, serving, beside, peers, _, longer⟩ := h.takes empty (by omega)
      obtain ⟨a₁, _, link₁, _⟩ := serving.repairing.running serving.going
      have within := link₁.conn.arrived.length_le
      rw [peers] at within
      obtain ⟨s₂, w₂, more, serving', beside', peers', all⟩ :=
        ih ((w.peers c).up.length - (w₁.recd c).length) (by omega) serving (by rw [peers]; exact empty)
          (by rw [peers]; omega)
      exact ⟨s₂, w₂, run.trans more, serving', beside.trans beside', peers'.trans peers, all⟩

/-- The sender answers client `c` until nothing is left. -/
theorem answersAll (h : Serving c s w) (empty : (w.peers c).recv.outRemain = 0)
    (all : w.recd c = (w.peers c).up) {clnt : TcpClient} (here : s.clients c = some clnt) (n : Nat)
    (size : work g clnt = n) :
    ∃ s' w', Leads s w s' w' ∧ Serving c s' w' ∧ Beside s s' ∧ w'.peers = w.peers ∧
      w'.recd = w.recd ∧ ∃ clnt', s'.clients c = some clnt' ∧ Answered clnt' := by
  induction n using Nat.strongRecOn generalizing s w clnt with
  | ind n ih =>
    obtain ⟨a, _, link, _⟩ := h.repairing.running h.going
    have incoming := h.repairing.net.gap.incoming c clnt here
    obtain ⟨m, chunks, _⟩ := incoming.chunks
    have split := incoming.split
    have remaining := incoming.more
    -- no request is half read
    have read : clnt.inNext = 0 := by
      rw [all, link.conn.requests.all_written empty, length_encodeRanges] at chunks
      omega
    have whole : clnt.pending.length = clnt.outRemain := by
      obtain ⟨frames, handed, _⟩ := link.conn.frames
      rw [TcpClient.pending, peek, List.length_take, List.length_drop]
      cases (handed_some here).mp handed with
      | idle drained => omega
      | busy left fits => omega
    obtain ⟨st, s₁, clnt₁, w₁, runs, fine, beside, sent, here₁, nearer⟩ :=
      clientEvent_runs h.counted
      h.free here read whole fun busy => (h.repairing.net.gap.scans c clnt here busy).1
    have clients : 0 < s₁.clientCount := by
      rw [beside.count]
      exact h.counted
    have run : Leads s w s₁ w₁ :=
      .handler (e := .client c ⟨false, false, true⟩) rfl rfl rfl runs fine clients sent.toUnwritten
    have serving : Serving c s₁ w₁ := h.leads run (by rw [sent.peers]; exact h.going) ⟨_, here₁⟩
    rcases nearer with less | answered
    · obtain ⟨s₂, w₂, more, serving', beside', peers, recd, ends⟩ :=
        ih (work g clnt₁) (by omega) serving
        (by rw [sent.peers]; exact empty) (by rw [sent.peers, sent.recd]; exact all) here₁ rfl
      exact ⟨s₂, w₂, run.trans more, serving', beside.trans beside', peers.trans sent.peers,
        recd.trans sent.recd, ends⟩
    · exact ⟨s₁, w₁, run, serving, beside, sent.peers, sent.recd, clnt₁, here₁, answered⟩

end Serving

end Lancaster
