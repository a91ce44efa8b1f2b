import Lancaster.Simulation

/-!
# No stale overwrite

A receiver's record is written from two sides: by the packets of the multicast stream, and
by gap replies, which carry the value of the moment under the number the record was last
sent with. Whatever is lost, repeated or overtaken, a record never goes back: its values
are those of the sender's record at versions that do not decrease, and so are the
sequences.
-/

namespace Lancaster

open Bytes Interleaving Sender
open Broadcast (Update Ordered Recorded)

variable {g : Geometry}

/-- A receiver that runs stands for a subscriber of the broadcast; one that has ended has
an orderly history. -/
structure Tracked (c : Nat) (ph : Phase) (s : Sender g) (w : World g) : Prop where
  history : ∃ a, Recorded a ∧ PeerLink w (w.peers c).recv a
  running : (w.peers c).ended = false → ∃ a, Ordered a ∧ Linked c ph s w a

namespace Tracked

variable {c : Nat} {ph ph' : Phase} {s s' : Sender g} {w w' : World g}

/-- A step of the sender. -/
theorem step (h : Tracked c ph s w) (peers : w'.peers = w.peers) (grows : w.Grows w')
    (next : ∀ a, Ordered a → Linked c ph s w a → ∃ a', Ordered a' ∧ Linked c ph' s' w' a') :
    Tracked c ph' s' w' := by
  constructor
  · obtain ⟨a, recorded, link⟩ := h.history
    rw [peers]
    exact ⟨a, recorded, link.mono grows⟩
  · intro running
    rw [peers] at running
    obtain ⟨a, ord, linked⟩ := h.running running
    exact next a ord linked

/-- A step of the receiver. -/
theorem peerStep (h : Tracked c ph s w) (running : (w.peers c).ended = false) {p : Peer g}
    (step : PeerStep w c p) : Tracked c ph s (w.setPeer c p) := by
  obtain ⟨a, ord, linked⟩ := h.running running
  obtain ⟨a', recorded, _, link, fine⟩ := linked.peerStep ord step
  have here : (w.setPeer c p).peers c = p := if_pos rfl
  constructor
  · rw [here]
    exact ⟨a', recorded, link.label, link.hist, link.val⟩
  · rw [here]
    intro going
    obtain ⟨effect, linked⟩ := fine going
    exact ⟨a', effect.ordered ord, linked⟩

theorem moved (h : Tracked c ph s w) {m : NetMove g} (hm : World.netMove m w = some w') :
    Tracked c ph s w' := by
  rcases netMove_cases hm with ⟨m, hm⟩ | ⟨i, p, rfl, _, running, step⟩
  · refine h.step (writerMove_same hm).2.2.2.2 (writerMove_grows hm) ?_
    intro a ord linked
    obtain ⟨a', which, linked⟩ := linked.written hm
    refine ⟨a', ?_, linked⟩
    rcases which with ⟨rfl, _⟩ | ⟨id, _, _, _, rfl⟩
    · exact ord
    · exact ord.commit id
  · by_cases hi : i = c
    · subst hi
      exact h.peerStep running step
    · have same : (w.setPeer i p).peers c = w.peers c := if_neg (Ne.symm hi)
      constructor
      · rw [same]
        obtain ⟨a, recorded, link⟩ := h.history
        exact ⟨a, recorded, link.label, link.hist, link.val⟩
      · rw [same]
        intro going
        obtain ⟨a, ord, linked⟩ := h.running going
        exact ⟨a, ord, linked.other hi p⟩

end Tracked

/-- Everything the sender, the writer and the receivers do keeps the link. -/
theorem trackedKept (c : Nat) :
    Kept (netEnv g) (fun _ _ _ => True) (fun _ _ _ => True) (fun _ _ _ => True)
      (fun ph s w => NetInv ph s w ∧ Tracked c ph s w) where
  moved := fun h _ _ hm => ⟨h.1.moved hm, h.2.moved hm⟩
  silent := by
    intro ph s ph' s' w h step
    refine ⟨h.1.silent step, h.2.step rfl (fun _ => List.prefix_rfl) ?_⟩
    exact fun a ord linked => ⟨a, ord, linked.silent h.1 step⟩
  answered := by
    intro e call ph s w ph' s' w' h _ step
    obtain ⟨_, commits, _, peers, _⟩ := step.same
    refine ⟨h.1.answered step, h.2.step peers ?_ ?_⟩
    · exact fun id => (congrFun commits id).symm ▸ List.prefix_rfl
    · intro a ord linked
      obtain ⟨a', effect, linked⟩ := linked.answered h.1 ord step
      exact ⟨a', effect.ordered ord, linked⟩
  quits := by
    intro ph s w order rounds _ _ _ allowed
    cases allowed

/-! ## The start -/

/-- A receiver that has just been set up, with buffers of the sizes that it allocates. -/
def Peer.Fresh (p : Peer g) : Prop :=
  ∃ store qCapacity inBuf outBuf now, inBuf.length = pktSize g ∧ outBuf.length = 16 ∧
    p = .init (Receiver.init store qCapacity inBuf outBuf now)

theorem linked_start {mtu : Nat} {buf : List UInt8} {ignoreOverrun : Bool}
    {heartbeatUsec maxPktAgeUsec now : Int} {store : Storage g} {peers : Nat → Peer g} (c : Nat)
    (fresh : (peers c).Fresh) :
    Linked c .rest (Sender.init mtu buf ignoreOverrun heartbeatUsec maxPktAgeUsec now)
      (World.start store peers) (.start 0) := by
  obtain ⟨store', qCapacity, inBuf, outBuf, now', inLen, outLen, eq⟩ := fresh
  have here : (World.start store peers).peers c =
    .init (Receiver.init store' qCapacity inBuf outBuf now') := eq
  have nothing : ∀ d ∈ (World.start store peers).wire,
    Carried (World.start store peers) (.start 0) d :=
    List.forall_mem_nil _
  refine ⟨⟨rfl, fun _ => rfl, fun _ => rfl, Or.inl ?_, nothing⟩, ?_, le_refl _, ?_, ?_, ?_, ?_,
    fun _ missing => (by cases missing), [], ⟨List.nil_prefix, fun _ => rfl⟩, List.forall_mem_nil _, ?_,
    [], [], [], rfl, ?_, ?_, .nil⟩
  · rw [staged_empty rfl]
    exact .nil
  · rw [here]
    rfl
  · rw [here]
    refine ⟨fun _ => rfl, .nil, fun _ low => ?_⟩
    have low : (0 : Int) ≤ 0 - 1 := low
    omega
  · rw [here]
    refine ⟨outLen, by simp [Peer.init, Receiver.init], ?_⟩
    simp [Peer.init, Receiver.init, Receiver.pending, peek, gapRanges, encodeRanges]
  · rw [here]
    exact List.prefix_rfl
  · rw [here]
    exact List.forall_mem_nil _
  · rw [here]
    exact le_refl _
  · rw [here]
    rfl
  · rw [here]
    exact .start inLen rfl rfl

theorem netInv_start {ifaceMtu mtu : Nat} {buf : List UInt8} {ignoreOverrun : Bool}
    {heartbeatUsec maxPktAgeUsec now : Int} {store : Storage g} {peers : Nat → Peer g}
    (enough : 28 ≤ ifaceMtu) (size : ifaceMtu < 18446744073709551616)
    (created : initMtu g ifaceMtu = .ok mtu) (len : buf.length = mtu)
    (revs : ∀ id, (store.record id).rev ≤ spinMax) :
    NetInv .rest (Sender.init mtu buf ignoreOverrun heartbeatUsec maxPktAgeUsec now)
      (World.start store peers) := by
  refine ⟨streamInv_init enough size created len,
    gapCore_init _ _ _ (fun _ => Int.zero_le_ofNat 1) (fun _ => le_refl _) fun _ => rfl, ⟨nofun, nofun⟩, ?_,
    fun _ => le_refl _⟩
  exact ⟨fun _ _ => rfl, revs, fun _ => List.isChain_singleton _, nofun⟩

/-! ## Runs -/

/-- The values that `update_record` has written into record `id`, in order. -/
def writtenTo (id : Int) (acts : List (RecvAct g)) : List (Value g) :=
  ((updates acts).filter fun u => u.2.1 = id).map fun u => u.2.2

def versionsOf (id : Int) (hist : List (Update Int)) : List Nat :=
  (hist.filter fun e => e.id = id).map Update.ver

theorem versionsOf_had {w : World g} {hist : List (Update Int)} {ups : List (Int × Int × Value g)}
    (all : List.Forall₂ (Stands w) hist ups) (id : Int) :
    List.Forall₂ (w.Had id) (versionsOf id hist)
      ((ups.filter fun u => u.2.1 = id).map fun u => u.2.2) := by
  induction all with
  | nil => exact .nil
  | @cons e u hist ups first rest ih =>
    obtain ⟨_, same, had⟩ := first
    by_cases hi : e.id = id
    · have here : u.2.1 = id := same.symm.trans hi
      simp only [versionsOf, List.filter_cons, hi, here, decide_true, ↓reduceIte, List.map_cons]
      rw [here] at had
      exact .cons had ih
    · have other : ¬ u.2.1 = id := fun there => hi (same.trans there)
      simpa only [versionsOf, List.filter_cons, hi, other, decide_false, Bool.false_eq_true,
        ↓reduceIte] using ih

theorem versionsOf_sorted {a : Broadcast.State Int} (h : Recorded a) (id : Int) :
    (versionsOf id a.hist).Pairwise (· ≤ ·) := by
  refine List.pairwise_map.mpr ((h.sorted.filter _).imp_of_mem ?_)
  intro e f he hf order
  have he := of_decide_eq_true (List.mem_filter.mp he).2
  have hf := of_decide_eq_true (List.mem_filter.mp hf).2
  exact (order (he.trans hf.symm)).2

section Runs

variable {ifaceMtu mtu : Nat} {buf : List UInt8} {ignoreOverrun : Bool}
  {heartbeatUsec maxPktAgeUsec now : Int} {store : Storage g} {peers : Nat → Peer g}
  {x₀ x y : Conf (netEnv g).host} {c : Nat}

/-- What holds in every configuration of a run. -/
theorem tracked_reachable
    (start : x₀ = (netEnv g).idleConf (Sender.init mtu buf ignoreOverrun heartbeatUsec
      maxPktAgeUsec now) (World.start store peers)) (enough : 28 ≤ ifaceMtu)
    (size : ifaceMtu < 18446744073709551616) (created : initMtu g ifaceMtu = .ok mtu)
    (len : buf.length = mtu) (revs : ∀ id, (store.record id).rev ≤ spinMax)
    (fresh : (peers c).Fresh) (run : (netEnv g).host.Reachable x₀ x) :
    ∃ ph, NetInv ph x.state x.world ∧ Tracked c ph x.state x.world := by
  subst start
  have linked : Linked c .rest (Sender.init mtu buf ignoreOverrun heartbeatUsec maxPktAgeUsec now)
    (World.start store peers) (.start 0) := linked_start c fresh
  refine (trackedKept c).holds (fun _ _ _ _ _ => trivial) (fun _ _ _ _ _ => trivial)
    (fun _ _ _ _ _ _ => trivial) ?_ trivial run
  exact ⟨netInv_start enough size created len revs,
    ⟨_, (Ordered.start 0).recorded, linked.peer⟩, fun _ => ⟨_, .start 0, linked⟩⟩

/-- In one step no sequence of a receiver goes down. -/
theorem Tracked.next {ph : Phase} (h : Tracked c ph x.state x.world)
    {ch : Choice (netEnv g).host} (hn : (netEnv g).host.next ch x = some y) (i : Int) :
    (x.world.peers c).recv.recordSeqs i ≤ (y.world.peers c).recv.recordSeqs i := by
  rcases Host.next_cases _ hn with ⟨m, w, _, hm, rfl⟩ | ⟨s, call, k, a, w, _, hr, rfl⟩ |
    ⟨e, a, t, _, _, _, rfl⟩
  · rcases netMove_cases hm with ⟨m, hm⟩ | ⟨j, p, rfl, _, running, step⟩
    · rw [(writerMove_same hm).2.2.2.2]
    · by_cases hj : j = c
      · subst hj
        obtain ⟨a, ord, linked⟩ := h.running running
        obtain ⟨a', _, raised, link, _⟩ := linked.peerStep ord step
        have before := linked.peer.label (i + g.baseId)
        have after := link.label (i + g.baseId)
        have le := raised (i + g.baseId)
        rw [before, after, Int.add_sub_cancel] at le
        simpa [World.setPeer] using le
      · simp [World.setPeer, Ne.symm hj]
  · rw [(reply_same hr).2.2]
  · exact le_refl _

/-- Whatever the network does, the values that a receiver writes into a record are those of
the sender's record at revisions that do not go back, its sequences never decrease, and
those of a running receiver are below the one it expects next. -/
theorem no_stale_overwrite
    (start : x₀ = (netEnv g).idleConf (Sender.init mtu buf ignoreOverrun heartbeatUsec
      maxPktAgeUsec now) (World.start store peers)) (enough : 28 ≤ ifaceMtu)
    (size : ifaceMtu < 18446744073709551616) (created : initMtu g ifaceMtu = .ok mtu)
    (len : buf.length = mtu) (revs : ∀ id, (store.record id).rev ≤ spinMax)
    (fresh : ∀ c, (peers c).Fresh) (run : (netEnv g).host.Reachable x₀ x)
    (later : (netEnv g).host.Reachable x y) (c : Nat) (id : Int) :
    ((x.world.commits id).IsChain fun r r' => r'.rev = nextRev r.rev) ∧
    (∃ vers : List Nat, vers.Pairwise (· ≤ ·) ∧
      List.Forall₂ (x.world.Had id) vers (writtenTo id (x.world.peers c).recv.acts)) ∧
    (x.world.peers c).recv.recordSeqs (id - g.baseId) ≤
      (y.world.peers c).recv.recordSeqs (id - g.baseId) ∧
    ((x.world.peers c).ended = false →
      (x.world.peers c).recv.recordSeqs (id - g.baseId) < (x.world.peers c).recv.nextSeq) := by
  obtain ⟨ph, net, tracked⟩ := tracked_reachable start enough size created len revs (fresh c) run
  refine ⟨net.stored.revs id, ?_, ?_, ?_⟩
  · obtain ⟨a, recorded, link⟩ := tracked.history
    exact ⟨versionsOf id a.hist, versionsOf_sorted recorded id, versionsOf_had link.hist id⟩
  · -- one step after the other
    clear net tracked
    induction later with
    | refl => exact le_refl _
    | step ch before hn _ ih =>
      obtain ⟨_, _, tracked⟩ := tracked_reachable start enough size created len revs (fresh c)
        (Host.Reach.trans _ run before)
      exact ih.trans (tracked.next hn _)
  · intro running
    obtain ⟨a, ord, linked⟩ := tracked.running running
    have below := ord.rlabel_lt id
    rw [linked.peer.label, linked.rnext] at below
    exact below

end Runs

/-- Byte `b` is written, queued, staged and sent as the packet with number `n`. -/
def publishByte (b : UInt8) (n : Nat) : List (Choice (netEnv small).host) :=
  [.move (NetMove.writer (.lock 0 0 (smallValue b))), .move (NetMove.writer .unlock),
   .move (NetMove.writer .slot), .move (NetMove.writer .bump),
   .start Event.mcast, .reply .storageGetQueueHead n,
   .reply (.storageReadQueue (n - 1)) (.ok (0 : Int)),
   .reply (.recordReadLock 0) (.ok (n : Int)),
   .reply (.recordCopy 0) (.ok ⟨n, 0, smallValue b⟩), .reply .clockTime (.ok (5 : Int)),
   .reply (.latencyOnSample 5) (.ok ()),
   .start Event.mcast, .reply .storageGetQueueHead n, .reply .clockTime (.ok (100 : Int)),
   .reply .clockTime (.ok (100 : Int)),
   .reply (.sockSendto (datagram n (netLong 100) [(0, smallValue b)])) (.ok (25 : Nat)),
   .reply .lockStats (.ok ())]

def hearByte (b : UInt8) (n : Nat) : Choice (netEnv small).host :=
  .move (NetMove.datagram 0 (.ofDatagram (datagram n (netLong 100) [(0, smallValue b)]) 0))

def writeRequest : Choice (netEnv small).host :=
  .move (NetMove.tcp 0 false true [] (.ok 0) (.ok ()) (.ok 0) (.ok ()) [.ok 16] (.ok ()))

/-- The receiver hears of both updates, and then of the first one again. -/
theorem no_stale_overwrite_small : ∃ x : Conf (netEnv small).host,
    (netEnv small).host.Reachable ((netEnv small).idleConf smallSender
      (World.start smallStore fun _ => .init smallReceiver)) x ∧
    writtenTo 0 (x.world.peers 0).recv.acts = [smallValue 7, smallValue 8] ∧
    (x.world.peers 0).ended = false ∧
    (∃ vers : List Nat, vers.Pairwise (· ≤ ·) ∧
      List.Forall₂ (x.world.Had 0) vers (writtenTo 0 (x.world.peers 0).recv.acts)) ∧
    (x.world.peers 0).recv.recordSeqs 0 < (x.world.peers 0).recv.nextSeq := by
  have start : (netEnv small).idleConf smallSender
        (World.start smallStore fun _ => .init smallReceiver) =
      (netEnv small).idleConf (Sender.init 25 (List.replicate 25 0) false 50 10 0)
        (World.start smallStore fun _ => .init smallReceiver) := rfl
  obtain ⟨x, run, seen⟩ := (netEnv small).host.reach_of_any
    (x := (netEnv small).idleConf smallSender (World.start smallStore fun _ => .init smallReceiver))
    (p := fun x => decide (writtenTo 0 (x.world.peers 0).recv.acts = [smallValue 7, smallValue 8] ∧
      (x.world.peers 0).ended = false))
    (acceptFirst (netEnv small) 0 0 ++ publishByte 7 1 ++ publishByte 8 2 ++
      [hearByte 7 1, writeRequest, hearByte 8 2, hearByte 7 1])
    (fun _ _ _ _ _ => trivial) (by decide +kernel)
  obtain ⟨written, running⟩ := of_decide_eq_true seen
  have fresh : ∀ _ : Nat, Peer.Fresh (.init smallReceiver) :=
    fun _ => ⟨_, _, _, _, _, rfl, rfl, rfl⟩
  obtain ⟨_, values, _, below⟩ := no_stale_overwrite start (show 28 ≤ 53 by decide) (by decide) rfl rfl
    (fun _ => Int.zero_le_ofNat _) fresh run .refl 0 0
  exact ⟨x, run, written, running, values, below running⟩

end Lancaster
