import Lancaster.Isolation

/-!
# A multicast socket that is full

When the socket refuses a datagram in the queue loop the packet stays, full as it is, and
`last_q_idx` stays at the record that has no room. Whatever is handled before the next
attempt leaves the packet alone, so that the next attempt offers it again, with a new time.
On an empty queue nothing maps the refusal to success and `sender_run` ends.
-/

namespace Lancaster

open Interleaving Sender

variable {g : Geometry}

structure Ran (g : Geometry) where
  before : Sender g
  event : Event
  trace : Trace g
  result : Turn g

/-- The head of the queue, if the calls begin with a look at it. -/
def foundHead : Trace g → Option Nat
  | ⟨.storageGetQueueHead, head⟩ :: _ => some head
  | _ => none

namespace Ran

/-- The multicast socket is full in this run. -/
def Blocks (run : Ran g) : Prop := ∃ x ∈ attempts run.trace, x.2 = some Failure.blocked

def FindsWork (run : Ran g) : Prop := ∃ head ∈ foundHead run.trace, run.before.lastQIdx < head

instance (run : Ran g) : Decidable run.Blocks := inferInstanceAs (Decidable (∃ x ∈ _, _))

instance (run : Ran g) : Decidable run.FindsWork := inferInstanceAs (Decidable (∃ head ∈ _, _))

end Ran

/-- The handlers that `sender_run` calls from `s` on, until one fails. -/
def Session (s : Sender g) : List (Ran g) → Prop
  | [] => True
  | run :: rest => run.before = s ∧ run.result.hasQuit = false ∧
      (s.handle run.event).Ends run.trace run.result ∧
      (rest ≠ [] → ¬ Status.Failed run.result.status) ∧ Session run.result.sndr rest

def offered (runs : List (Ran g)) : List (List UInt8 × Option Failure) :=
  runs.flatMap fun run => attempts run.trace

def taken (offers : List (List UInt8 × Option Failure)) : List (List UInt8) :=
  offers.filterMap fun
    | (data, none) => some data
    | (_, some _) => none

/-- The same packet at another time: only the time of sending differs. -/
def Repeats (p q : List UInt8) : Prop :=
  q.length = p.length ∧ q.take 8 = p.take 8 ∧ q.drop 16 = p.drop 16

instance (p q : List UInt8) : Decidable (Repeats p q) := inferInstanceAs (Decidable (_ ∧ _ ∧ _))

/-- The datagrams that go out when every refusal is followed by a retry of the same packet;
there are none if some other packet comes next. -/
def retried : Option (List UInt8) → List (List UInt8 × Option Failure) → Option (List (List UInt8))
  | _, [] => some []
  | waiting, (data, out) :: rest =>
    if ∀ p ∈ waiting, Repeats p data then
      match out with
      | none => (retried none rest).map (data :: ·)
      | some _ => retried (some data) rest
    else none

section Retried

variable {waiting : Option (List UInt8)} {data : List UInt8}
  {rest : List (List UInt8 × Option Failure)}

theorem retried_taken (same : ∀ p ∈ waiting, Repeats p data) :
    retried waiting ((data, none) :: rest) = (retried none rest).map (data :: ·) := if_pos same

theorem retried_refused {e : Failure} (same : ∀ p ∈ waiting, Repeats p data) :
    retried waiting ((data, some e) :: rest) = retried (some data) rest := if_pos same

end Retried

namespace Sender

variable {s s' : Sender g} {tr : Trace g} {st : Int} {p : List UInt8}

/-- An empty packet has room for a record, and the buffer for the header of a packet. -/
structure Roomy (s : Sender g) : Prop where
  room : 8 + g.valSize ≤ s.mcastMtu
  size : s.mcastMtu < 18446744073709551616
  long : 16 ≤ s.pktBuf.length

theorem Roomy.moved (h : s.Roomy) (mtu : s'.mcastMtu = s.mcastMtu)
    (len : s.pktBuf.length ≤ s'.pktBuf.length) : s'.Roomy :=
  ⟨mtu ▸ h.room, mtu ▸ h.size, le_trans h.long len⟩

theorem Roomy.pktNext_ne (h : s.Roomy) (tight : s.Tight) : s.pktNext ≠ 0 := by
  intro zero
  have room := h.room
  have size := h.size
  unfold Tight sizeSub at tight
  rw [zero] at tight
  omega

/-- The socket has refused `p`, and the packet has no room for more. -/
structure Waiting (p : List UInt8) (s : Sender g) : Prop where
  tight : s.Tight
  same : s.packet = p

theorem Waiting.moved (h : s.Waiting p) (mtu : s'.mcastMtu = s.mcastMtu)
    (fill : s'.pktNext = s.pktNext) (buf : s'.pktBuf = s.pktBuf) : s'.Waiting p := by
  constructor
  · unfold Tight
    rw [mtu, fill]
    exact h.tight
  · rw [packet, buf, fill]
    exact h.same

/-- A packet that is stamped anew is the same packet. -/
theorem repeats_stamped (roomy : s.Roomy) (now : Int) :
    Repeats s.packet (s.stamped now).packet := by
  have long := roomy.long
  have len : (s.stamped now).pktBuf.length = s.pktBuf.length := by
    apply Bytes.length_stLong
    omega
  have split : (s.stamped now).pktBuf =
      s.pktBuf.take 8 ++ Bytes.ofLong (htonll now) ++ s.pktBuf.drop 16 := by
    simp [stamped, Bytes.stLong, Bytes.poke]
  have head : (s.stamped now).pktBuf.take 8 = s.pktBuf.take 8 := by
    apply Bytes.take_poke_before
    · exact le_refl 8
    · omega
  have tail : (s.stamped now).pktBuf.drop 16 = s.pktBuf.drop 16 := by
    rw [split, List.drop_append_of_le_length, List.drop_of_length_le, List.nil_append]
    · simp
    · simp only [List.length_append, List.length_take, Bytes.length_ofLong]
      omega
  have fill : (s.stamped now).pktNext = s.pktNext := rfl
  refine ⟨?_, ?_, ?_⟩
  · simp only [packet, List.length_take, len, fill]
  · rw [packet, packet, fill, List.take_take, List.take_take, min_comm, ← List.take_take, head,
      List.take_take]
  · rw [packet, packet, fill, List.drop_take, List.drop_take, tail]

/-- What a call of `mcast_on_write` does about a refused packet: it is left alone, or it is
what the call offers. A packet that is refused now waits, unless the call fails. -/
theorem mcastOnWrite_offers (roomy : s.Roomy) (h : (mcastOnWrite s).Ends tr (st, s')) :
    s'.Roomy ∧
    ((attempts tr = [] ∧ ∀ p, s.Waiting p → s'.Waiting p) ∨
     ∃ data out, attempts tr = [(data, out)] ∧ (∀ p, s.Waiting p → Repeats p data) ∧
       (∀ e, out = some e → Status.Failed st ∨ s'.Waiting data) ∧
       (out = some Failure.blocked → (¬ Status.Failed st ↔ ∃ head ∈ foundHead tr, s.lastQIdx < head))) := by
  obtain ⟨head, rest, rfl, outcome⟩ := mcastOnWrite_ends h
  clear h
  have same : attempts (⟨.storageGetQueueHead, head⟩ :: rest : Trace g) = attempts rest := rfl
  rw [same]
  rcases outcome with ⟨empty, ends⟩ | ⟨_, _, rfl, rfl, rfl⟩ | ⟨more, _, st₁, s₁, q', pass, rfl, rfl⟩
  · obtain ⟨_, keeps, _, offers⟩ := mcastOnEmptyQueue_ends ends
    refine ⟨roomy.moved keeps.mtu keeps.len, ?_⟩
    rcases offers with ⟨quiet, stay⟩ | ⟨s₁, now, out, here, full, refused⟩
    · refine Or.inl ⟨quiet, fun p waits => ?_⟩
      rw [stay (roomy.pktNext_ne waits.tight)]
      exact waits.moved rfl rfl rfl
    · refine Or.inr ⟨_, out, here, fun p waits => ?_, fun e eq => Or.inl ?_, fun eq => ?_⟩
      · rw [full (roomy.pktNext_ne waits.tight), ← waits.same]
        exact repeats_stamped roomy now
      · rw [refused e eq]
        exact e.2
      · have failed : Status.Failed st := by
          rw [refused _ eq]
          exact Failure.blocked.2
        refine iff_of_false (fun fine => fine failed) ?_
        rintro ⟨_, ⟨⟩, ahead⟩
        omega
  · exact ⟨roomy, Or.inl ⟨rfl, fun p waits => waits⟩⟩
  · refine ⟨roomy.moved pass.keeps.mtu pass.keeps.len, ?_⟩
    rcases pass.offers with ⟨quiet, stay⟩ | ⟨s₂, now, out, here, tight, full, refused⟩
    · refine Or.inl ⟨quiet, fun p waits => ?_⟩
      obtain rfl := stay waits.tight
      exact waits.moved rfl rfl rfl
    · refine Or.inr ⟨_, out, here, fun p waits => ?_, fun e eq => ?_, fun eq => ?_⟩
      · rw [full waits.tight, ← waits.same]
        exact repeats_stamped roomy now
      · right
        rw [(refused e eq).2]
        exact ⟨tight, rfl⟩
      · rw [(refused _ eq).1]
        exact iff_of_true (by decide) ⟨head, rfl, more⟩

/-- The same of every handler. Only that of the multicast socket offers anything. -/
theorem handle_offers {e : Event} {r : Turn g} (roomy : s.Roomy) (goesOn : r.hasQuit = false)
    (h : (s.handle e).Ends tr r) :
    r.sndr.Roomy ∧
    ((attempts tr = [] ∧ ∀ p, s.Waiting p → r.sndr.Waiting p) ∨
     ∃ data out, attempts tr = [(data, out)] ∧ (∀ p, s.Waiting p → Repeats p data) ∧
       (∀ e, out = some e → Status.Failed r.status ∨ r.sndr.Waiting data) ∧
       (out = some Failure.blocked → (¬ Status.Failed r.status ↔
          ∃ head ∈ foundHead tr, s.lastQIdx < head))) := by
  -- the handlers of a connection leave the packet alone
  have apart : ∀ {c : Nat} {s' : Sender g} {tr : Trace g}, Apart c s s' → attempts tr = [] →
      s'.Roomy ∧ (attempts tr = [] ∧ ∀ p, s.Waiting p → s'.Waiting p) := by
    intro c s' tr apart quiet
    refine ⟨roomy.moved apart.mtu (le_of_eq ?_), quiet, ?_⟩
    · rw [apart.buf]
    · exact fun p waits => waits.moved apart.mtu apart.fill apart.buf
  cases e with
  | accept c inBuf outBuf =>
    obtain ⟨⟨st, s'⟩, calls, rest, rfl, accepts, done⟩ := Task.ends_bind.mp h
    obtain ⟨rfl, rfl⟩ := Task.ends_done.mp done
    have accepted := tcpOnAccept_ends accepts
    rw [List.append_nil]
    obtain ⟨roomy', quiet⟩ := apart accepted.apart (attempts_eq_nil accepted.unsent)
    exact ⟨roomy', Or.inl quiet⟩
  | client c rev =>
    obtain ⟨⟨st, s'⟩, calls, rest, rfl, handles, done⟩ := Task.ends_bind.mp h
    obtain ⟨rfl, rfl⟩ := Task.ends_done.mp done
    obtain ⟨kept, unsent, _⟩ := clientEvent_ends handles
    rw [List.append_nil]
    obtain ⟨roomy', quiet⟩ := apart kept unsent
    exact ⟨roomy', Or.inl quiet⟩
  | mcast =>
    obtain ⟨⟨st, s'⟩, calls, rest, rfl, writes, done⟩ := Task.ends_bind.mp h
    obtain ⟨rfl, rfl⟩ := Task.ends_done.mp done
    rw [List.append_nil]
    exact mcastOnWrite_offers roomy writes
  | quit order rounds =>
    obtain ⟨⟨st, s'⟩, calls, rest, rfl, quits, done⟩ := Task.ends_bind.mp h
    obtain ⟨rfl, rfl⟩ := Task.ends_done.mp done
    cases goesOn

end Sender

namespace Session

variable {s : Sender g} {runs : List (Ran g)}

/-- A refused packet is the next one that is offered. -/
theorem retries {waiting : Option (List UInt8)} (session : Session s runs) (roomy : s.Roomy)
    (waits : ∀ p ∈ waiting, s.Waiting p) :
    retried waiting (offered runs) = some (taken (offered runs)) := by
  induction runs generalizing s waiting with
  | nil => cases waiting <;> rfl
  | cons run rest ih =>
    obtain ⟨rfl, goesOn, ends, next, session⟩ := session
    obtain ⟨roomy', offers⟩ := handle_offers roomy goesOn ends
    have split : offered (run :: rest) = attempts run.trace ++ offered rest := rfl
    rw [split]
    rcases offers with ⟨quiet, stay⟩ | ⟨data, out, one, again, refused, _⟩
    · rw [quiet]
      exact ih session roomy' fun p here => stay p (waits p here)
    · rw [one]
      have same : ∀ p ∈ waiting, Repeats p data := fun p here => again p (waits p here)
      cases out with
      | none =>
        have sent : retried none (offered rest) = some (taken (offered rest)) :=
          ih session roomy' nofun
        show retried waiting ((data, none) :: offered rest) = some (data :: taken (offered rest))
        rw [retried_taken same, sent]
        rfl
      | some e =>
        show retried waiting ((data, some e) :: offered rest) = some (taken (offered rest))
        rw [retried_refused same]
        rcases refused e rfl with failed | waits'
        · -- nothing is handled after a failure
          have ended : rest = [] := by
            by_contra nonempty
            exact next nonempty failed
          subst ended
          rfl
        · apply ih session roomy'
          rintro p ⟨⟩
          exact waits'

/-- A refusal ends the session exactly if it comes on an empty queue. -/
theorem blocks_iff (session : Session s runs) (roomy : s.Roomy) {run : Ran g} (here : run ∈ runs)
    (blocks : run.Blocks) : ¬ Status.Failed run.result.status ↔ run.FindsWork := by
  induction runs generalizing s with
  | nil => cases here
  | cons first rest ih =>
    obtain ⟨rfl, goesOn, ends, _, session⟩ := session
    obtain ⟨roomy', offers⟩ := handle_offers roomy goesOn ends
    rcases List.mem_cons.mp here with rfl | here
    · obtain ⟨⟨data, _⟩, refused, rfl⟩ := blocks
      rcases offers with ⟨quiet, _⟩ | ⟨data', out, one, _, _, iff⟩
      · rw [quiet] at refused
        cases refused
      · rw [one] at refused
        obtain ⟨_, eq⟩ := Prod.mk.inj (List.mem_singleton.mp refused)
        exact iff eq.symm
    · exact ih session roomy' here

end Session

theorem roomy_init {ifaceMtu mtu : Nat} (fits : Sender.initMtu g ifaceMtu = .ok mtu)
    {buf : List UInt8} (len : buf.length = mtu) (ignoreOverrun : Bool)
    (heartbeatUsec maxPktAgeUsec now : Int) :
    (Sender.init mtu buf ignoreOverrun heartbeatUsec maxPktAgeUsec now : Sender g).Roomy := by
  obtain ⟨roomy, small⟩ := initMtu_ok fits
  refine ⟨?_, small, ?_⟩
  · show 8 + g.valSize ≤ mtu
    omega
  · show 16 ≤ buf.length
    omega

/-- In every session of the sender a full multicast socket stops nothing, and what goes out
is what is obtained from retries of the same packets, exactly if the socket is full only in
calls that find an entry in the queue. -/
theorem full_socket {ifaceMtu mtu : Nat} (fits : Sender.initMtu g ifaceMtu = .ok mtu)
    {buf : List UInt8} (len : buf.length = mtu) {ignoreOverrun : Bool}
    {heartbeatUsec maxPktAgeUsec now : Int} {runs : List (Ran g)}
    (session : Session (.init mtu buf ignoreOverrun heartbeatUsec maxPktAgeUsec now) runs) :
    ((∀ run ∈ runs, run.Blocks → ¬ Status.Failed run.result.status) ∧
      retried none (offered runs) = some (taken (offered runs))) ↔
    ∀ run ∈ runs, run.Blocks → run.FindsWork := by
  have roomy := roomy_init fits len ignoreOverrun heartbeatUsec maxPktAgeUsec now
  constructor
  · rintro ⟨fine, _⟩ run here blocks
    exact (session.blocks_iff roomy here blocks).mp (fine run here blocks)
  · intro work
    refine ⟨fun run here blocks => ?_, session.retries roomy nofun⟩
    exact (session.blocks_iff roomy here blocks).mpr (work run here blocks)

/-- The session of a list of handlers, each with its answers. -/
def played (s : Sender g) : List (Event × Trace g) → List (Ran g)
  | [] => []
  | (e, tr) :: rest =>
    match (s.handle e).result tr with
    | none => []
    | some r => ⟨s, e, tr, r⟩ :: if Status.Failed r.status then [] else played r.sndr rest

theorem session_played {s : Sender g} {es : List (Event × Trace g)}
    (goesOn : ∀ run ∈ played s es, run.result.hasQuit = false) : Session s (played s es) := by
  induction es generalizing s with
  | nil => trivial
  | cons x rest ih =>
    obtain ⟨e, tr⟩ := x
    unfold played at goesOn ⊢
    split
    · trivial
    · rename_i r eq
      rw [eq] at goesOn
      refine ⟨rfl, goesOn _ (List.mem_cons_self ..), Task.ends_of_result eq, ?_, ?_⟩
      · intro nonempty failed
        rw [if_pos failed] at nonempty
        exact nonempty rfl
      · split
        · trivial
        · rename_i fine
          apply ih
          intro run here
          apply goesOn run
          simp only [fine, ↓reduceIte]
          exact List.mem_cons_of_mem _ here

def smallConnects : Event × Trace small :=
  (.accept 0 (List.replicate 16 0) (List.replicate 17 0),
   [⟨.lib (.sockAccept 0), .ok ()⟩, ⟨.lib (.sockSetTcpNodelay 0), .ok ()⟩,
    ⟨.lib .signalAddHandler, .ok ()⟩, ⟨.lib (.writeHello 0), .ok ()⟩,
    ⟨.lib .signalRemoveHandler, .ok ()⟩, ⟨.lib .xmalloc, .ok ()⟩, ⟨.lib .xmalloc, .ok ()⟩,
    ⟨.lib .xmalloc, .ok ()⟩, ⟨.clockTime, .ok 1⟩, ⟨.lib (.sockSetNonblock 0), .ok ()⟩,
    ⟨.lib (.pollerAdd 0), .ok ()⟩, ⟨.lib .pollerAddMcast, .ok ()⟩, ⟨.clockTime, .ok 1⟩,
    ⟨.storageGetQueueHead, (0 : Nat)⟩])

/-- The first data packet of the small sender, sent at `now`. -/
def smallDatagram (now : Int) : List UInt8 := netLong 1 ++ netLong now ++ netLong 0 ++ [7]

/-- Two entries are queued. The packet is full after the first, and the socket refuses it;
the next call offers it again. -/
def smallRetry : List (Event × Trace small) :=
  [smallConnects,
   (.mcast,
    [⟨.storageGetQueueHead, (2 : Nat)⟩, ⟨.storageReadQueue 0, .ok 0⟩, ⟨.recordReadLock 0, .ok 1⟩,
     ⟨.recordCopy 0, .ok ⟨1, 1, smallValue 7⟩⟩, ⟨.clockTime, .ok 2⟩, ⟨.latencyOnSample 1, .ok ()⟩,
     ⟨.storageReadQueue 1, .ok 1⟩, ⟨.recordReadLock 1, .ok 1⟩, ⟨.clockTime, .ok 3⟩,
     ⟨.sockSendto (smallDatagram 3), .error .blocked⟩]),
   (.mcast,
    [⟨.storageGetQueueHead, (2 : Nat)⟩, ⟨.storageReadQueue 1, .ok 1⟩, ⟨.recordReadLock 1, .ok 1⟩,
     ⟨.clockTime, .ok 4⟩, ⟨.sockSendto (smallDatagram 4), .ok 25⟩, ⟨.lockStats, .ok ()⟩,
     ⟨.recordCopy 1, .ok ⟨1, 1, smallValue 8⟩⟩, ⟨.clockTime, .ok 4⟩, ⟨.latencyOnSample 3, .ok ()⟩])]

theorem full_socket_small :
    (∀ run ∈ played smallSender smallRetry, run.Blocks → ¬ Status.Failed run.result.status) ∧
      retried none (offered (played smallSender smallRetry)) = some [smallDatagram 4] := by
  have session : Session smallSender (played smallSender smallRetry) :=
    session_played (by decide +kernel)
  have sent : taken (offered (played smallSender smallRetry)) = [smallDatagram 4] := by
    decide +kernel
  rw [← sent]
  have fits : Sender.initMtu small 53 = .ok 25 := rfl
  exact (full_socket fits (by decide) session).mpr (by decide +kernel)

/-- A heartbeat is due on an empty queue, and the socket is full. -/
def smallHeartbeat : List (Event × Trace small) :=
  [smallConnects,
   (.mcast, [⟨.storageGetQueueHead, (0 : Nat)⟩, ⟨.clockTime, .ok 60⟩, ⟨.clockTime, .ok 60⟩,
      ⟨.sockSendto (netLong (-1) ++ netLong 60), .error .blocked⟩])]

/-- A heartbeat that finds the socket full ends the sender. -/
theorem blocked_heartbeat_fatal : ∃ runs : List (Ran small), Session smallSender runs ∧
    ∃ run ∈ runs, run.Blocks ∧ Status.Failed run.result.status := by
  refine ⟨played smallSender smallHeartbeat, session_played ?_, ?_⟩
  · decide +kernel
  · decide +kernel

end Lancaster
