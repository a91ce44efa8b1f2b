import Lancaster.Base.Interleaving
import Lancaster.Storage

/-!
# The sender

The event handlers of the sender, as tasks cut at every call that leaves the
sender's own memory: the clock, the locks of its statistics, the shared storage
and the sockets. Everything between two calls touches private memory only.

`recordCopy` stands for the copy loops around `record_read_lock`: what such a loop
accepts is one committed record (`VersionedLock`). Waiting on a held lock either
ends with the lock free or with a failure.
-/

namespace Lancaster

open Bytes Interleaving

/-- Library calls whose only effect on the modelled state is their status. -/
inductive LibCall where
  | sockAccept (c : Nat)
  | sockSetTcpNodelay (c : Nat)
  | signalAddHandler
  | writeHello (c : Nat)
  | signalRemoveHandler
  | sockDestroy (c : Nat)
  | xmalloc
  | sockSetNonblock (c : Nat)
  | pollerAdd (c : Nat)
  | pollerAddMcast
  | pollerRemove (c : Nat)
  | pollerRemoveMcast
  deriving DecidableEq

inductive Call where
  | clockTime
  | lockStats
  | latencyOnSample (delay : Int)
  | sockSendto (data : List UInt8)
  | storageGetQueueHead
  | storageReadQueue (idx : Nat)
  | recordReadLock (id : Int)
  | recordCopy (id : Int)
  | sockRead (c : Nat) (size : Nat)
  | sockWrite (c : Nat) (data : List UInt8)
  | lib (f : LibCall)
  deriving DecidableEq

abbrev Call.Ans (g : Geometry) : Call → Type
  | .clockTime => Except Failure Int
  | .lockStats => Except Failure Unit
  | .latencyOnSample _ => Except Failure Unit
  | .sockSendto _ => Except Failure Nat
  | .storageGetQueueHead => Nat
  | .storageReadQueue _ => Except Failure Int
  | .recordReadLock _ => Except Failure Int
  | .recordCopy _ => Except Failure (Record g)
  | .sockRead _ _ => Except Failure (List UInt8)
  | .sockWrite _ _ => Except Failure Nat
  | .lib _ => Except Failure Unit

structure SenderStats where
  tcpGapCount : Nat
  tcpBytesSent : Nat
  mcastBytesSent : Nat
  mcastPacketsSent : Nat

structure TcpClient where
  inBuf : List UInt8
  inNext : Nat
  inRemain : Nat
  outBuf : List UInt8
  outNext : Nat
  outRemain : Nat
  tcpSendTime : Int
  unionRange : SequenceRange
  replyRange : SequenceRange
  replyId : Int
  minSeqFound : Int

/-- The bytes of the out buffer that are still to be written. -/
def TcpClient.pending (clnt : TcpClient) : List UInt8 :=
  peek clnt.outBuf clnt.outNext clnt.outRemain

/-- The range a full in buffer holds, after its two longs are converted. -/
def TcpClient.inRange (clnt : TcpClient) : SequenceRange :=
  ⟨ntohll (ldLong clnt.inBuf 0), ntohll (ldLong clnt.inBuf 8)⟩

/-- `recordRevs` and `recordSeqs` are indexed by `id - base_id`, and `pktNext` is
the offset of `pkt_next` from `pkt_buf`. `lastStaged` is a history variable: the value
each record was last staged with. -/
structure Sender (g : Geometry) where
  clientCount : Nat
  recordRevs : Int → Int
  recordSeqs : Int → Int
  nextSeq : Int
  minSeq : Int
  ignoreOverrun : Bool
  mcastInsertTime : Int
  mcastSendTime : Int
  lastActiveTime : Int
  heartbeatUsec : Int
  maxPktAgeUsec : Int
  mcastMtu : Nat
  pktBuf : List UInt8
  pktNext : Nat
  lastQIdx : Nat
  nextStats : SenderStats
  clients : Nat → Option TcpClient
  lastStaged : Int → Option (Value g)

abbrev SenderTask (g : Geometry) (β : Type) := Task (Sender g) Call (Call.Ans g) β

namespace Sender

variable {g : Geometry}

def setClient (s : Sender g) (c : Nat) (clnt : TcpClient) : Sender g :=
  { s with clients := fun i => if i = c then some clnt else s.clients i }

def dropClient (s : Sender g) (c : Nat) : Sender g :=
  { s with clients := fun i => if i = c then none else s.clients i }

def packet (s : Sender g) : List UInt8 := s.pktBuf.take s.pktNext

def sizeSub (a b : Nat) : Nat := (a + 18446744073709551616 - b) % 18446744073709551616

/-- The part of `init` that fixes the packet size. -/
def initMtu (g : Geometry) (ifaceMtu : Nat) : Except Failure Nat :=
  let mtu := sizeSub ifaceMtu (20 + 8)
  if mtu < (8 + 8 + 8 + g.valSize) % 18446744073709551616 then
    .error ⟨Status.mtuTooSmall, by decide⟩
  else .ok mtu

/-- A packet size that `init` accepts. -/
theorem initMtu_ok {ifaceMtu mtu : Nat} (created : initMtu g ifaceMtu = .ok mtu) :
    24 + g.valSize ≤ mtu ∧ mtu < 18446744073709551616 := by
  have valSize := g.valSize_lt
  simp only [initMtu] at created
  split at created
  · cases created
  · have eq := Except.ok.inj created
    have size : sizeSub ifaceMtu (20 + 8) < 18446744073709551616 := by
      unfold sizeSub
      omega
    omega

/-- The state `init` leaves; `buf` is what the allocated packet buffer happens to hold. -/
def init (mtu : Nat) (buf : List UInt8) (ignoreOverrun : Bool)
    (heartbeatUsec maxPktAgeUsec now : Int) : Sender g where
  clientCount := 0
  recordRevs := fun _ => -1
  recordSeqs := fun _ => 0
  nextSeq := 1
  minSeq := 0
  ignoreOverrun := ignoreOverrun
  mcastInsertTime := 0
  mcastSendTime := 0
  lastActiveTime := now
  heartbeatUsec := heartbeatUsec
  maxPktAgeUsec := maxPktAgeUsec
  mcastMtu := mtu
  pktBuf := buf
  pktNext := 0
  lastQIdx := 0
  nextStats := ⟨0, 0, 0, 0⟩
  clients := fun _ => none
  lastStaged := fun _ => none

/-! ## Multicast -/

def mcastSendPkt (s : Sender g) : SenderTask g (Int × Sender g) :=
  .call s .clockTime fun
    | .error st => .done (st.val, s)
    | .ok now =>
      let s := { s with pktBuf := stLong s.pktBuf 8 (htonll now) }
      .call s (.sockSendto s.packet) fun
        | .error st2 => .done (st2.val, s)
        | .ok count =>
          let s := { s with lastActiveTime := now, mcastSendTime := now }
          let seq := ntohll (ldLong s.pktBuf 0)
          let s := if 0 ≤ seq then { s with nextSeq := s.nextSeq + 1 } else s
          if 0 ≤ seq ∧ s.nextSeq = sequenceMax then .done (Status.sequenceOverflow, s)
          else
            let s := { s with pktNext := 0, mcastInsertTime := 0 }
            .call s .lockStats fun
              | .error st => .done (st.val, s)
              | .ok () => .done (Status.ok, { s with nextStats := { s.nextStats with
                  mcastBytesSent := s.nextStats.mcastBytesSent + count
                  mcastPacketsSent := s.nextStats.mcastPacketsSent + 1 } })

/-- The header of an empty packet, then the identifier of the next record. -/
def stageId (s : Sender g) (id : Int) (usedSz : Nat) : Sender g :=
  let s := if usedSz = 0 then
      { s with pktBuf := stLong s.pktBuf 0 (htonll s.nextSeq), pktNext := s.pktNext + 16 }
    else s
  { s with pktBuf := stLong s.pktBuf s.pktNext (htonll id), pktNext := s.pktNext + 8 }

/-- The value behind the identifier, and what the sender remembers of it. -/
def stageValue (s : Sender g) (id : Int) (r : Record g) : Sender g :=
  { s with
    pktBuf := poke s.pktBuf s.pktNext r.val.toList
    pktNext := s.pktNext + g.valSize
    recordRevs := fun i => if i = id - g.baseId then r.rev else s.recordRevs i
    recordSeqs := fun i => if i = id - g.baseId then s.nextSeq else s.recordSeqs i
    lastStaged := fun i => if i = id then some r.val else s.lastStaged i }

/-- `mcast_accum_record` from the point where the packet has room. -/
def mcastStageRecord (s : Sender g) (id : Int) (usedSz : Nat) (sentPkt : Int) :
    SenderTask g (Int × Sender g) :=
  let s := s.stageId id usedSz
  .call s (.recordCopy id) fun
    | .error st => .done (st.val, s)
    | .ok r =>
      let s := s.stageValue id r
      .call s .clockTime fun
        | .error st => .done (st.val, s)
        | .ok now =>
          let s := { s with mcastInsertTime := now }
          .call s (.latencyOnSample (now - r.ts)) fun
            | .error st => .done (st.val, s)
            | .ok () => .done (sentPkt, s)

def mcastAccumRecord (s : Sender g) (id : Int) : SenderTask g (Int × Sender g) :=
  if g.Holds id then
    .call s (.recordReadLock id) fun
      | .error st => .done (st.val, s)
      | .ok rev =>
        if rev = s.recordRevs (id - g.baseId) then .done (Status.ok, s)
        else
          let usedSz := s.pktNext
          let availSz := sizeSub s.mcastMtu usedSz
          if availSz < 8 + g.valSize then
            (mcastSendPkt s).bind fun (st, s) =>
              if Status.Failed st then .done (st, s) else mcastStageRecord s id 0 1
          else mcastStageRecord s id usedSz 0
  else .done (Status.invalidRecord, s)

def mcastOnEmptyQueue (s : Sender g) : SenderTask g (Int × Sender g) :=
  .call s .clockTime fun
    | .error st => .done (st.val, s)
    | .ok now =>
      if s.mcastInsertTime ≠ 0 ∧ s.maxPktAgeUsec ≤ now - s.mcastInsertTime then mcastSendPkt s
      else if s.heartbeatUsec ≤ now - s.mcastSendTime then
        mcastSendPkt (if s.pktNext = 0 then
            { s with pktBuf := stLong s.pktBuf 0 (htonll (-s.nextSeq)), pktNext := s.pktNext + 16 }
          else s)
      else .done (Status.ok, s)

/-- The queue loop, `n` positions before its end; `qi` is the position it looks at. -/
def mcastScanQueue (s : Sender g) : Nat → Nat → SenderTask g (Int × Sender g × Nat)
  | 0, qi => .done (Status.ok, s, qi)
  | n + 1, qi =>
    .call s (.storageReadQueue qi) fun
      | .error st => .done (st.val, s, qi)
      | .ok id =>
        (mcastAccumRecord s id).bind fun (st, s) =>
          if st ≠ 0 then .done (st, s, qi) else mcastScanQueue s n (qi + 1)

def mcastOnWrite (s : Sender g) : SenderTask g (Int × Sender g) :=
  .call s .storageGetQueueHead fun (newQIdx : Nat) =>
    let qi : Int := newQIdx - s.lastQIdx
    let s := if qi < 0 then { s with lastQIdx := newQIdx } else s
    if qi ≤ 0 then mcastOnEmptyQueue s
    else if (g.qCapacity : Int) < qi ∧ s.ignoreOverrun = false then
      .done (Status.changeQueueOverrun, s)
    else
      let s := if (g.qCapacity : Int) < qi then
          { s with lastQIdx := (qi - g.qCapacity).toNat } else s
      (mcastScanQueue s (newQIdx - s.lastQIdx) s.lastQIdx).bind fun (st, s, qi) =>
        .done (if st = Status.blocked then Status.ok else st, { s with lastQIdx := qi })

/-! ## TCP buffers -/

/-- `tcp_read_buf`. A read that does not fail returns at least one byte, so that the
loop ends within `in_remain` rounds. -/
def tcpReadBuf (s : Sender g) (c : Nat) : Nat → Int → TcpClient → SenderTask g (Int × TcpClient)
  | 0, st, clnt => .done (st, clnt)
  | fuel + 1, st, clnt =>
    if clnt.inRemain = 0 then .done (st, clnt)
    else .call (s.setClient c clnt) (.sockRead c clnt.inRemain) fun
      | .error st => .done (st.val, clnt)
      | .ok data => tcpReadBuf s c fuel data.length { clnt with
          inBuf := poke clnt.inBuf clnt.inNext data
          inNext := clnt.inNext + data.length
          inRemain := clnt.inRemain - data.length }

/-- The loop of `tcp_write_buf`; a write that does not fail takes at least one byte. -/
def tcpWriteLoop (s : Sender g) (c : Nat) :
    Nat → Int → Nat → TcpClient → SenderTask g (Int × Nat × TcpClient)
  | 0, st, sentSz, clnt => .done (st, sentSz, clnt)
  | fuel + 1, st, sentSz, clnt =>
    if clnt.outRemain = 0 then .done (st, sentSz, clnt)
    else .call (s.setClient c clnt) (.sockWrite c clnt.pending) fun
      | .error st => .done (st.val, sentSz, clnt)
      | .ok count => tcpWriteLoop s c fuel count (sentSz + count) { clnt with
          outNext := clnt.outNext + count
          outRemain := clnt.outRemain - count }

def tcpWriteBuf (s : Sender g) (c : Nat) (clnt : TcpClient) :
    SenderTask g (Int × Sender g × TcpClient) :=
  (tcpWriteLoop s c clnt.outRemain Status.ok 0 clnt).bind fun (st, sentSz, clnt) =>
    if 0 < sentSz then
      .call (s.setClient c clnt) .clockTime fun
        | .error st2 => .done (st2.val, s, clnt)
        | .ok now =>
          let clnt := { clnt with tcpSendTime := now }
          .call (s.setClient c clnt) .lockStats fun
            | .error st2 => .done (st2.val, s, clnt)
            | .ok () => .done (st, { s with
                lastActiveTime := now
                nextStats := { s.nextStats with
                  tcpBytesSent := s.nextStats.tcpBytesSent + sentSz } }, clnt)
    else .done (st, s, clnt)

/-! ## Connections -/

def newClient (inBuf outBuf : List UInt8) (now : Int) : TcpClient where
  inBuf := inBuf
  inNext := 0
  inRemain := 16
  outBuf := outBuf
  outNext := 0
  outRemain := 0
  tcpSendTime := now
  unionRange := .invalid
  replyRange := ⟨0, 0⟩
  replyId := 0
  minSeqFound := 0

/-- A sequence of library calls, up to the first that fails. -/
def libCalls (s : Sender g) : List LibCall → SenderTask g Int
  | [] => .done Status.ok
  | f :: rest => .call s (.lib f) fun
    | .error st => .done st.val
    | .ok () => libCalls s rest

/-- `SIG_ERROR_BASE - SIGALRM`. -/
def sigAlrmError : Int := -128 - 14

/-- `tcp_on_accept`; `inBuf` and `outBuf` are what the allocated buffers hold. -/
def tcpOnAccept (s : Sender g) (c : Nat) (inBuf outBuf : List UInt8) :
    SenderTask g (Int × Sender g) :=
  (libCalls s [.sockAccept c, .sockSetTcpNodelay c, .signalAddHandler]).bind fun st =>
  if Status.Failed st then .done (st, s) else
  (libCalls s [.writeHello c]).bind fun st =>
  (libCalls s [.signalRemoveHandler]).bind fun st2 =>
  let st := if Status.Failed st2 ∧ ¬ Status.Failed st then st2 else st
  if Status.Failed st then
    (libCalls s [.sockDestroy c]).bind fun _ =>
      .done (if st = sigAlrmError then Status.protocolTimeout else st, s)
  else
  -- the client record, its in buffer and its out buffer
  (libCalls s [.xmalloc, .xmalloc, .xmalloc]).bind fun st =>
  if Status.Failed st then
    (libCalls s [.sockDestroy c]).bind fun _ => .done (Status.noMemory, s)
  else
  .call s .clockTime fun
    | .error st => .done (st.val, s)
    | .ok now =>
      let s := s.setClient c (newClient inBuf outBuf now)
      (libCalls s [.sockSetNonblock c, .pollerAdd c]).bind fun st =>
      if Status.Failed st then .done (st, s) else
      let s := { s with lastActiveTime := now, clientCount := s.clientCount + 1 }
      if s.clientCount = 1 then
        (libCalls s [.pollerAddMcast]).bind fun st =>
        if Status.Failed st then .done (st, s) else
        .call s .clockTime fun
          | .error st => .done (st.val, s)
          | .ok now =>
            let s := { s with mcastSendTime := now }
            .call s .storageGetQueueHead fun (head : Nat) =>
              .done (Status.ok, { s with lastQIdx := head })
      else .done (Status.ok, s)

def tcpOnHup (s : Sender g) (c : Nat) : SenderTask g (Int × Sender g) :=
  let s := s.dropClient c
  (libCalls s [.pollerRemove c, .sockDestroy c]).bind fun st =>
  if Status.Failed st then .done (st, s) else
  let s := { s with clientCount := s.clientCount - 1 }
  if s.clientCount = 0 then
    (libCalls s [.pollerRemoveMcast]).bind fun st => .done (st, s)
  else .done (st, s)

/-- `tcp_will_quit_func`; it retries on BLOCKED without end, and `rounds` bounds how
much of that the run sees. -/
def tcpWillQuitLoop (c : Nat) : Nat → Sender g → TcpClient → SenderTask g (Int × Sender g)
  | 0, s, clnt => .done (Status.blocked, s.setClient c clnt)
  | rounds + 1, s, clnt =>
    (tcpWriteBuf s c clnt).bind fun (st, s, clnt) =>
      if st ≠ Status.blocked ∧ Status.Failed st then .done (st, s.setClient c clnt)
      else if 0 < clnt.outRemain then tcpWillQuitLoop c rounds s clnt
      else .done (st, s.setClient c clnt)

def tcpWillQuitFunc (s : Sender g) (c : Nat) (rounds : Nat) : SenderTask g (Int × Sender g) :=
  match s.clients c with
  | none => .done (Status.ok, s)
  | some clnt => tcpWillQuitLoop c rounds s { clnt with
      outBuf := stLong clnt.outBuf 0 (htonll willQuitSeq)
      outNext := 0
      outRemain := 8 }

/-! ## Gap requests and replies -/

/-- Size of a record frame: sequence, identifier and value. -/
def pktSize (g : Geometry) : Nat := 8 + 8 + g.valSize

/-- The reply scan, `n` records before its end. -/
def tcpScanRecords (s : Sender g) (c : Nat) :
    Nat → Int → TcpClient → SenderTask g (Int × Sender g)
  | 0, st, clnt => .done (st, { s with minSeq := clnt.minSeqFound }.setClient c
      { clnt with replyRange := .invalid })
  | n + 1, st, clnt =>
    let seq := s.recordSeqs (clnt.replyId - g.baseId)
    let clnt := { clnt with
      minSeqFound := if seq < clnt.minSeqFound then seq else clnt.minSeqFound }
    if clnt.replyRange.IsWithin seq then
      if g.Holds clnt.replyId then
        .call (s.setClient c clnt) (.recordCopy clnt.replyId) fun
          | .error st => .done (st.val, s.setClient c clnt)
          | .ok r =>
            -- a record that is not in use is passed over
            if r.rev = 0 then
              tcpScanRecords s c n Status.ok { clnt with replyId := clnt.replyId + 1 }
            else .done (Status.ok, s.setClient c { clnt with
              outBuf := stLong (stLong (poke clnt.outBuf 16 r.val.toList) 0 (htonll seq)) 8
                (htonll clnt.replyId)
              outNext := 0
              outRemain := pktSize g
              replyId := clnt.replyId + 1 })
      else .done (Status.invalidRecord, s.setClient c clnt)
    else tcpScanRecords s c n st { clnt with replyId := clnt.replyId + 1 }

def tcpOnWrite (s : Sender g) (c : Nat) (clnt : TcpClient) : SenderTask g (Int × Sender g) :=
  (tcpWriteBuf s c clnt).bind fun (st, s, clnt) =>
    if st ≠ Status.blocked ∧ Status.Failed st then .done (st, s.setClient c clnt)
    else
      let st := if st = Status.blocked then Status.ok else st
      if clnt.outRemain = 0 then
        if clnt.replyRange.IsValid then
          tcpScanRecords s c (g.maxId - clnt.replyId).toNat st clnt
        else
          .call (s.setClient c clnt) .clockTime fun
            | .error st => .done (st.val, s.setClient c clnt)
            | .ok now =>
              if s.heartbeatUsec ≤ now - clnt.tcpSendTime then
                .done (Status.ok, s.setClient c { clnt with
                  outBuf := stLong clnt.outBuf 0 (htonll heartbeatSeq)
                  outNext := 0
                  outRemain := 8 })
              else .done (Status.ok, s.setClient c clnt)
      else .done (st, s.setClient c clnt)

def tcpOnReadBlocked (s : Sender g) (clnt : TcpClient) : TcpClient :=
  if clnt.inNext = 0 then
    if clnt.unionRange.high ≤ s.minSeq then { clnt with unionRange := .invalid }
    else if ¬ clnt.replyRange.IsValid then
      { clnt with
        replyRange := clnt.unionRange
        unionRange := .invalid
        replyId := g.baseId
        minSeqFound := sequenceMax }
    else clnt
  else clnt

def tcpOnRead (s : Sender g) (c : Nat) (clnt : TcpClient) : SenderTask g (Int × Sender g) :=
  (tcpReadBuf s c clnt.inRemain Status.ok clnt).bind fun (st, clnt) =>
    if st ≠ Status.blocked ∧ Status.Failed st then .done (st, s.setClient c clnt)
    else
      let st := if st = Status.blocked then Status.ok else st
      if clnt.inRemain = 0 then
        let r := clnt.inRange
        let clnt := { clnt with inBuf := stLong (stLong clnt.inBuf 0 r.low) 8 r.high }
        if r.IsValid then
          let clnt := { clnt with
            unionRange := clnt.unionRange.hull r
            inNext := 0
            inRemain := 16 }
          .call (s.setClient c clnt) .lockStats fun
            | .error st => .done (st.val, s.setClient c clnt)
            | .ok () => .done (Status.ok, { s with nextStats := { s.nextStats with
                tcpGapCount := s.nextStats.tcpGapCount + 1 } }.setClient c clnt)
        else .done (Status.protocolError, s.setClient c clnt)
      else .done (st, s.setClient c clnt)

/-! ## Events -/

structure Revents where
  hup : Bool
  pollin : Bool
  pollout : Bool

/-- The reading half of `event_func` for a client socket. -/
def clientRead (s : Sender g) (c : Nat) (clnt : TcpClient) (pollin : Bool) :
    SenderTask g (Int × Sender g) :=
  if pollin then tcpOnRead s c clnt
  else .done (Status.ok, s.setClient c (tcpOnReadBlocked s clnt))

/-- The writing half, for a client whose reading did not fail. -/
def clientWrite (s : Sender g) (c : Nat) (st : Int) (pollout : Bool) :
    SenderTask g (Int × Sender g) :=
  match s.clients c with
  | none => .done (st, s)
  | some clnt =>
    if ¬ Status.Failed st ∧ pollout then tcpOnWrite s c clnt else .done (st, s)

/-- `event_func` for a client socket. -/
def clientEvent (s : Sender g) (c : Nat) (rev : Revents) : SenderTask g (Int × Sender g) :=
  match s.clients c with
  | none => .done (Status.ok, s)
  | some clnt =>
    if rev.hup then tcpOnHup s c
    else
      (clientRead s c clnt rev.pollin).bind fun (st, s) =>
      (clientWrite s c st rev.pollout).bind fun (st, s) =>
      if Status.Failed st then tcpOnHup s c else .done (st, s)

/-- The shutdown of `sender_run`: every client is told, until one write fails. -/
def willQuit (rounds : Nat) : List Nat → Int → Sender g → SenderTask g (Int × Sender g)
  | [], st, s => .done (st, s)
  | c :: rest, _, s =>
    (tcpWillQuitFunc s c rounds).bind fun (st, s) =>
      if Status.Failed st then .done (st, s) else willQuit rounds rest st s

inductive Event where
  | accept (c : Nat) (inBuf outBuf : List UInt8)
  | mcast
  | client (c : Nat) (rev : Revents)
  | quit (order : List Nat) (rounds : Nat)

/-- What a handler leaves: its status, the sender, and whether the sender has quit. -/
structure Turn (g : Geometry) where
  status : Int
  sndr : Sender g
  hasQuit : Bool

def turn (quit : Bool) (r : Int × Sender g) : Turn g := ⟨r.1, r.2, quit⟩

/-- `event_func`, and the end of `sender_run` for `quit`. -/
def handle (s : Sender g) : Event → SenderTask g (Turn g)
  | .accept c inBuf outBuf =>
    (tcpOnAccept s c inBuf outBuf).bind fun r => .done (turn false r)
  | .mcast => (mcastOnWrite s).bind fun r => .done (turn false r)
  | .client c rev => (clientEvent s c rev).bind fun r => .done (turn false r)
  | .quit order rounds => (willQuit rounds order Status.ok s).bind fun r => .done (turn true r)

end Sender

def smallSender : Sender small := Sender.init 25 (List.replicate 25 0) false 50 10 0

end Lancaster
