import Lancaster.Storage

/-!
# The receiver

The event handlers of the receiver. Its storage has no other writer, so that a
handler runs as one step; the results of the calls it makes are its input. A
handler that fails ends `receiver_run`.

`acts` is a history variable: it lists the calls of `update_record` and
`request_gap` in order, and no code reads it.
-/

namespace Lancaster

open Bytes

inductive RecvAct (g : Geometry) where
  | update (seq id : Int) (val : Value g)
  | applied (seq : Int)
  | gap (range : SequenceRange)

structure Receiver (g : Geometry) where
  store : Storage g
  qCapacity : Nat
  recordSeqs : Int → Int
  nextSeq : Int
  inBuf : List UInt8
  inNext : Nat
  inRemain : Nat
  outBuf : List UInt8
  outNext : Nat
  outRemain : Nat
  mcastRecvTime : Int
  tcpRecvTime : Int
  wantsWrite : Bool
  tcpGapCount : Nat
  tcpBytesRecv : Nat
  mcastBytesRecv : Nat
  isStopping : Bool
  acts : List (RecvAct g)

namespace Receiver

variable {g : Geometry}

/-- The state `init` leaves once the publisher's attributes are known. -/
def init (store : Storage g) (qCapacity : Nat) (inBuf outBuf : List UInt8) (now : Int) :
    Receiver g where
  store := store
  qCapacity := qCapacity
  recordSeqs := fun _ => -1
  nextSeq := 0
  inBuf := inBuf
  inNext := 0
  inRemain := 8
  outBuf := outBuf
  outNext := 0
  outRemain := 0
  mcastRecvTime := now
  tcpRecvTime := now
  wantsWrite := false
  tcpGapCount := 0
  tcpBytesRecv := 0
  mcastBytesRecv := 0
  isStopping := false
  acts := []

/-- `update_record`; `lock` is the result of `record_write_lock`. -/
def updateRecord (r : Receiver g) (lock : Except Failure Unit) (seq id : Int) (val : Value g)
    (now : Int) : Int × Receiver g :=
  if g.Holds id then
    match lock with
    | .error st => (st.val, r)
    | .ok () =>
      let old := r.store.record id
      let r := { r with
        store := r.store.setRecord id ⟨nextRev old.rev, now, val⟩
        recordSeqs := fun i => if i = id - g.baseId then seq else r.recordSeqs i
        acts := r.acts ++ [.update seq id val] }
      if 0 < r.qCapacity then
        match r.store.storageWriteQueue r.qCapacity id with
        | .error st => (st.val, r)
        | .ok store => (Status.ok, { r with store := store })
      else (Status.ok, r)
  else (Status.invalidRecord, r)

/-- `request_gap`: whatever the out buffer still holds is overwritten. -/
def requestGap (r : Receiver g) (setEvent lockStats : Except Failure Unit) (low high : Int) :
    Int × Receiver g :=
  let r := { r with
    outBuf := stLong (stLong r.outBuf 0 (htonll low)) 8 (htonll high)
    outNext := 0
    outRemain := 16
    acts := r.acts ++ [.gap ⟨low, high⟩] }
  match setEvent with
  | .error st => (st.val, r)
  | .ok () =>
    let r := { r with wantsWrite := true }
    match lockStats with
    | .error st => (st.val, r)
    | .ok () => (Status.ok, { r with tcpGapCount := r.tcpGapCount + 1 })

/-- The results of the calls that `mcast_on_read` makes. `junk` is what the stack
buffer holds behind the datagram. -/
structure McastInput where
  dgram : Except Failure (List UInt8)
  junk : List UInt8
  clock : Except Failure Int
  sameSource : Bool
  lockRecvStats : Except Failure Unit
  latencyOnSample : Except Failure Unit
  lock : Int → Except Failure Unit
  setEvent : Except Failure Unit
  lockStats : Except Failure Unit

/-- The record loop of `mcast_on_read`, at offset `p`. -/
def applyRecords (lock : Int → Except Failure Unit) (seq : Int) (buf : List UInt8) (last : Nat)
    (now : Int) : Nat → Nat → Receiver g → Int × Receiver g
  | 0, _, r => (Status.ok, r)
  | fuel + 1, p, r =>
    if p < last then
      let id := ntohll (ldLong buf p)
      let (st, r) := updateRecord r (lock id) seq id (Value.load g buf (p + 8)) now
      if Status.Failed st then (st, r)
      else applyRecords lock seq buf last now fuel (p + (8 + g.valSize)) r
    else (Status.ok, r)

/-- Negation of a long wraps around. -/
def negLong (x : Int) : Int := if x = sequenceMin then x else -x

/-- The end of `mcast_on_read`: ask for what was skipped, then move on. -/
def advance (r : Receiver g) (inp : McastInput) (seq : Int) (isHb : Bool) : Int × Receiver g :=
  let (st, r) :=
    if r.nextSeq < seq then
      let (st, r') := requestGap r inp.setEvent inp.lockStats r.nextSeq seq
      if Status.Failed st then (st, r') else (Status.ok, { r' with nextSeq := seq })
    else (Status.ok, r)
  if Status.Failed st then (st, r)
  else (Status.ok, if isHb then r else { r with nextSeq := r.nextSeq + 1 })

def updateStats (r : Receiver g) (inp : McastInput) (pktSz : Nat) : Int × Receiver g :=
  match inp.lockRecvStats with
  | .error st => (st.val, r)
  | .ok () =>
    let r := { r with mcastBytesRecv := r.mcastBytesRecv + pktSz }
    match inp.latencyOnSample with
    | .error st => (st.val, r)
    | .ok () => (Status.ok, r)

/-- `mcast_on_read` once the datagram is known to come from the publisher. -/
def mcastOnPacket (r : Receiver g) (inp : McastInput) (data : List UInt8) (now : Int) :
    Int × Receiver g :=
  let buf := data ++ inp.junk
  let seq := ntohll (ldLong buf 0)
  if seq < 0 then advance r inp (negLong seq) true
  else if seq < r.nextSeq then (Status.ok, r)
  else
    let (st, r) := applyRecords inp.lock seq buf data.length now data.length 16 r
    if Status.Failed st then (st, r)
    else advance { r with acts := r.acts ++ [.applied seq] } inp seq false

/-- `sock_recvfrom`: an empty datagram reads as an end of file. -/
def sockRecvfrom : Except Failure (List UInt8) → Except Failure (List UInt8)
  | .error st => .error st
  | .ok data => if data = [] then .error .eof else .ok data

theorem sockRecvfrom_nonempty {data : List UInt8} (nonempty : data ≠ []) :
    sockRecvfrom (.ok data) = .ok data :=
  if_neg nonempty

def mcastOnRead (r : Receiver g) (inp : McastInput) : Int × Receiver g :=
  match sockRecvfrom inp.dgram, inp.clock with
  | .error st, _ => (st.val, r)
  | .ok _, .error st => (st.val, r)
  | .ok data, .ok now =>
    if data.length < 16 then (Status.protocolError, r)
    else if inp.sameSource = false then (Status.unexpectedSource, r)
    else
      let (st, r) := updateStats { r with mcastRecvTime := now } inp data.length
      if Status.Failed st then (st, r)
      else mcastOnPacket r inp data now

/-! ## TCP -/

/-- What successive reads of the TCP socket find: data, or a failure such as BLOCKED. -/
inductive Segment where
  | data (bytes : List UInt8)
  | fail (st : Failure)

def segmentBytes (segs : List Segment) : List UInt8 :=
  segs.flatMap fun
    | .data bytes => bytes
    | .fail _ => []

/-- `sock_read` of at most `n` bytes; with nothing at hand it is BLOCKED. -/
def sockRead : List Segment → Nat → Except Failure (List UInt8) × List Segment
  | [], _ => (.error .blocked, [])
  | .fail st :: rest, _ => (.error st, rest)
  | .data bytes :: rest, n =>
    if bytes.length ≤ n then (.ok bytes, rest)
    else (.ok (bytes.take n), .data (bytes.drop n) :: rest)

/-- The loop of `tcp_read_buf`; every round uses up a segment or fills the buffer. -/
def tcpReadLoop : Nat → Int → Nat → Receiver g → List Segment →
    Int × Nat × Receiver g × List Segment
  | 0, st, recvSz, r, segs => (st, recvSz, r, segs)
  | fuel + 1, st, recvSz, r, segs =>
    if r.inRemain = 0 then (st, recvSz, r, segs)
    else
      match sockRead segs r.inRemain with
      | (.error st, segs) => (st.val, recvSz, r, segs)
      | (.ok data, segs) =>
        tcpReadLoop fuel data.length (recvSz + data.length)
          { r with
            inBuf := poke r.inBuf r.inNext data
            inNext := r.inNext + data.length
            inRemain := r.inRemain - data.length } segs

structure TcpReadInput where
  segs : List Segment
  clock : Except Failure Int
  lockStats : Except Failure Unit
  clockUpdate : Except Failure Int
  lock : Int → Except Failure Unit

def tcpReadBuf (r : Receiver g) (inp : TcpReadInput) : Int × Receiver g × List Segment :=
  let (st, recvSz, r, segs) := tcpReadLoop (inp.segs.length + 1) Status.ok 0 r inp.segs
  if 0 < recvSz then
    match inp.clock with
    | .error st2 => (st2.val, r, segs)
    | .ok now =>
      let r := { r with tcpRecvTime := now }
      match inp.lockStats with
      | .error st2 => (st2.val, r, segs)
      | .ok () => (st, { r with tcpBytesRecv := r.tcpBytesRecv + recvSz }, segs)
  else (st, r, segs)

/-- What `tcp_on_read` does once the bytes it waited for are there: a header alone is
converted in place and, unless it is a whole frame, the body is awaited. -/
def tcpOnFrame (r : Receiver g) (inp : TcpReadInput) (st : Int) : Int × Receiver g :=
  if r.inNext = 8 then
    let seq := ntohll (ldLong r.inBuf 0)
    let r := { r with inBuf := stLong r.inBuf 0 seq }
    if seq = willQuitSeq then (st, { r with isStopping := true })
    else if seq = heartbeatSeq then (st, { r with inNext := 0, inRemain := 8 })
    else (Status.ok, { r with inRemain := 8 + g.valSize })
  else
    let id := ntohll (ldLong r.inBuf 8)
    let r := { r with inBuf := stLong r.inBuf 8 id }
    let seq := ldLong r.inBuf 0
    if r.recordSeqs (id - g.baseId) < seq then
      match inp.clockUpdate with
      | .error st => (st.val, r)
      | .ok now =>
        let (st, r) := updateRecord r (inp.lock id) seq id (Value.load g r.inBuf 16) now
        if Status.Failed st then (st, r) else (st, { r with inNext := 0, inRemain := 8 })
    else (st, { r with inNext := 0, inRemain := 8 })

def tcpOnRead (r : Receiver g) (inp : TcpReadInput) : Int × Receiver g × List Segment :=
  let (st, r, segs) := tcpReadBuf r inp
  if st ≠ Status.blocked ∧ Status.Failed st then (st, r, segs)
  else
    let st := if st = Status.blocked then Status.ok else st
    if r.inRemain = 0 then
      let (st, r) := tcpOnFrame r inp st
      (st, r, segs)
    else (st, r, segs)

/-- The loop of `tcp_write_buf` over the results of its writes, with the bytes that
went out. With no result left the socket is BLOCKED. -/
def tcpWriteBuf (r : Receiver g) : List (Except Failure Nat) → Int × Receiver g × List UInt8
  | [] => if r.outRemain = 0 then (Status.ok, r, []) else (Status.blocked, r, [])
  | .error st :: _ => if r.outRemain = 0 then (Status.ok, r, []) else (st.val, r, [])
  | .ok n :: rest =>
    if r.outRemain = 0 then (Status.ok, r, [])
    else
      let count := min n r.outRemain
      let data := peek r.outBuf r.outNext count
      let (st, r, more) := tcpWriteBuf { r with
        outNext := r.outNext + count
        outRemain := r.outRemain - count } rest
      (st, r, data ++ more)
  termination_by structural x => x

/-- `tcp_on_write`; `setEvent` is the result of `poller_set_event`. -/
def tcpOnWrite (r : Receiver g) (results : List (Except Failure Nat))
    (setEvent : Except Failure Unit) : Int × Receiver g × List UInt8 :=
  let (st, r, data) := tcpWriteBuf r results
  let st := if st = Status.blocked then Status.ok else st
  if r.outRemain = 0 then
    match setEvent with
    | .error st => (st.val, r, data)
    | .ok () => (Status.ok, { r with wantsWrite := false }, data)
  else (st, r, data)

/-- `event_func` for the TCP socket. It joins its two conditions with `&`: the socket is
read whether POLLIN is reported or not, and a failure to read counts only with POLLIN. -/
def eventFunc (r : Receiver g) (pollin pollout : Bool) (inp : TcpReadInput)
    (results : List (Except Failure Nat)) (setEvent : Except Failure Unit) :
    Int × Receiver g × List Segment × List UInt8 :=
  let (st, r, segs) := tcpOnRead r inp
  if pollin ∧ Status.Failed st then (st, r, segs, [])
  else if pollout then
    let (st, r, data) := tcpOnWrite r results setEvent
    (st, r, segs, data)
  else (st, r, segs, [])

end Receiver

end Lancaster
