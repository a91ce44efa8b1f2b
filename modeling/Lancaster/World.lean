import Lancaster.Sender
import Lancaster.Receiver

/-!
# The world around the sender

The shared storage, the process that writes it, the datagrams handed to the
network and both directions of every TCP connection. `commits`, `log`, `wire`, `sent`,
`recd`, `accepted` and `up` only grow: they are the histories the results speak of.

An environment says what the others can do. In `openEnv` they can do anything: commit
any record, hold any lock, put anything in the queue and send any bytes.
-/

namespace Lancaster

open Bytes Interleaving Sender

variable {g : Geometry}

inductive Writer (g : Geometry) where
  | idle
  | locked (id : Int) (r : Record g)
  | unlocked (id : Int)
  | slotted (id : Int)

/-- The far end of a connection: the receiver, the bytes it has written to the
connection, how many of the sender's bytes it has read, and whether a failure has ended
it. -/
structure Peer (g : Geometry) where
  recv : Receiver g
  up : List UInt8
  got : Nat
  ended : Bool

def Peer.init (r : Receiver g) : Peer g := ⟨r, [], 0, false⟩

structure World (g : Geometry) where
  store : Storage g
  commits : Int → List (Record g)
  log : Nat → Int
  writer : Writer g
  wire : List (List UInt8)
  sent : Nat → List UInt8
  recd : Nat → List UInt8
  accepted : Nat → Bool
  peers : Nat → Peer g

namespace World

/-- The world before the sender's first event, with one receiver for each connection
that there may be. -/
def start (store : Storage g) (peers : Nat → Peer g) : World g where
  store := store
  commits := fun id => [store.record id]
  log := fun q => store.changeQ (Storage.slot g.qCapacity q)
  writer := .idle
  wire := []
  sent := fun _ => []
  recd := fun _ => []
  accepted := fun _ => false
  peers := peers

/-- The same where nothing depends on the receivers. -/
abbrev init (store : Storage g) : World g :=
  start store fun _ => .init (Receiver.init store 0 [] [] 0)

def setPeer (w : World g) (c : Nat) (p : Peer g) : World g :=
  { w with peers := fun i => if i = c then p else w.peers i }

def commit (w : World g) (id : Int) (r : Record g) : World g :=
  { w with
    store := w.store.setRecord id r
    commits := fun i => if i = id then w.commits i ++ [r] else w.commits i }

def read (w : World g) (c : Nat) (data : List UInt8) : World g :=
  { w with recd := fun i => if i = c then w.recd i ++ data else w.recd i }

/-- A call that failed changes nothing. Only sockets are ever BLOCKED: every other
failure is an error number, a signal, or a status of its own. -/
def failed (st : Failure) (w : World g) : Option (World g) :=
  if st.val = Status.blocked then none else some w

/-- The answers a call can get. Nothing is asked of the clock or of what a client
sends; what is read of the storage is what it holds. A socket that is accepted is a
new one. -/
def reply : (c : Call) → c.Ans g → World g → Option (World g)
  | .clockTime, .error st, w => failed st w
  | .clockTime, .ok _, w => some w
  | .lockStats, .error st, w => failed st w
  | .lockStats, .ok (), w => some w
  | .latencyOnSample _, .error st, w => failed st w
  | .latencyOnSample _, .ok (), w => some w
  | .sockSendto _, .error _, w => some w
  | .sockSendto data, .ok _, w => some { w with wire := w.wire ++ [data] }
  | .storageGetQueueHead, (head : Nat), w => if head = w.store.qHead then some w else none
  | .storageReadQueue q, ans, w =>
    match ans, w.store.storageReadQueue g.qCapacity q with
    | .error st, .error st' => if st = st' then some w else none
    | .ok id, .ok id' => if id = id' then some w else none
    | _, _ => none
  | .recordReadLock _, .error st, w => failed st w
  | .recordReadLock id, .ok rev, w =>
    if 0 ≤ rev ∧ rev = (w.store.record id).rev then some w else none
  | .recordCopy _, .error st, w => failed st w
  | .recordCopy id, .ok r, w => if 0 ≤ r.rev ∧ r = w.store.record id then some w else none
  | .sockRead _ _, .error _, w => some w
  | .sockRead c n, .ok data, w =>
    if 0 < data.length ∧ data.length ≤ n then some (w.read c data) else none
  | .sockWrite _ _, .error _, w => some w
  | .sockWrite c data, .ok count, w =>
    if 0 < count ∧ count ≤ data.length then
      some { w with sent := fun i => if i = c then w.sent i ++ data.take count else w.sent i }
    else none
  | .lib (.sockAccept c), .ok (), w =>
    if w.accepted c then none
    else some { w with accepted := fun i => if i = c then true else w.accepted i }
  | .lib _, .ok (), w => some w
  | .lib _, .error _, w => some w

end World

/-- What the others can do: their moves, the answers they allow a call to get, and
the events they allow the poller to report. -/
structure Env (g : Geometry) where
  Move : Type
  move : Move → World g → Option (World g)
  admits : (c : Call) → c.Ans g → World g → Bool
  allows : Event → Sender g → World g → Bool

def isQuit : Event → Bool
  | .quit _ _ => true
  | _ => false

/-- The buffers that an accepted client is given have the sizes that are allocated. -/
def sizedEvent (g : Geometry) : Event → Bool
  | .accept _ inBuf outBuf => inBuf.length = 16 ∧ outBuf.length = pktSize g
  | _ => true

abbrev SenderHost (g : Geometry) := Host (Sender g) Call (Call.Ans g) (Turn g) (World g)

/-- The sender in its environment. It starts no handler after it has quit, and after a
failing handler only the shutdown. -/
def Env.host (E : Env g) : SenderHost g where
  Move := E.Move
  move := E.move
  reply := fun c a w => if E.admits c a w then World.reply c a w else none
  Event := Event
  start := fun e a w =>
    if a.hasQuit ∨ (Status.Failed a.status ∧ isQuit e = false) then none
    else if sizedEvent g e ∧ E.allows e a.sndr w then some (a.sndr.handle e) else none
  out := Turn.sndr

def Env.idleConf (E : Env g) (s : Sender g) (w : World g) : Conf E.host :=
  ⟨none, .done ⟨Status.ok, s, false⟩, w⟩

/-- What others can do to the storage when nothing is known of them. -/
inductive OpenMove (g : Geometry) where
  | commit (id : Int) (r : Record g)
  | hold (id : Int) (r : Record g)
  | queue (head : Nat) (changeQ : Nat → Int)

def World.openMove : OpenMove g → World g → Option (World g)
  | .commit id r, w => if 0 ≤ r.rev then some (w.commit id r) else none
  | .hold id r, w => if r.rev < 0 then some { w with store := w.store.setRecord id r } else none
  | .queue head q, w => some { w with store := { w.store with qHead := head, changeQ := q } }

/-- The sender among unknown others; any event may come at any time. -/
def openEnv (g : Geometry) : Env g where
  Move := OpenMove g
  move := World.openMove
  admits := fun _ _ _ => true
  allows := fun _ _ _ => true

/-! ## A small session -/

/-- Client `c` connects as the first one, with the queue at `head`. -/
def acceptFirst (E : Env small) (c head : Nat) : List (Choice E.host) :=
  [.start (Event.accept c (List.replicate 16 0) (List.replicate 17 0)),
   .reply (.lib (.sockAccept c)) (.ok ()), .reply (.lib (.sockSetTcpNodelay c)) (.ok ()),
   .reply (.lib .signalAddHandler) (.ok ()), .reply (.lib (.writeHello c)) (.ok ()),
   .reply (.lib .signalRemoveHandler) (.ok ()), .reply (.lib .xmalloc) (.ok ()),
   .reply (.lib .xmalloc) (.ok ()), .reply (.lib .xmalloc) (.ok ()),
   .reply .clockTime (.ok (0 : Int)), .reply (.lib (.sockSetNonblock c)) (.ok ()),
   .reply (.lib (.pollerAdd c)) (.ok ()), .reply (.lib .pollerAddMcast) (.ok ()),
   .reply .clockTime (.ok (0 : Int)), .reply .storageGetQueueHead head]

def askGap (E : Env small) (high : Int) : List (Choice E.host) :=
  [.start (Event.client 0 ⟨false, true, false⟩),
   .reply (.sockRead 0 16) (.ok (netLong 0 ++ netLong high)), .reply .lockStats (.ok ())]

end Lancaster
