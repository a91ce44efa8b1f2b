import Lancaster.ChangeQueue

/-!
# The sender, its writer and its receivers

The multicast network may lose, repeat and reorder datagrams: a receiver handles any
datagram that was ever sent, as often as it likes. A connection hands on the bytes of
either side in order. A receiver handles a datagram only when its last gap request is
written. It ends with the first event that fails.

A TCP event of the receiver reads whether POLLIN is reported or not, but a failure to read
counts only with POLLIN. While a frame is applied the clock and the lock of the record may fail
with POLLIN, and this ends the receiver.
-/

namespace Lancaster

open Interleaving Sender
open Receiver (McastInput Segment segmentBytes)

variable {g : Geometry}

inductive NetMove (g : Geometry) where
  | writer (m : WriterMove g)
  | datagram (c : Nat) (inp : McastInput)
  | tcp (c : Nat) (pollin pollout : Bool) (segs : List Segment) (clock : Except Failure Int)
      (lockStats : Except Failure Unit) (clockUpdate : Except Failure Int)
      (lock : Except Failure Unit) (results : List (Except Failure Nat))
      (setEvent : Except Failure Unit)

/-- A datagram that comes from the publisher was sent. -/
def World.carries (w : World g) (inp : McastInput) : Bool :=
  match inp.dgram with
  | .ok data => !inp.sameSource || w.wire.contains data
  | .error _ => true

def World.netMove : NetMove g → World g → Option (World g)
  | .writer m, w => w.writerMove m
  | .datagram c inp, w =>
    let p := w.peers c
    if w.accepted c ∧ p.ended = false ∧ p.recv.outRemain = 0 ∧ w.carries inp then
      let (st, r) := p.recv.mcastOnRead inp
      some (w.setPeer c { p with recv := r, ended := decide (Status.Failed st) })
    else none
  | .tcp c pollin pollout segs clock lockStats clockUpdate lock results setEvent, w =>
    let p := w.peers c
    if w.accepted c ∧ p.ended = false ∧ segmentBytes segs <+: (w.sent c).drop p.got ∧
        (pollin ∨ clockUpdate.isOk ∧ lock.isOk) then
      let (st, r, rest, data) := p.recv.eventFunc pollin pollout
        ⟨segs, clock, lockStats, clockUpdate, fun _ => lock⟩ results setEvent
      some (w.setPeer c {
        recv := r
        up := p.up ++ data
        got := p.got + ((segmentBytes segs).length - (segmentBytes rest).length)
        ended := decide (Status.Failed st) })
    else none

/-- The sender beside one writer and its receivers. It is not told to stop, and the
multicast socket is only polled while there are clients. -/
def netEnv (g : Geometry) : Env g where
  Move := NetMove g
  move := World.netMove
  admits := fun
    | .sockRead c _, .ok data, w => (w.recd c ++ data).isPrefixOf (w.peers c).up
    | _, _, _ => true
  allows := fun e s _ =>
    match e with
    | .mcast => decide (0 < s.clientCount)
    | .quit _ _ => false
    | _ => true

def Peer.heard (p : Peer g) (inp : McastInput) : Peer g :=
  { p with
    recv := (p.recv.mcastOnRead inp).2
    ended := decide (Status.Failed (p.recv.mcastOnRead inp).1) }

inductive PeerStep (w : World g) (c : Nat) : Peer g → Prop where
  | datagram (inp : McastInput) (free : (w.peers c).recv.outRemain = 0)
      (carried : w.carries inp) : PeerStep w c ((w.peers c).heard inp)
  | tcp (pollin pollout : Bool) (segs : List Segment) (clock : Except Failure Int)
      (lockStats : Except Failure Unit) (clockUpdate : Except Failure Int)
      (lock : Except Failure Unit) (results : List (Except Failure Nat))
      (setEvent : Except Failure Unit)
      (next : segmentBytes segs <+: (w.sent c).drop (w.peers c).got)
      (able : pollin ∨ clockUpdate.isOk ∧ lock.isOk)
      {st : Int} {r : Receiver g} {rest : List Segment} {data : List UInt8}
      (event : (w.peers c).recv.eventFunc pollin pollout
        ⟨segs, clock, lockStats, clockUpdate,
          fun _ => lock⟩ results setEvent = (st, r, rest, data)) :
      PeerStep w c {
        recv := r
        up := (w.peers c).up ++ data
        got := (w.peers c).got + ((segmentBytes segs).length - (segmentBytes rest).length)
        ended := decide (Status.Failed st) }

/-- Everything a move can do. -/
theorem netMove_cases {m : NetMove g} {w w' : World g} (h : World.netMove m w = some w') :
    (∃ m', World.writerMove m' w = some w') ∨
    (∃ c p, w' = w.setPeer c p ∧ w.accepted c ∧ (w.peers c).ended = false ∧ PeerStep w c p) := by
  cases m with
  | writer m => exact Or.inl ⟨m, h⟩
  | datagram c inp =>
    right
    simp only [World.netMove] at h
    split at h
    · rename_i able
      obtain ⟨accepted, running, free, carried⟩ := able
      exact ⟨c, _, (Option.some.inj h).symm, accepted, running, .datagram inp free carried⟩
    · cases h
  | tcp c pollin pollout segs clock lockStats clockUpdate lock results setEvent =>
    right
    simp only [World.netMove] at h
    split at h
    · rename_i able
      obtain ⟨accepted, running, next, able⟩ := able
      obtain rfl := Option.some.inj h
      exact ⟨c, _, rfl, accepted, running,
        .tcp pollin pollout segs clock lockStats clockUpdate lock results setEvent next able rfl⟩
    · cases h

/-- A step of the writer touches the storage only. -/
theorem writerMove_same {m : WriterMove g} {w w' : World g} (h : World.writerMove m w = some w') :
    w'.wire = w.wire ∧ w'.sent = w.sent ∧ w'.recd = w.recd ∧ w'.accepted = w.accepted ∧
      w'.peers = w.peers := by
  rcases writerMove_cases h with ⟨_, _, _, _, _, _, rfl⟩ | ⟨_, _, _, rfl⟩ | ⟨_, _, _, rfl⟩ |
    ⟨_, _, rfl⟩ <;> exact ⟨rfl, rfl, rfl, rfl, rfl⟩

end Lancaster
