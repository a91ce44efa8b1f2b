import Lancaster.SequenceCoverage

/-!
# Gap requests on the wire

`request_gap` and `tcp_on_write` share one out buffer. The bytes written so far and
the bytes still in the buffer are the requests made so far, as long as no request is
made before the one in the buffer is written: `request_gap` does not look whether the
buffer is empty.
-/

namespace Lancaster

open Bytes
open Receiver (McastInput)

variable {g : Geometry}

def encodeRange (range : SequenceRange) : List UInt8 := netLong range.low ++ netLong range.high

def encodeRanges (ranges : List SequenceRange) : List UInt8 := ranges.flatMap encodeRange

theorem encodeRanges_concat (ranges : List SequenceRange) (range : SequenceRange) :
    encodeRanges (ranges ++ [range]) = encodeRanges ranges ++ encodeRange range := by
  simp [encodeRanges]

@[simp] theorem length_encodeRange (range : SequenceRange) : (encodeRange range).length = 16 := by
  simp [encodeRange]

/-- The calls that touch the out buffer, with the results of the calls they make. -/
inductive RequestEvent where
  | mcastOnRead (inp : McastInput)
  | tcpOnWrite (results : List (Except Failure Nat)) (setEvent : Except Failure Unit)

/-- A receiver and the bytes it has written to its connection. -/
structure Requester (g : Geometry) where
  recv : Receiver g
  written : List UInt8

namespace Requester

def step (x : Requester g) : RequestEvent → Requester g
  | .mcastOnRead inp => { x with recv := (Receiver.mcastOnRead x.recv inp).2 }
  | .tcpOnWrite results setEvent =>
    let (_, r, data) := Receiver.tcpOnWrite x.recv results setEvent
    { recv := r, written := x.written ++ data }

def run (x : Requester g) (events : List RequestEvent) : Requester g := events.foldl step x

/-- The datagram is one of the publisher's, and is ahead of what is expected. -/
def Ahead (r : Receiver g) (inp : McastInput) : Prop :=
  ∃ data, inp.dgram = .ok data ∧ 16 ≤ data.length ∧ inp.sameSource = true ∧
    r.nextSeq < Receiver.ahead (ntohll (ldLong data 0))

/-- A gap opens only while the out buffer is empty. -/
def Free (x : Requester g) : RequestEvent → Prop
  | .mcastOnRead inp => Ahead x.recv inp → x.recv.outRemain = 0
  | .tcpOnWrite _ _ => True

def FreeRun : Requester g → List RequestEvent → Prop
  | _, [] => True
  | x, e :: rest => x.Free e ∧ FreeRun (x.step e) rest

/-- What the connection carries are the requests, in order and whole. -/
def Sound (x : Requester g) : Prop :=
  x.written <+: encodeRanges (gapRanges x.recv.acts) ∧
    (x.recv.outRemain = 0 → x.written = encodeRanges (gapRanges x.recv.acts))

end Requester

/-- The bytes of the out buffer that are still to be written. -/
def Receiver.pending (r : Receiver g) : List UInt8 := peek r.outBuf r.outNext r.outRemain

structure Requests (r : Receiver g) (written : List UInt8) : Prop where
  len : r.outBuf.length = 16
  fits : r.outNext + r.outRemain ≤ 16
  stream : written ++ r.pending = encodeRanges (gapRanges r.acts)

namespace Requests

variable {r r' : Receiver g} {written : List UInt8}

theorem congr (h : Requests r written) (outBuf : r'.outBuf = r.outBuf)
    (outNext : r'.outNext = r.outNext) (outRemain : r'.outRemain = r.outRemain)
    (gaps : gapRanges r'.acts = gapRanges r.acts) : Requests r' written := by
  refine ⟨?_, ?_, ?_⟩
  · rw [outBuf]
    exact h.len
  · rw [outNext, outRemain]
    exact h.fits
  · rw [Receiver.pending, outBuf, outNext, outRemain, gaps]
    exact h.stream

theorem all_written (h : Requests r written) (empty : r.outRemain = 0) :
    written = encodeRanges (gapRanges r.acts) := by
  rw [← h.stream, Receiver.pending, peek, empty, List.take_zero, List.append_nil]

theorem sound (h : Requests r written) : Requester.Sound ⟨r, written⟩ := by
  refine ⟨?_, h.all_written⟩
  rw [← h.stream]
  exact List.prefix_append _ _

/-- A request put into the empty buffer. -/
theorem requestGap (h : Requests r written) (empty : r.outRemain = 0)
    (setEvent lockStats : Except Failure Unit) (low high : Int) :
    Requests (Receiver.requestGap r setEvent lockStats low high).2 written := by
  have framed : stLong (stLong r.outBuf 0 (htonll low)) 8 (htonll high) =
      encodeRange ⟨low, high⟩ := by
    obtain ⟨a, b, hbuf, ha, hb⟩ : ∃ a b : List UInt8, r.outBuf = a ++ b ∧ a.length = 8 ∧
        b.length = 8 := by
      have len := h.len
      refine ⟨r.outBuf.take 8, r.outBuf.drop 8, (List.take_append_drop 8 _).symm, ?_, ?_⟩
      · rw [List.length_take]
        omega
      · rw [List.length_drop]
        omega
    rw [stLong_htonll, stLong_htonll, hbuf]
    simp [poke, encodeRange, ha, hb]
  -- the fields that matter, whatever the two calls return
  have put : Requests { r with
      outBuf := stLong (stLong r.outBuf 0 (htonll low)) 8 (htonll high)
      outNext := 0
      outRemain := 16
      acts := r.acts ++ [.gap ⟨low, high⟩] } written := by
    refine ⟨?_, by simp, ?_⟩
    · simp [framed]
    · have out := h.all_written empty
      simp only [Receiver.pending, framed, gapRanges_append]
      rw [peek, List.drop_zero, List.take_of_length_le (by simp), out]
      exact (encodeRanges_concat _ _).symm
  unfold Receiver.requestGap
  cases setEvent with
  | error st => exact put
  | ok _ => cases lockStats <;> exact put.congr rfl rfl rfl rfl

theorem advance (h : Requests r written) (inp : McastInput) {seq : Int} (isHb : Bool)
    (free : r.nextSeq < seq → r.outRemain = 0) :
    Requests (Receiver.advance r inp seq isHb).2 written := by
  rcases Receiver.advance_cases r inp seq isHb with ⟨_, eq⟩ | ⟨gap, st, r', hr, outcome⟩
  · rw [eq]
    cases isHb <;> exact h.congr rfl rfl rfl rfl
  · have put := h.requestGap (free gap) inp.setEvent inp.lockStats r.nextSeq seq
    rw [hr] at put
    rcases outcome with ⟨_, eq⟩ | ⟨_, eq⟩ <;> rw [eq]
    · exact put
    · exact put.congr rfl rfl rfl rfl

theorem mcastOnRead (h : Requests r written) (inp : McastInput)
    (free : Requester.Ahead r inp → r.outRemain = 0) :
    Requests (Receiver.mcastOnRead r inp).2 written := by
  rcases Receiver.mcastOnRead_cases r inp with
    ⟨time, bytes, eq, _⟩ | ⟨data, now, bytes, hd, long, source, eq⟩
  · rw [eq]
    exact h.congr rfl rfl rfl rfl
  rw [eq]
  have kept : Requests { r with mcastRecvTime := now, mcastBytesRecv := bytes } written :=
    h.congr rfl rfl rfl rfl
  have free : r.nextSeq < Receiver.ahead (ntohll (ldLong (data ++ inp.junk) 0)) →
      r.outRemain = 0 := by
    intro beyond
    have header : ldLong (data ++ inp.junk) 0 = ldLong data 0 := by
      rw [ldLong, peek_append_left (by omega), ldLong]
    rw [header] at beyond
    exact free ⟨data, hd, long, source, beyond⟩
  rw [Receiver.mcastOnPacket]
  generalize ntohll (ldLong (data ++ inp.junk) 0) = seq at free ⊢
  split
  · rename_i negative
    refine kept.advance inp true ?_
    rwa [Receiver.ahead, if_pos negative] at free
  split
  · exact kept
  rename_i nonneg _
  rw [Receiver.ahead, if_neg nonneg] at free
  have same := Receiver.applyRecords_updated inp.lock seq (data ++ inp.junk) data.length now
    data.length 16 { r with mcastRecvTime := now, mcastBytesRecv := bytes }
  generalize Receiver.applyRecords inp.lock seq (data ++ inp.junk) data.length now
    data.length 16 { r with mcastRecvTime := now, mcastBytesRecv := bytes } = u at same ⊢
  obtain ⟨st, r₁⟩ := u
  dsimp only at same ⊢
  have applied : Requests r₁ written :=
    kept.congr same.outBuf same.outNext same.outRemain same.gaps_eq
  split
  · exact applied
  · have counted : Requests { r₁ with acts := r₁.acts ++ [.applied seq] } written := by
      refine applied.congr rfl rfl rfl ?_
      simp [gapRanges]
    refine counted.advance inp false ?_
    simp only [same.next, same.outRemain]
    exact free

theorem tcpWriteBuf (h : Requests r written) (results : List (Except Failure Nat)) :
    Requests (Receiver.tcpWriteBuf r results).2.1
      (written ++ (Receiver.tcpWriteBuf r results).2.2) := by
  induction results generalizing r written with
  | nil =>
    unfold Receiver.tcpWriteBuf
    split <;> simpa using h
  | cons result rest ih =>
    cases result with
    | error st =>
      unfold Receiver.tcpWriteBuf
      split <;> simpa using h
    | ok n =>
      rw [Receiver.tcpWriteBuf]
      by_cases empty : r.outRemain = 0
      · simpa [empty] using h
      · rw [if_neg empty]
        have next : Requests { r with
            outNext := r.outNext + min n r.outRemain
            outRemain := r.outRemain - min n r.outRemain }
            (written ++ peek r.outBuf r.outNext (min n r.outRemain)) := by
          have fits := h.fits
          refine ⟨h.len, by simp only; omega, ?_⟩
          have parts : peek r.outBuf r.outNext (min n r.outRemain) ++
              peek r.outBuf (r.outNext + min n r.outRemain) (r.outRemain - min n r.outRemain) =
              r.pending := by
            rw [Receiver.pending, peek, peek, peek, ← List.drop_drop, ← List.take_add]
            congr 1
            omega
          rw [← h.stream, ← parts, List.append_assoc]
          rfl
        have rest := ih next
        simpa only [List.append_assoc] using rest

theorem tcpOnWrite (h : Requests r written) (results : List (Except Failure Nat))
    (setEvent : Except Failure Unit) :
    Requests (Receiver.tcpOnWrite r results setEvent).2.1
      (written ++ (Receiver.tcpOnWrite r results setEvent).2.2) := by
  have wrote := h.tcpWriteBuf results
  unfold Receiver.tcpOnWrite
  generalize Receiver.tcpWriteBuf r results = u at wrote ⊢
  obtain ⟨st, r₁, data⟩ := u
  dsimp only at wrote ⊢
  split
  · cases setEvent with
    | error st => exact wrote
    | ok _ => exact wrote.congr rfl rfl rfl rfl
  · exact wrote

theorem step {x : Requester g} {e : RequestEvent} (h : Requests x.recv x.written)
    (free : x.Free e) : Requests (x.step e).recv (x.step e).written := by
  cases e with
  | mcastOnRead inp => exact h.mcastOnRead inp free
  | tcpOnWrite results setEvent => exact h.tcpOnWrite results setEvent

theorem run {x : Requester g} {events : List RequestEvent} (h : Requests x.recv x.written)
    (free : x.FreeRun events) : Requests (x.run events).recv (x.run events).written := by
  induction events generalizing x with
  | nil => exact h
  | cons e rest ih => exact ih (h.step free.1) free.2

end Requests

/-- In every run in which gaps open only while the out buffer is empty, the bytes
written are the first bytes of all requests, and all of them once the buffer is empty. -/
theorem requests_whole {store : Storage g} {qCapacity : Nat} {inBuf outBuf : List UInt8} {now : Int}
    (sized : outBuf.length = 16) {events : List RequestEvent}
    (free : Requester.FreeRun ⟨Receiver.init store qCapacity inBuf outBuf now, []⟩ events) :
    (Requester.run ⟨Receiver.init store qCapacity inBuf outBuf now, []⟩ events).Sound := by
  have start : Requests (Receiver.init store qCapacity inBuf outBuf now) [] := by
    refine ⟨sized, by simp [Receiver.init], ?_⟩
    simp [Receiver.init, Receiver.pending, peek, gapRanges, encodeRanges]
  exact (start.run free).sound

/-- The buffer takes a request, the socket takes it in two parts. -/
theorem requests_whole_small : ∃ events,
    Requester.FreeRun ⟨smallReceiver, []⟩ events ∧
    (Requester.run ⟨smallReceiver, []⟩ events).written = encodeRange ⟨0, 2⟩ ∧
    (Requester.run ⟨smallReceiver, []⟩ events).Sound := by
  let events : List RequestEvent := [.mcastOnRead (.ofDatagram (smallPacket 2) 0),
    .tcpOnWrite [.ok 5, .error .blocked] (.ok ()), .tcpOnWrite [.ok 11] (.ok ())]
  have free : Requester.FreeRun ⟨smallReceiver, []⟩ events := by
    exact ⟨fun _ => rfl, trivial, trivial, trivial⟩
  exact ⟨events, free, by decide +kernel, requests_whole (by decide) free⟩

/-- Two gaps open before the first request is written: it is lost. -/
theorem request_lost : ∃ events : List RequestEvent,
    ¬ (Requester.run ⟨smallReceiver, []⟩ events).Sound := by
  let events : List RequestEvent := [.mcastOnRead (.ofDatagram (smallPacket 2) 0),
    .mcastOnRead (.ofDatagram (smallPacket 5) 0), .tcpOnWrite [.ok 16] (.ok ())]
  refine ⟨events, fun sound => ?_⟩
  have torn : ¬ (Requester.run ⟨smallReceiver, []⟩ events).written <+:
      encodeRanges (gapRanges (Requester.run ⟨smallReceiver, []⟩ events).recv.acts) := by
    decide +kernel
  exact torn sound.1

end Lancaster
