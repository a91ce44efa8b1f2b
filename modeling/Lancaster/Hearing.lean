import Lancaster.Leads

/-!
# The receiver takes what there is

While nothing fails the receiver writes its request, hears the heartbeat of the sender and reads
everything that the sender has written to the connection.
-/

namespace Lancaster

open Bytes Interleaving Sender
open Receiver (McastInput TcpReadInput Segment segmentBytes)

variable {g : Geometry}

/-- Less than a header has been read of a frame. -/
theorem Reading.room {r : Receiver g} {part : List UInt8} (h : Reading r part)
    (short : part.length < 8) :
    0 < r.inRemain := by
  cases h with
  | head len next total => omega
  | body len next total nonneg bound holds =>
    simp only [List.length_append, length_netLong] at short
    omega

/-! ## One event -/

def segments (chunk : List UInt8) : List Segment := if chunk = [] then [] else [.data chunk]

theorem segmentBytes_segments (chunk : List UInt8) : segmentBytes (segments chunk) = chunk := by
  unfold segments
  split
  · rename_i empty
    rw [empty]
    rfl
  · simp [segmentBytes]

def chunkInput (chunk : List UInt8) : TcpReadInput where
  segs := segments chunk
  clock := .ok 0
  lockStats := .ok ()
  clockUpdate := .ok 0
  lock := fun _ => .ok ()

namespace Receiver

variable {r : Receiver g} {chunk : List UInt8}

/-- All bytes are read that there are and that have room. -/
theorem tcpReadBuf_segments (small : chunk.length ≤ r.inRemain) :
    ∃ st time count, tcpReadBuf r (chunkInput chunk) =
        (st, { r.fed chunk with tcpRecvTime := time, tcpBytesRecv := count }, []) ∧
      (st = Status.blocked ∨ ¬ Status.Failed st) := by
  have soft : ¬ Status.Failed Status.ok := by decide
  unfold tcpReadBuf
  by_cases empty : chunk = []
  · subst empty
    by_cases full : r.inRemain = 0
    · refine ⟨Status.ok, r.tcpRecvTime, r.tcpBytesRecv, ?_, Or.inr soft⟩
      rw [fed_nil]
      show _ = (Status.ok, r, [])
      simp [chunkInput, segments, tcpReadLoop, full]
    · refine ⟨Status.blocked, r.tcpRecvTime, r.tcpBytesRecv, ?_, Or.inl rfl⟩
      rw [fed_nil]
      simp [chunkInput, segments, tcpReadLoop, sockRead, full, Failure.blocked]
  · have nonempty : 0 < chunk.length := List.length_pos_iff.mpr empty
    have more : r.inRemain ≠ 0 := by omega
    have hard : ¬ Status.Failed (chunk.length : Int) := by
      unfold Status.Failed
      omega
    by_cases full : r.inRemain - chunk.length = 0
    · refine ⟨chunk.length, 0, r.tcpBytesRecv + chunk.length, ?_, Or.inr hard⟩
      simp [chunkInput, segments, tcpReadLoop, sockRead, empty, more, small, full, nonempty, fed]
    · refine ⟨Status.blocked, 0, r.tcpBytesRecv + chunk.length, ?_, Or.inl rfl⟩
      simp [chunkInput, segments, tcpReadLoop, sockRead, empty, more, small, full, nonempty, fed,
        Failure.blocked]

/-- The whole out buffer is written. -/
theorem tcpOnWrite_all (r : Receiver g) : ∃ st r' out,
    tcpOnWrite r [.ok r.outRemain] (.ok ()) = (st, r', out) ∧ ¬ Status.Failed st ∧
      r'.outRemain = 0 ∧ (r.outRemain = 0 → out = []) ∧ SameIn r r' ∧ r'.nextSeq = r.nextSeq := by
  have soft : ¬ Status.Failed Status.ok := by decide
  by_cases empty : r.outRemain = 0
  · refine ⟨Status.ok, { r with wantsWrite := false }, [], ?_, soft, empty, fun _ => rfl,
      ⟨rfl, rfl, rfl⟩, rfl⟩
    simp [tcpOnWrite, tcpWriteBuf, empty]
  · refine ⟨Status.ok, { r with
        outNext := r.outNext + r.outRemain, outRemain := 0, wantsWrite := false },
      peek r.outBuf r.outNext r.outRemain, ?_, soft, rfl, fun drained => absurd drained empty,
      ⟨rfl, rfl, rfl⟩, rfl⟩
    simp [tcpOnWrite, tcpWriteBuf, empty]

/-- What there is has been read, and a full buffer has been looked at. -/
theorem tcpOnRead_all {part later : List UInt8} {rest : List (Frame g)} (h : Reading r part)
    (sound : ∀ fr ∈ rest, fr.Sound) (bytes : encodeFrames rest = part ++ later)
    (next : chunk <+: later) (small : chunk.length ≤ r.inRemain) :
    ∃ st r', tcpOnRead r (chunkInput chunk) = (st, r', []) ∧ ¬ Status.Failed st ∧ 0 < r'.inRemain ∧
      Updated r r' := by
  obtain ⟨st, time, count, read, soft⟩ := tcpReadBuf_segments small
  have fed := h.fed small
  generalize hr₁ : { r.fed chunk with tcpRecvTime := time, tcpBytesRecv := count } = r₁ at read
  have reading : Reading r₁ (part ++ chunk) := fed.congr (by rw [← hr₁]; exact ⟨rfl, rfl, rfl⟩)
  have same₁ : Updated r r₁ := by
    rw [← hr₁]
    exact ⟨rfl, rfl, rfl, rfl, [], (List.append_nil _).symm, rfl, rfl⟩
  have fine : ¬ Status.Failed (if st = Status.blocked then Status.ok else st) := by
    split
    · decide
    · rename_i other
      exact soft.resolve_left other
  have able : ¬ (st ≠ Status.blocked ∧ Status.Failed st) := fun hard =>
    (soft.resolve_left hard.1) hard.2
  unfold tcpOnRead
  rw [read]
  dsimp only
  rw [if_neg able]
  by_cases full : r₁.inRemain = 0
  · rw [if_pos full]
    obtain ⟨more, rfl⟩ := next
    have whole : encodeFrames rest = part ++ chunk ++ more := by
      rw [bytes, List.append_assoc]
    have clock : (chunkInput chunk).clockUpdate = .ok 0 := rfl
    have lock : ∀ id, (chunkInput chunk).lock id = .ok () := fun _ => rfl
    obtain ⟨st', r', look, fine', took⟩ := reading.look full (fun fr here => (sound fr here).valid)
      whole clock lock fine
    rw [look]
    refine ⟨st', r', rfl, fine', ?_⟩
    rcases took with ⟨_, more, _, _, alike⟩ | ⟨fr, rest', hrest, _, alike, again, _⟩
    · exact ⟨more, same₁.trans alike.updated⟩
    · have going := sound fr (by simp [hrest])
      have stays : fr ≠ .willQuit := by
        rintro rfl
        exact going
      have updated := (r₁.takeFrame_took 0 going.valid).2
      refine ⟨?_, same₁.trans (updated.trans alike.updated)⟩
      exact (again stays).room (by simp)
  · rw [if_neg full]
    exact ⟨_, r₁, rfl, fine, Nat.pos_of_ne_zero full, same₁⟩

/-- A TCP event in which nothing fails: what there is has been read, and the request is out. -/
theorem eventFunc_all {part later : List UInt8} {rest : List (Frame g)} (h : Reading r part)
    (sound : ∀ fr ∈ rest, fr.Sound) (bytes : encodeFrames rest = part ++ later)
    (next : chunk <+: later) (small : chunk.length ≤ r.inRemain) (pollin : Bool) :
    ∃ st r' out, eventFunc r pollin true (chunkInput chunk) [.ok r.outRemain] (.ok ()) =
        (st, r', [], out) ∧ ¬ Status.Failed st ∧ r'.outRemain = 0 ∧ 0 < r'.inRemain ∧
      r'.nextSeq = r.nextSeq ∧ (r.outRemain = 0 → out = []) := by
  obtain ⟨st₂, r₂, looked, fine₂, more, same₂⟩ := tcpOnRead_all h sound bytes next small
  obtain ⟨st₃, r₃, out, wrote, fine₃, empty, quiet, sameIn, kept⟩ := tcpOnWrite_all r₂
  rw [same₂.outRemain] at wrote quiet
  refine ⟨st₃, r₃, out, ?_, fine₃, empty, ?_, ?_, quiet⟩
  · unfold eventFunc
    rw [looked]
    dsimp only
    rw [if_neg (fun hard => fine₂ hard.2), if_pos rfl, wrote]
  · rw [sameIn.remain]
    exact more
  · rw [kept, same₂.next]

/-- A heartbeat is heard: the receiver expects the sequence that it announces. -/
theorem mcastOnRead_beat {n : Int} {stamp : List UInt8} (len : stamp.length = 8) (pos : 0 < n)
    (bound : n ≤ sequenceMax) (behind : r.nextSeq ≤ n) :
    ∃ st r', mcastOnRead r (.ofDatagram (datagram (g := g) (-n) stamp []) 0) = (st, r') ∧
      ¬ Status.Failed st ∧ r'.nextSeq = n := by
  have soft : ¬ Status.Failed Status.ok := by decide
  have long : ¬ (datagram (g := g) (-n) stamp []).length < 16 := by
    rw [length_datagram len]
    omega
  have nonempty : datagram (g := g) (-n) stamp [] ≠ [] := List.ne_nil_of_length_pos (by omega)
  have packet : mcastOnRead r (.ofDatagram (datagram (g := g) (-n) stamp []) 0) =
      mcastOnPacket { r with
        mcastRecvTime := 0
        mcastBytesRecv := r.mcastBytesRecv + (datagram (g := g) (-n) stamp []).length }
        (.ofDatagram (datagram (g := g) (-n) stamp []) 0) (datagram (g := g) (-n) stamp []) 0 := by
    simp only [mcastOnRead, McastInput.ofDatagram, sockRecvfrom_nonempty nonempty, long,
      ↓reduceIte, updateStats, soft, Bool.true_eq_false]
  rw [packet, mcastOnPacket_beat _ _ _ pos bound]
  rcases advance_cases { r with
      mcastRecvTime := 0
      mcastBytesRecv := r.mcastBytesRecv + (datagram (g := g) (-n) stamp []).length }
      (.ofDatagram (datagram (g := g) (-n) stamp []) 0) n true with
    ⟨near, eq⟩ | ⟨gap, st, r', asked, ⟨failed, _⟩ | ⟨_, eq⟩⟩
  · refine ⟨_, _, eq, soft, ?_⟩
    exact Int.le_antisymm behind near
  · simp only [requestGap, McastInput.ofDatagram] at asked
    obtain ⟨rfl, _⟩ := Prod.mk.inj asked
    exact absurd failed soft
  · exact ⟨_, _, eq, soft, rfl⟩

end Receiver

/-! ## Runs -/

/-- Only receiver `c` has moved, and it has nothing left to write. -/
structure Written (c : Nat) (w w' : World g) : Prop where
  sent : w'.sent = w.sent
  recd : w'.recd = w.recd
  wire : w'.wire = w.wire
  empty : (w'.peers c).recv.outRemain = 0
  room : 0 < (w'.peers c).recv.inRemain
  level : (w'.peers c).recv.nextSeq = (w.peers c).recv.nextSeq

namespace Serving

variable {c : Nat} {s : Sender g} {w : World g}

/-- No more has been read than was sent. -/
theorem got_le (h : Serving c s w) : (w.peers c).got ≤ (w.sent c).length := by
  obtain ⟨a, _, link, _⟩ := h.repairing.running h.going
  obtain ⟨frames, _, awaited⟩ := link.conn.frames
  exact awaited.within

/-- The bytes that receiver `c` has not read yet are those of the frames to come. -/
theorem unread_frames (h : Serving c s w) : ∃ part later, ∃ rest : List (Frame g),
    Reading (w.peers c).recv part ∧ (∀ fr ∈ rest, fr.Sound) ∧ encodeFrames rest = part ++ later ∧
    (w.sent c).drop (w.peers c).got <+: later ∧
    (∀ clnt, s.clients c = some clnt → clnt.outRemain = 0 →
    later = (w.sent c).drop (w.peers c).got) := by
  obtain ⟨a, _, link, _⟩ := h.repairing.running h.going
  obtain ⟨frames, handed, awaited⟩ := link.conn.frames
  obtain ⟨done, rest, part, split, taken, reading, _⟩ := awaited.split
  obtain ⟨more, whole⟩ := handed.sent_prefix
  have sound : ∀ fr ∈ rest, fr.Sound := by
    intro fr here
    exact awaited.sound fr (by rw [split]; exact List.mem_append_right _ here)
  have bytes : encodeFrames rest = part ++ ((w.sent c).drop (w.peers c).got ++ more) := by
    rw [split, encodeFrames_append, ← List.take_append_drop (w.peers c).got (w.sent c), taken,
      List.append_assoc, List.append_assoc] at whole
    exact (List.append_cancel_left whole).symm
  refine ⟨part, _, rest, reading, sound, bytes, List.prefix_append _ _, ?_⟩
  intro clnt here idle
  have all := ((handed_some here).mp handed).all_sent idle
  rw [← all] at whole
  rw [List.append_right_eq_self.mp whole, List.append_nil]

/-- One TCP event of receiver `c`. -/
theorem reads (h : Serving c s w) (chunk : List UInt8)
    (next : chunk <+: (w.sent c).drop (w.peers c).got)
    (small : chunk.length ≤ (w.peers c).recv.inRemain) :
    ∃ w', Leads s w s w' ∧ Serving c s w' ∧ Written c w w' ∧
      (w'.peers c).got = (w.peers c).got + chunk.length ∧
      ((w.peers c).recv.outRemain = 0 → (w'.peers c).up = (w.peers c).up) := by
  obtain ⟨part, later, rest, reading, sound, bytes, front, _⟩ := h.unread_frames
  obtain ⟨st, r', out, event, fine, empty, room, level, quiet⟩ :=
    Receiver.eventFunc_all reading sound
    bytes (next.trans front) small (decide (chunk ≠ []))
  let p : Peer g := {
    recv := r'
    up := (w.peers c).up ++ out
    got := (w.peers c).got + chunk.length
    ended := decide (Status.Failed st) }
  have moved : World.netMove (.tcp c (decide (chunk ≠ [])) true (segments chunk) (.ok 0) (.ok ()) (.ok 0)
      (.ok ()) [.ok (w.peers c).recv.outRemain] (.ok ())) w = some (w.setPeer c p) := by
    have front : segmentBytes (segments chunk) <+: (w.sent c).drop (w.peers c).got := by
      rw [segmentBytes_segments]
      exact next
    have read : (w.peers c).recv.eventFunc (decide (chunk ≠ [])) true
        ⟨segments chunk, .ok 0, .ok (), .ok 0, fun _ => .ok ()⟩ [.ok (w.peers c).recv.outRemain]
        (.ok ()) = (st, r', [], out) := event
    have able : w.accepted c = true ∧ (w.peers c).ended = false ∧
        segmentBytes (segments chunk) <+: (w.sent c).drop (w.peers c).got ∧
        (decide (chunk ≠ []) = true ∨ (Except.ok 0 : Except Failure Int).isOk = true ∧
          (Except.ok () : Except Failure Unit).isOk = true) :=
      ⟨h.accepted, h.going, front, Or.inr ⟨rfl, rfl⟩⟩
    simp only [World.netMove]
    rw [if_pos able, read]
    simp only [segmentBytes_segments]
    rfl
  have here : (w.setPeer c p).peers c = p := if_pos rfl
  have run : Leads s w s (w.setPeer c p) := .move moved ⟨rfl, rfl, rfl⟩
  refine ⟨_, run, h.leads run ?_ h.client, ⟨rfl, rfl, rfl, ?_, ?_, ?_⟩, ?_, ?_⟩
  · rw [here]
    exact decide_eq_false fine
  · rw [here]
    exact empty
  · rw [here]
    exact room
  · rw [here]
    exact level
  · rw [here]
  · intro drained
    rw [here]
    simp [p, quiet drained]

/-- Receiver `c` reads everything that was written to its connection. -/
theorem readsAll (h : Serving c s w) (room : 0 < (w.peers c).recv.inRemain)
    (empty : (w.peers c).recv.outRemain = 0) (n : Nat)
    (size : (w.sent c).length = (w.peers c).got + n) :
    ∃ w', Leads s w s w' ∧ Serving c s w' ∧ Written c w w' ∧
      (w'.peers c).got = (w'.sent c).length ∧ (w'.peers c).up = (w.peers c).up := by
  -- by strong induction on what is left to read
  induction n using Nat.strongRecOn generalizing w with
  | ind n ih =>
    have rest : ((w.sent c).drop (w.peers c).got).length = n := by
      rw [List.length_drop]
      omega
    have small : (((w.sent c).drop (w.peers c).got).take (w.peers c).recv.inRemain).length ≤
        (w.peers c).recv.inRemain := List.length_take_le _ _
    obtain ⟨w₁, run, serving, done, got, same⟩ := h.reads _ (List.take_prefix _ _) small
    rw [List.length_take, rest] at got
    by_cases last : n ≤ (w.peers c).recv.inRemain
    · refine ⟨w₁, run, serving, done, ?_, same empty⟩
      rw [got, done.sent]
      omega
    · obtain ⟨w₂, more, serving', done', all, same'⟩ :=
        ih (n - (w.peers c).recv.inRemain) (by omega)
        serving done.room done.empty (by rw [got, done.sent]; omega)
      refine ⟨w₂, run.trans more, serving', ⟨done'.sent.trans done.sent, done'.recd.trans done.recd,
        done'.wire.trans done.wire, done'.empty, done'.room, done'.level.trans done.level⟩, all, ?_⟩
      rw [same', same empty]

/-- A receiver that has read everything is not in the middle of a frame. -/
theorem whole (h : Serving c s w) (room : 0 < (w.peers c).recv.inRemain)
    (all : (w.peers c).got = (w.sent c).length)
    (idle : ∀ clnt, s.clients c = some clnt → clnt.outRemain = 0) :
    (w.peers c).recv.inNext = 0 := by
  obtain ⟨part, later, rest, reading, sound, bytes, _, tail⟩ := h.unread_frames
  obtain ⟨clnt, here⟩ := h.client
  rw [tail clnt here (idle clnt here), all, List.drop_length, List.append_nil] at bytes
  have valid : ∀ fr ∈ rest, fr.Valid := fun fr here => (sound fr here).valid
  cases reading with
  | head len next total =>
    cases rest with
    | nil =>
      rw [encodeFrames_nil] at bytes
      rw [next, ← bytes, List.length_nil]
    | cons fr rest' =>
      -- no frame is shorter than a header
      have eight : 8 ≤ (encodeFrames (fr :: rest')).length := by
        cases fr <;> simp [encodeFrames, Frame.encode]
      rw [bytes] at eight
      omega
  | @body seq b len next total nonneg bound holds =>
    rcases encodeFrames_head valid (length_netLong seq) bytes with
      ⟨rest', rfl, same⟩ | ⟨rest', rfl, same⟩ | ⟨seq', id, val, rest', rfl, same, _⟩
    · have clash := netLong_inj (isLong_of_le nonneg bound) (by decide) same
      simp only [heartbeatSeq] at clash
      omega
    · have clash := netLong_inj (isLong_of_le nonneg bound) (by decide) same
      simp only [willQuitSeq] at clash
      omega
    · have long := congrArg List.length bytes
      simp [encodeFrames, Frame.encode] at long
      simp only [pktSize] at total
      omega

/-- Receiver `c` hears the heartbeat of the sender. -/
theorem hears (h : Serving c s w) (empty : (w.peers c).recv.outRemain = 0) {stamp : List UInt8}
    (len : stamp.length = 8) (here : datagram (g := g) (-s.nextSeq) stamp [] ∈ w.wire) :
    ∃ w', Leads s w s w' ∧ Serving c s w' ∧ (w'.peers c).recv.nextSeq = s.nextSeq := by
  obtain ⟨a, ord, link, _⟩ := h.repairing.running h.going
  have low := h.loaded.low
  have below := h.loaded.below
  have behind : (w.peers c).recv.nextSeq ≤ s.nextSeq := by
    rw [← link.rnext, ← link.sender.next]
    exact ord.rnext_le
  obtain ⟨st, r', heard, fine, level⟩ :=
    Receiver.mcastOnRead_beat len (by omega) (le_of_lt below) behind
  let p : Peer g := { w.peers c with recv := r', ended := decide (Status.Failed st) }
  have moved : World.netMove (.datagram c (.ofDatagram (datagram (g := g) (-s.nextSeq) stamp []) 0)) w =
      some (w.setPeer c p) := by
    have carried : w.carries (.ofDatagram (datagram (g := g) (-s.nextSeq) stamp []) 0) = true := by
      simp [World.carries, McastInput.ofDatagram, here]
    simp only [World.netMove]
    rw [if_pos ⟨h.accepted, h.going, empty, carried⟩, heard]
  have peer : (w.setPeer c p).peers c = p := if_pos rfl
  have run : Leads s w s (w.setPeer c p) := .move moved ⟨rfl, rfl, rfl⟩
  refine ⟨_, run, h.leads run ?_ h.client, ?_⟩
  · rw [peer]
    exact decide_eq_false fine
  · rw [peer]
    exact level

end Serving

end Lancaster
