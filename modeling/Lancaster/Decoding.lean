import Lancaster.Delivery

/-!
# Reading a connection in pieces

The receiver keeps its place in the byte stream of its connection in `in_next` and
`in_remain` alone, and converts a header in place when its eight bytes are there. A call of
`tcp_on_read` ends at the end of a header or a body, or when the socket has no more, so that
a frame may be cut anywhere and may take any number of calls.
-/

namespace Lancaster

open Bytes Receiver

variable {g : Geometry}

namespace Receiver

/-- What a call of `tcp_on_read` finds when only the socket decides: `clock` has its two
readings of the time. -/
def readInput (segs : List Segment) (clock : Int × Int) : TcpReadInput :=
  ⟨segs, .ok clock.1, .ok (), .ok clock.2, fun _ => .ok ()⟩

/-- Repeated calls of `tcp_on_read`, until one fails. What one call leaves unread the next
one finds. -/
def tcpReads : List (Int × Int) → Receiver g → List Segment → Receiver g × List Segment
  | [], r, segs => (r, segs)
  | clock :: rest, r, segs =>
    let (st, r, segs) := tcpOnRead r (readInput segs clock)
    if Status.Failed st then (r, segs) else tcpReads rest r segs

/-- The frames processed one at a time, each with the time of its own. -/
def takeFrames (r : Receiver g) (frames : List (Frame g)) (times : List Int) : Receiver g :=
  (frames.zip times).foldl (fun r step => r.takeFrame step.2 step.1) r

theorem Alike.takeFrames {r r' : Receiver g} (h : Alike r r') {frames : List (Frame g)}
    (valid : ∀ fr ∈ frames, fr.Valid) (times : List Int) :
    Alike (r.takeFrames frames times) (r'.takeFrames frames times) := by
  induction frames generalizing r r' times with
  | nil => exact h
  | cons fr rest ih =>
    cases times with
    | nil => exact h
    | cons now times =>
      exact ih (h.takeFrame now (valid fr (List.mem_cons_self ..)))
        (fun fr' here => valid fr' (List.mem_cons_of_mem _ here)) times

/-- A socket that does not fail but for being BLOCKED. -/
def Soft (segs : List Segment) : Prop := ∀ st, .fail st ∈ segs → st = Failure.blocked

/-- A read of a soft socket: it is BLOCKED, and something less is ahead, or there is data. -/
theorem sockRead_soft {segs : List Segment} (soft : Soft segs) (n : Nat) :
    (∃ rest, sockRead segs n = (.error .blocked, rest) ∧ Soft rest ∧
      (rest.length < segs.length ∨ rest = [])) ∨
    (∃ data rest, sockRead segs n = (.ok data, rest) ∧ Soft rest ∧ rest.length ≤ segs.length ∧
      data.length ≤ n ∧ (rest.length < segs.length ∨ (data.length = n ∧ 0 < segs.length))) := by
  cases segs with
  | nil => exact Or.inl ⟨[], rfl, soft, Or.inr rfl⟩
  | cons seg rest =>
    have tail : Soft rest := fun st here => soft st (List.mem_cons_of_mem _ here)
    cases seg with
    | fail st =>
      obtain rfl := soft st (List.mem_cons_self ..)
      exact Or.inl ⟨rest, rfl, tail, Or.inl (Nat.lt_succ_self _)⟩
    | data bytes =>
      right
      rw [sockRead]
      split
      · rename_i small
        exact ⟨bytes, rest, rfl, tail, Nat.le_succ _, small, Or.inl (Nat.lt_succ_self _)⟩
      · rename_i large
        have len : (bytes.take n).length = n := by
          rw [List.length_take]
          omega
        refine ⟨_, _, rfl, ?_, le_refl _, by omega, Or.inr ⟨len, Nat.succ_pos _⟩⟩
        intro st here
        rcases List.mem_cons.mp here with eq | here
        · cases eq
        · exact tail st here

/-- How the read loop ends on a soft socket: the buffer is full, or the socket is BLOCKED. -/
theorem tcpReadLoop_ends (fuel : Nat) (st : Int) (recvSz : Nat) (r : Receiver g)
    {segs : List Segment} (soft : Soft segs) (enough : segs.length < fuel)
    (fine : ¬ Status.Failed st) {st' : Int} {recvSz' : Nat} {r' : Receiver g} {rest : List Segment}
    (eq : tcpReadLoop fuel st recvSz r segs = (st', recvSz', r', rest)) :
    Soft rest ∧ rest.length ≤ segs.length ∧
      ((r'.inRemain = 0 ∧ ¬ Status.Failed st') ∨
       (r'.inRemain ≠ 0 ∧ st' = Status.blocked ∧ (rest.length < segs.length ∨ rest = []))) := by
  induction fuel generalizing st recvSz r segs with
  | zero => omega
  | succ fuel ih =>
    rw [tcpReadLoop] at eq
    split at eq
    · rename_i full
      cases eq
      exact ⟨soft, le_refl _, Or.inl ⟨full, fine⟩⟩
    rename_i more
    rcases sockRead_soft soft r.inRemain with ⟨rest', read, soft', less⟩ |
      ⟨data, rest', read, soft', le, small, less⟩
    · rw [read] at eq
      cases eq
      refine ⟨soft', ?_, Or.inr ⟨more, rfl, less⟩⟩
      rcases less with less | rfl
      · omega
      · exact Nat.zero_le _
    · rw [read] at eq
      dsimp only at eq
      have nonneg : ¬ Status.Failed (data.length : Int) := by
        simp only [Status.Failed]
        omega
      by_cases shorter : rest'.length < segs.length
      · obtain ⟨soft'', le', ends⟩ := ih _ _ _ soft' (by omega) nonneg eq
        refine ⟨soft'', by omega, ?_⟩
        rcases ends with full | ⟨remaining, blocked, less'⟩
        · exact Or.inl full
        · exact Or.inr ⟨remaining, blocked, less'.imp_left fun h => by omega⟩
      · -- the buffer is full, and the next round ends the loop
        obtain ⟨filled, nonempty⟩ := less.resolve_left shorter
        cases fuel with
        | zero => omega
        | succ fuel =>
          rw [tcpReadLoop, if_pos (by dsimp only; omega)] at eq
          cases eq
          exact ⟨soft', le, Or.inl ⟨by dsimp only; omega, nonneg⟩⟩

/-- A call on a soft socket: it is BLOCKED in the middle of a header or a body, or it looks
at what is now complete. -/
theorem tcpOnRead_soft (r : Receiver g) {segs : List Segment} (soft : Soft segs) (clock : Int × Int)
    (fits : r.inNext + r.inRemain ≤ r.inBuf.length) :
    ∃ data rest time count, segmentBytes segs = data ++ segmentBytes rest ∧
      data.length ≤ r.inRemain ∧ Soft rest ∧ rest.length ≤ segs.length ∧
      (((r.fed data).inRemain ≠ 0 ∧ (rest.length < segs.length ∨ rest = []) ∧
        tcpOnRead r (readInput segs clock) =
          (Status.ok, { r.fed data with tcpRecvTime := time, tcpBytesRecv := count }, rest)) ∨
       ((r.fed data).inRemain = 0 ∧ ∃ st, ¬ Status.Failed st ∧ ∃ st' r',
        tcpOnFrame { r.fed data with tcpRecvTime := time, tcpBytesRecv := count }
          (readInput segs clock) st = (st', r') ∧
        tcpOnRead r (readInput segs clock) = (st', r', rest))) := by
  obtain ⟨data, st, rest, loop, bytes, small⟩ :=
    tcpReadLoop_fed (segs.length + 1) Status.ok 0 r segs fits
  obtain ⟨soft', le, ends⟩ := tcpReadLoop_ends (segs.length + 1) Status.ok 0 r soft
    (Nat.lt_succ_self _) (by decide) loop
  obtain ⟨time, count, read⟩ : ∃ time count, tcpReadBuf r (readInput segs clock) =
      (st, { r.fed data with tcpRecvTime := time, tcpBytesRecv := count }, rest) := by
    unfold tcpReadBuf readInput
    dsimp only
    rw [loop]
    dsimp only
    split
    · exact ⟨_, _, rfl⟩
    · exact ⟨_, _, rfl⟩
  refine ⟨data, rest, time, count, bytes, small, soft', le, ?_⟩
  unfold tcpOnRead
  rw [read]
  dsimp only
  rcases ends with ⟨full, fine⟩ | ⟨more, blocked, less⟩
  · rw [if_neg fun h => fine h.2, if_pos full]
    refine Or.inr ⟨full, _, ?_, _, _, rfl, rfl⟩
    split
    · decide
    · exact fine
  · subst blocked
    rw [if_neg fun h => h.1 rfl, if_pos rfl, if_neg more]
    exact Or.inl ⟨more, less, rfl⟩

end Receiver

/-! ## The frames that are still to come -/

/-- The receiver is in the middle of the first of the frames `rest`, of which it holds
`part`; the others are still in the socket. Only the last frame may tell it to stop. -/
structure Decoding (rest : List (Frame g)) (part : List UInt8) (r : Receiver g)
    (segs : List Segment) : Prop where
  reading : Reading r part
  unfinished : 0 < r.inRemain
  bytes : encodeFrames rest = part ++ segmentBytes segs
  valid : ∀ fr ∈ rest, fr.Valid
  last : ∀ fr ∈ rest.dropLast, fr ≠ .willQuit
  soft : Soft segs

namespace Decoding

variable {rest : List (Frame g)} {part : List UInt8} {r : Receiver g} {segs : List Segment}

/-- A socket that has nothing left has brought every frame. -/
theorem drained (h : Decoding rest part r segs) (empty : segmentBytes segs = []) : rest = [] := by
  have bytes := h.bytes
  rw [empty] at bytes
  have more := h.unfinished
  cases rest with
  | nil => rfl
  | cons fr rest' =>
    exfalso
    have long : 8 ≤ (encodeFrames (fr :: rest')).length := by
      simp only [encodeFrames, List.flatMap_cons, List.length_append]
      cases fr <;> simp only [Frame.encode, List.length_append, length_netLong] <;> omega
    cases h.reading with
    | head len next total holds =>
      rw [bytes, List.append_nil] at long
      omega
    | @body seq b len next total nonneg bound holds =>
      rw [List.append_assoc] at bytes
      have short : 8 + b.length < Sender.pktSize g := by omega
      rcases encodeFrames_head h.valid (length_netLong seq) bytes with
        ⟨_, _, same⟩ | ⟨_, _, same⟩ | ⟨seq', id, val, rest'', eq, _⟩
      · have := netLong_inj (isLong_of_le nonneg bound) (by decide) same
        simp only [heartbeatSeq] at this
        omega
      · have := netLong_inj (isLong_of_le nonneg bound) (by decide) same
        simp only [willQuitSeq] at this
        omega
      · obtain ⟨rfl, rfl⟩ := List.cons.inj eq
        have total' := congrArg List.length bytes
        simp only [encodeFrames, List.flatMap_cons, Frame.encode, List.length_append,
          length_netLong, Vector.length_toList, List.length_nil] at total'
        unfold Sender.pktSize at short
        omega

/-- With no frame to come the receiver waits for a header. -/
theorem between (h : Decoding [] part r segs) : r.inNext + r.inRemain = 8 := by
  have bytes := h.bytes
  cases h.reading with
  | head len next total holds => exact total
  | body =>
    have := congrArg List.length bytes
    simp only [encodeFrames_nil, List.length_nil, List.length_append, length_netLong] at this
    omega

end Decoding

/-- A receiver that has been told to stop, with nothing behind the last word. A further call
takes the word for the header of a record and waits for a body that never comes. -/
structure Stopped (r : Receiver g) (segs : List Segment) : Prop where
  len : r.inBuf.length = Sender.pktSize g
  next : r.inNext = 8
  word : (r.inRemain = 0 ∧ ldLong r.inBuf 0 = willQuitSeq) ∨ r.inRemain = 8 + g.valSize
  empty : segmentBytes segs = []
  soft : Soft segs

theorem Stopped.call {r : Receiver g} {segs : List Segment} (h : Stopped r segs)
    (clock : Int × Int) :
    ∃ st r' segs', tcpOnRead r (readInput segs clock) = (st, r', segs') ∧ ¬ Status.Failed st ∧
      Alike r r' ∧ Stopped r' segs' := by
  have fits : r.inNext + r.inRemain ≤ r.inBuf.length := by
    rw [h.len, h.next, Sender.pktSize]
    rcases h.word with ⟨zero, _⟩ | whole <;> omega
  obtain ⟨data, rest, time, count, bytes, _, soft, _, outcome⟩ :=
    tcpOnRead_soft r h.soft clock fits
  obtain ⟨rfl, left⟩ : data = [] ∧ segmentBytes rest = [] := by
    rw [h.empty] at bytes
    exact List.append_eq_nil_iff.mp bytes.symm
  rw [fed_nil] at outcome
  rcases outcome with ⟨_, _, eq⟩ | ⟨full, st, _, st', r', look, eq⟩
  · exact ⟨_, _, _, eq, by decide, ⟨_, _, _, _, _, rfl⟩, h.len, h.next, h.word, left, soft⟩
  · have word : ldLong r.inBuf 0 = willQuitSeq := by
      rcases h.word with ⟨_, word⟩ | whole
      · exact word
      · omega
    have other : ntohll willQuitSeq ≠ willQuitSeq ∧ ntohll willQuitSeq ≠ heartbeatSeq := by decide
    rw [tcpOnFrame, if_pos h.next] at look
    dsimp only at look
    rw [word, if_neg other.1, if_neg other.2] at look
    obtain ⟨rfl, rfl⟩ := Prod.mk.inj look
    have room : 0 + 8 ≤ r.inBuf.length := by
      rw [h.len, Sender.pktSize]
      omega
    exact ⟨_, _, _, eq, by decide, ⟨_, _, _, _, _, rfl⟩, (length_stLong room).trans h.len, h.next,
      Or.inr rfl, left, soft⟩

/-- What a call can do in the middle of a frame: it moves on towards its end, by what it
takes from the socket or by its header being complete, or the frame is complete. -/
theorem Decoding.call {rest : List (Frame g)} {part : List UInt8} {r : Receiver g}
    {segs : List Segment} (h : Decoding rest part r segs) (clock : Int × Int) :
    ∃ st r' segs', tcpOnRead r (readInput segs clock) = (st, r', segs') ∧ ¬ Status.Failed st ∧
      segs'.length ≤ segs.length ∧
      ((∃ part', Decoding rest part' r' segs' ∧ Alike r r' ∧
        (((segs'.length < segs.length ∨ segs' = []) ∧
            r'.inNext + r'.inRemain = r.inNext + r.inRemain) ∨
          (r.inNext + r.inRemain = 8 ∧ r'.inNext + r'.inRemain ≠ 8))) ∨
       (∃ fr rest', rest = fr :: rest' ∧ Alike (r.takeFrame clock.2 fr) r' ∧
        ((Decoding rest' [] r' segs' ∧ r'.inNext + r'.inRemain = 8) ∨
          (rest' = [] ∧ Stopped r' segs')))) := by
  obtain ⟨data, segs', time, count, split, small, soft, le, outcome⟩ :=
    tcpOnRead_soft r h.soft clock h.reading.fits
  have total : (r.fed data).inNext + (r.fed data).inRemain = r.inNext + r.inRemain := by
    simp only [Receiver.fed]
    omega
  have fed := h.reading.fed small
  have bytes : encodeFrames rest = part ++ data ++ segmentBytes segs' := by
    rw [h.bytes, split, List.append_assoc]
  generalize hr₁ : { r.fed data with tcpRecvTime := time, tcpBytesRecv := count } = r₁ at outcome
  have alike₁ : Alike r r₁ := by
    rw [← hr₁]
    exact ⟨_, _, _, _, _, rfl⟩
  have read : Reading r₁ (part ++ data) := fed.congr (by rw [← hr₁]; exact ⟨rfl, rfl, rfl⟩)
  have total₁ : r₁.inNext + r₁.inRemain = r.inNext + r.inRemain := by
    rw [← hr₁]
    exact total
  have remain₁ : r₁.inRemain = (r.fed data).inRemain := by rw [← hr₁]
  rcases outcome with ⟨remaining, less, eq⟩ | ⟨full, st, fine, st', r', look, eq⟩
  · refine ⟨_, _, _, eq, by decide, le, Or.inl ⟨part ++ data, ?_, alike₁, Or.inl ⟨less, total₁⟩⟩⟩
    exact ⟨read, by omega, bytes, h.valid, h.last, soft⟩
  · obtain ⟨st'', r'', look', fine', took⟩ := read.look (remain₁.trans full) h.valid bytes
      (show (readInput segs clock).clockUpdate = .ok clock.2 from rfl) (fun _ => rfl) fine
    rw [look] at look'
    obtain ⟨rfl, rfl⟩ := Prod.mk.inj look'
    refine ⟨_, _, _, eq, fine', le, ?_⟩
    rcases took with ⟨reading, more, far, eight, alike⟩ |
      ⟨fr, rest', rfl, hpart, alike, reading, stop⟩
    · exact Or.inl ⟨part ++ data, ⟨reading, more, bytes, h.valid, h.last, soft⟩,
        alike₁.trans alike, Or.inr ⟨by omega, by omega⟩⟩
    · have valid : fr.Valid := h.valid fr (List.mem_cons_self ..)
      have left : encodeFrames rest' = segmentBytes segs' := by
        rw [hpart] at bytes
        exact List.append_cancel_left (bytes : fr.encode ++ encodeFrames rest' = _)
      refine Or.inr ⟨fr, rest', rfl, (alike₁.takeFrame clock.2 valid).trans alike, ?_⟩
      by_cases last : fr = .willQuit
      · obtain ⟨next, remain, buf⟩ := stop last
        have empty : rest' = [] := by
          cases rest' with
          | nil => rfl
          | cons x xs => exact absurd last (h.last fr (by simp [List.dropLast]))
        subst empty
        have len := read.len
        have room : 0 + 8 ≤ r₁.inBuf.length := by
          rw [len, Sender.pktSize]
          omega
        refine Or.inr ⟨rfl, ?_, next, Or.inl ⟨remain, ?_⟩, left.symm, soft⟩
        · rw [buf]
          exact (length_stLong room).trans len
        · rw [buf]
          exact ldLong_stLong (by decide) (Nat.zero_le _)
      · have start := reading last
        have zero : r'.inNext = 0 ∧ r'.inRemain = 8 := by
          cases start with
          | head len next total holds => exact ⟨next, by simp only [List.length_nil] at next; omega⟩
        refine Or.inl ⟨⟨start, by omega, left, ?_, ?_, soft⟩, by omega⟩
        · exact fun fr' here => h.valid fr' (List.mem_cons_of_mem _ here)
        · intro fr' here
          refine h.last fr' ?_
          cases rest' with
          | nil => cases here
          | cons x xs => exact List.mem_cons_of_mem _ here

/-- Calls behind the last word change nothing but the in buffer. -/
theorem Stopped.reads {r : Receiver g} {segs : List Segment} (h : Stopped r segs)
    (calls : List (Int × Int)) :
    Alike r (tcpReads calls r segs).1 ∧ segmentBytes (tcpReads calls r segs).2 = [] := by
  induction calls generalizing r segs with
  | nil => exact ⟨.refl r, h.empty⟩
  | cons clock calls ih =>
    obtain ⟨st, r', segs', eq, fine, alike, stopped⟩ := h.call clock
    rw [tcpReads, eq]
    dsimp only
    rw [if_neg fine]
    obtain ⟨alike', empty⟩ := ih stopped
    exact ⟨alike.trans alike', empty⟩

/-- Enough calls bring every frame: each takes something from the socket, or completes the
header or the body it is in. -/
theorem Decoding.reads {rest : List (Frame g)} {part : List UInt8} {r : Receiver g}
    {segs : List Segment} (h : Decoding rest part r segs) (calls : List (Int × Int))
    (enough : segs.length + 2 * rest.length ≤
      calls.length + if r.inNext + r.inRemain = 8 then 0 else 1) :
    ∃ times, times.Sublist (calls.map Prod.snd) ∧ times.length = rest.length ∧
      Alike (r.takeFrames rest times) (tcpReads calls r segs).1 ∧
      segmentBytes (tcpReads calls r segs).2 = [] := by
  induction calls generalizing rest part r segs with
  | nil =>
    rw [List.length_nil] at enough
    obtain rfl : rest = [] := by
      apply List.eq_nil_of_length_eq_zero
      split at enough <;> omega
    rw [if_pos h.between, List.length_nil] at enough
    obtain rfl : segs = [] := List.eq_nil_of_length_eq_zero (by omega)
    exact ⟨[], List.Sublist.refl _, rfl, .refl r, rfl⟩
  | cons clock calls ih =>
    obtain ⟨st, r', segs', eq, fine, le, outcome⟩ := h.call clock
    rw [tcpReads, eq]
    dsimp only
    rw [if_neg fine]
    rw [List.length_cons] at enough
    rcases outcome with ⟨part', next, alike, ahead⟩ | ⟨fr, rest', rfl, alike, next⟩
    · have enough' : segs'.length + 2 * rest.length ≤
          calls.length + if r'.inNext + r'.inRemain = 8 then 0 else 1 := by
        rcases ahead with ⟨less | rfl, same⟩ | ⟨head, body⟩
        · rw [same]
          omega
        · rw [next.drained rfl]
          simp only [List.length_nil]
          omega
        · rw [if_pos head] at enough
          rw [if_neg body]
          omega
      obtain ⟨times, sub, len, alike', empty⟩ := ih next enough'
      exact ⟨times, sub.cons _, len, (alike.takeFrames h.valid times).trans alike', empty⟩
    · have valid : ∀ fr' ∈ rest', fr'.Valid :=
        fun fr' here => h.valid fr' (List.mem_cons_of_mem _ here)
      rcases next with ⟨next, zero⟩ | ⟨rfl, stopped⟩
      · have enough' : segs'.length + 2 * rest'.length ≤
            calls.length + if r'.inNext + r'.inRemain = 8 then 0 else 1 := by
          rw [if_pos zero]
          rw [List.length_cons] at enough
          split at enough <;> omega
        obtain ⟨times, sub, len, alike', empty⟩ := ih next enough'
        exact ⟨clock.2 :: times, sub.cons_cons _, congrArg (· + 1) len,
          (alike.takeFrames valid times).trans alike', empty⟩
      · obtain ⟨alike', empty⟩ := stopped.reads calls
        exact ⟨[clock.2], List.Sublist.cons_cons _ (List.nil_sublist _), rfl,
          alike.trans alike', empty⟩

/-- However the bytes of the frames are cut, and wherever the socket is BLOCKED, enough calls
of `tcp_on_read` leave what processing the frames one at a time does. The time of a
record is that of the call in which its frame was complete. -/
theorem decoding_unsegmented {r : Receiver g} (len : r.inBuf.length = Sender.pktSize g)
    (next : r.inNext = 0) (remain : r.inRemain = 8) {frames : List (Frame g)}
    (valid : ∀ fr ∈ frames, fr.Valid) (last : ∀ fr ∈ frames.dropLast, fr ≠ .willQuit)
    {segs : List Segment} (soft : Soft segs) (bytes : segmentBytes segs = encodeFrames frames)
    (calls : List (Int × Int)) (enough : segs.length + 2 * frames.length ≤ calls.length) :
    ∃ times, times.Sublist (calls.map Prod.snd) ∧ times.length = frames.length ∧
      (tcpReads calls r segs).1.store = (r.takeFrames frames times).store ∧
      (tcpReads calls r segs).1.recordSeqs = (r.takeFrames frames times).recordSeqs ∧
      (tcpReads calls r segs).1.isStopping = (r.takeFrames frames times).isStopping ∧
      segmentBytes (tcpReads calls r segs).2 = [] := by
  have start : Decoding frames [] r segs :=
    ⟨.start len next remain, by omega, bytes.symm, valid, last, soft⟩
  obtain ⟨times, sub, count, alike, empty⟩ := start.reads calls (by omega)
  obtain ⟨_, _, _, _, _, eq⟩ := alike
  rw [eq]
  exact ⟨times, sub, count, rfl, rfl, rfl, empty⟩

def smallFrames : List (Frame small) := [.heartbeat, .record 3 1 (smallValue 7), .willQuit]

/-- Their bytes, cut inside a header, behind a header and inside a body, and the socket
BLOCKED in between. -/
def smallSegments : List Segment :=
  let bytes := encodeFrames smallFrames
  [.data (bytes.take 11), .fail .blocked, .data ((bytes.drop 11).take 5), .fail .blocked,
    .fail .blocked, .data ((bytes.drop 16).take 3), .data (bytes.drop 19)]

theorem decoding_unsegmented_small :
    ∃ times, times.Sublist ((List.replicate 13 ((4 : Int), (5 : Int))).map Prod.snd) ∧
      times.length = smallFrames.length ∧
      (tcpReads (List.replicate 13 (4, 5)) smallReceiver smallSegments).1.store =
        (smallReceiver.takeFrames smallFrames times).store ∧
      (tcpReads (List.replicate 13 (4, 5)) smallReceiver smallSegments).1.recordSeqs =
        (smallReceiver.takeFrames smallFrames times).recordSeqs ∧
      (tcpReads (List.replicate 13 (4, 5)) smallReceiver smallSegments).1.isStopping =
        (smallReceiver.takeFrames smallFrames times).isStopping ∧
      segmentBytes (tcpReads (List.replicate 13 (4, 5)) smallReceiver smallSegments).2 = [] := by
  apply decoding_unsegmented rfl rfl rfl
  · intro fr here
    rcases List.mem_cons.mp here with rfl | here
    · trivial
    rcases List.mem_cons.mp here with rfl | here
    · exact ⟨by decide, by decide, by decide⟩
    · obtain rfl := List.mem_singleton.mp here
      trivial
  · simp [smallFrames]
  · intro st here
    simpa [smallSegments] using here
  · rfl
  · decide

end Lancaster
