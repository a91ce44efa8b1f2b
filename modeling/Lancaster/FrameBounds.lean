import Lancaster.DatagramBounds

/-!
# The identifiers of gap replies

`tcp_on_read` looks a record's sequence up under the identifier of the frame before
`update_record` looks whether there is such a record. Every other index comes from an
identifier that was checked.
-/

namespace Lancaster

open Bytes Receiver Sender

variable {g : Geometry}

namespace Receiver

/-- The record frame that a call of `tcp_on_read` completes: its sequence and its identifier. -/
def frameRead (r : Receiver g) (inp : TcpReadInput) : Option (Int × Int) :=
  let (st, r, _) := tcpReadBuf r inp
  if st ≠ Status.blocked ∧ Status.Failed st then none
  else if r.inRemain = 0 ∧ r.inNext ≠ 8 then
    some (ldLong r.inBuf 0, ntohll (ldLong r.inBuf 8))
  else none

/-- The indices into `record_seqs` of a call of `tcp_on_read`: the comparison of the frame
with what is there, and the update. -/
def seqAccesses (r : Receiver g) (inp : TcpReadInput) : List Int :=
  match frameRead r inp with
  | none => []
  | some (seq, id) => (id - g.baseId) ::
      if r.recordSeqs (id - g.baseId) < seq ∧ inp.clockUpdate.isOk ∧ Takes g inp.lock id then
        [id - g.baseId]
      else []

/-- Every index is one of the array, and a frame of an unknown record is refused and changes
nothing. -/
def Checked (r : Receiver g) (inp : TcpReadInput) : Prop :=
  (∀ i ∈ seqAccesses r inp, 0 ≤ i ∧ i < g.maxId - g.baseId) ∧
  ∀ seq id, frameRead r inp = some (seq, id) → ¬ g.Holds id →
    (tcpOnRead r inp).1 = Status.invalidRecord ∧
    (tcpOnRead r inp).2.1.store = r.store ∧ (tcpOnRead r inp).2.1.recordSeqs = r.recordSeqs

theorem checked_iff (r : Receiver g) (inp : TcpReadInput) :
    Checked r inp ↔ ∀ seq id, frameRead r inp = some (seq, id) → g.Holds id := by
  constructor
  · rintro ⟨inside, _⟩ seq id frame
    have compared := inside (id - g.baseId) (by simp [seqAccesses, frame])
    constructor <;> omega
  · intro known
    constructor
    · intro i here
      unfold seqAccesses at here
      split at here
      · cases here
      · rename_i seq id frame
        obtain ⟨low, high⟩ := known seq id frame
        have index : i = id - g.baseId := by
          rcases List.mem_cons.mp here with rfl | here
          · rfl
          · split at here
            · exact List.mem_singleton.mp here
            · cases here
        omega
    · exact fun seq id frame unknown => absurd (known seq id frame) unknown

/-- What the poller reports to a receiver: a datagram, or the connection. -/
inductive RecvEvent where
  | mcast (inp : McastInput)
  | tcp (pollin pollout : Bool) (inp : TcpReadInput) (results : List (Except Failure Nat))
      (setEvent : Except Failure Unit)

/-- `event_func` overlooks a failure to read when only POLLOUT is reported. No clock and no
lock that the update of a record needs fails there. -/
def RecvEvent.Steady : RecvEvent → Prop
  | .mcast _ => True
  | .tcp pollin pollout inp _ _ => pollin = false → pollout = true →
      (∃ now, inp.clockUpdate = .ok now) ∧ ∀ id, inp.lock id = .ok ()

/-- A call of `tcp_on_read` that gets past `tcp_read_buf`. -/
def Looks (r : Receiver g) (inp : TcpReadInput) : Prop :=
  ¬ ((tcpReadBuf r inp).1 ≠ Status.blocked ∧ Status.Failed (tcpReadBuf r inp).1)

instance (r : Receiver g) (inp : TcpReadInput) : Decidable (Looks r inp) :=
  inferInstanceAs (Decidable (¬ (_ ∧ _)))

/-- The events of a receiver until one fails or the sender's last word is read: every call of
`tcp_on_read` with what it found, and what a socket with `segs` to read held behind the bytes
that calls have looked at. -/
def recvRun : List RecvEvent → Receiver g → List Segment → List Segment →
    List (Receiver g × TcpReadInput) × List Segment
  | [], _, _, behind => ([], behind)
  | .mcast inp :: rest, r, segs, behind =>
    let (st, r) := mcastOnRead r inp
    if Status.Failed st then ([], behind) else recvRun rest r segs behind
  | .tcp pollin pollout inp results setEvent :: rest, r, segs, behind =>
    let inp := { inp with segs := segs }
    let (st, r', segs, _) := eventFunc r pollin pollout inp results setEvent
    let behind := if Looks r inp then segs else behind
    if Status.Failed st ∨ r'.isStopping then ([(r, inp)], behind)
    else
      let (turns, behind) := recvRun rest r' segs behind
      ((r, inp) :: turns, behind)

/-- The identifiers of the whole record frames in a byte stream, up to the sender's last word. -/
def frameIdsWithin (g : Geometry) : Nat → List UInt8 → List Int
  | 0, _ => []
  | fuel + 1, bytes =>
    if bytes.length < 8 then []
    else if ntohll (ldLong bytes 0) = willQuitSeq then []
    else if ntohll (ldLong bytes 0) = heartbeatSeq then frameIdsWithin g fuel (bytes.drop 8)
    else if bytes.length < pktSize g then []
    else ntohll (ldLong bytes 8) :: frameIdsWithin g fuel (bytes.drop (pktSize g))

def frameIds (g : Geometry) (bytes : List UInt8) : List Int := frameIdsWithin g bytes.length bytes

/-- More fuel finds nothing more. -/
theorem frameIdsWithin_eq {fuel : Nat} {bytes : List UInt8} (enough : bytes.length ≤ fuel) :
    frameIdsWithin g fuel bytes = frameIds g bytes := by
  have size : 8 ≤ pktSize g := by
    rw [pktSize]
    omega
  have all : ∀ n fuel fuel' (bytes : List UInt8), bytes.length ≤ n → bytes.length ≤ fuel →
      bytes.length ≤ fuel' → frameIdsWithin g fuel bytes = frameIdsWithin g fuel' bytes := by
    intro n
    induction n with
    | zero =>
      intro fuel fuel' bytes nothing _ _
      have short : bytes.length < 8 := by omega
      cases fuel <;> cases fuel' <;> simp [frameIdsWithin, short]
    | succ n ih =>
      intro fuel fuel' bytes bound first second
      by_cases short : bytes.length < 8
      · cases fuel <;> cases fuel' <;> simp [frameIdsWithin, short]
      cases fuel with
      | zero => omega
      | succ fuel =>
        cases fuel' with
        | zero => omega
        | succ fuel' =>
          have next : ∀ k, 8 ≤ k → frameIdsWithin g fuel (bytes.drop k) =
              frameIdsWithin g fuel' (bytes.drop k) := by
            intro k inside
            refine ih _ _ _ ?_ ?_ ?_ <;> rw [List.length_drop] <;> omega
          rw [frameIdsWithin, frameIdsWithin, next 8 (le_refl _), next _ size]
  exact all bytes.length _ _ bytes (le_refl _) enough (le_refl _)

/-- The frames of a stream, one at a time. -/
theorem frameIds_eq (bytes : List UInt8) : frameIds g bytes =
    if bytes.length < 8 then []
    else if ntohll (ldLong bytes 0) = willQuitSeq then []
    else if ntohll (ldLong bytes 0) = heartbeatSeq then frameIds g (bytes.drop 8)
    else if bytes.length < pktSize g then []
    else ntohll (ldLong bytes 8) :: frameIds g (bytes.drop (pktSize g)) := by
  by_cases short : bytes.length < 8
  · rw [if_pos short, frameIds]
    cases hl : bytes.length with
    | zero => rfl
    | succ n => rw [frameIdsWithin, if_pos short]
  · obtain ⟨n, hn⟩ : ∃ n, bytes.length = n + 1 := ⟨bytes.length - 1, by omega⟩
    have next : ∀ k, 8 ≤ k → frameIdsWithin g n (bytes.drop k) = frameIds g (bytes.drop k) := by
      intro k enough
      apply frameIdsWithin_eq
      rw [List.length_drop]
      omega
    have size : 8 ≤ pktSize g := by
      rw [pktSize]
      omega
    rw [frameIds, hn, frameIdsWithin, next 8 (le_refl _), next _ size, hn]

section

variable {p more : List UInt8}

theorem ldLong_append_left {off : Nat} (inside : off + 8 ≤ p.length) :
    ldLong (p ++ more) off = ldLong p off := by
  rw [ldLong, peek_append_left inside, ldLong]

theorem frameIds_short (short : p.length < 8) : frameIds g p = [] := by
  rw [frameIds_eq, if_pos short]

theorem frameIds_quit (len : p.length = 8) (quit : ntohll (ldLong p 0) = willQuitSeq) :
    frameIds g (p ++ more) = [] := by
  have long : ¬ (p ++ more).length < 8 := by
    rw [List.length_append]
    omega
  rw [frameIds_eq, if_neg long, ldLong_append_left (by omega), if_pos quit]

theorem frameIds_beat (len : p.length = 8) (beat : ntohll (ldLong p 0) = heartbeatSeq) :
    frameIds g (p ++ more) = frameIds g more := by
  have long : ¬ (p ++ more).length < 8 := by
    rw [List.length_append]
    omega
  have stays : ¬ heartbeatSeq = willQuitSeq := by decide
  rw [frameIds_eq, if_neg long, ldLong_append_left (by omega), beat, if_neg stays, if_pos rfl,
    ← len, List.drop_left]

def Plain (p : List UInt8) : Prop :=
  ntohll (ldLong p 0) ≠ willQuitSeq ∧ ntohll (ldLong p 0) ≠ heartbeatSeq

theorem frameIds_open (long : 8 ≤ p.length) (plain : Plain p) (less : p.length < pktSize g) :
    frameIds g p = [] := by
  rw [frameIds_eq, if_neg (by omega), if_neg plain.1, if_neg plain.2, if_pos less]

theorem frameIds_record (plain : Plain p) (whole : p.length = pktSize g) :
    frameIds g (p ++ more) = ntohll (ldLong p 8) :: frameIds g more := by
  have size : 16 ≤ p.length := by
    rw [whole, pktSize]
    omega
  have long : ¬ (p ++ more).length < 8 := by
    rw [List.length_append]
    omega
  have long' : ¬ (p ++ more).length < pktSize g := by
    rw [List.length_append]
    omega
  rw [frameIds_eq, if_neg long, ldLong_append_left (by omega), if_neg plain.1, if_neg plain.2,
    if_neg long', ldLong_append_left (by omega), ← whole, List.drop_left]

end

/-! ## What leaves the in buffer alone -/

theorem updateRecord_in (r : Receiver g) (lock : Except Failure Unit) (seq id : Int)
    (val : Value g) (now : Int) : SameIn r (updateRecord r lock seq id val now).2 := by
  by_cases known : g.Holds id
  · rcases updateRecord_cases r lock seq val now known with ⟨st, _, eq⟩ | ⟨r', eq, _, same⟩
    · rw [eq]
      exact .refl r
    · rw [eq]
      exact same
  · have refused : updateRecord r lock seq id val now = (Status.invalidRecord, r) := by
      simp [updateRecord, known]
    rw [refused]
    exact .refl r

theorem applyRecords_in (lock : Int → Except Failure Unit) (seq : Int) (buf : List UInt8)
    (last : Nat) (now : Int) (fuel p : Nat) (r : Receiver g) :
    SameIn r (applyRecords lock seq buf last now fuel p r).2 :=
  applyRecords_keeps .refl (fun _ _ _ => .trans)
    (fun r id val => updateRecord_in r (lock id) seq id val now) buf last fuel p r

theorem mcastOnRead_in (r : Receiver g) (inp : McastInput) : SameIn r (mcastOnRead r inp).2 := by
  rcases mcastOnRead_cases r inp with ⟨time, bytes, eq, _⟩ | ⟨data, now, bytes, _, _, _, eq⟩
  · rw [eq]
    exact ⟨rfl, rfl, rfl⟩
  · rw [eq]
    have stats : SameIn r { r with mcastRecvTime := now, mcastBytesRecv := bytes } :=
      ⟨rfl, rfl, rfl⟩
    refine stats.trans ?_
    generalize { r with mcastRecvTime := now, mcastBytesRecv := bytes } = r₁
    have ahead : ∀ (r₂ : Receiver g) seq isHb, SameIn r₂ (advance r₂ inp seq isHb).2 := by
      intro r₂ seq isHb
      obtain ⟨_, _, eq, _, same, _⟩ := advance_quiet r₂ inp seq isHb
      rw [eq]
      exact same
    unfold mcastOnPacket
    dsimp only
    split
    · exact ahead _ _ _
    split
    · exact .refl r₁
    have records := applyRecords_in inp.lock (ntohll (ldLong (data ++ inp.junk) 0))
      (data ++ inp.junk) data.length now data.length 16 r₁
    split
    · exact records
    · refine SameIn.trans ?_ (ahead _ _ _)
      exact ⟨records.buf, records.next, records.remain⟩

/-- A record frame is taken or passed over unless its update fails, and then the next one is
awaited. -/
theorem tcpOnFrame_record (r : Receiver g) (inp : TcpReadInput) {st : Int}
    (fine : ¬ Status.Failed st) (other : r.inNext ≠ 8) :
    (g.Holds (ntohll (ldLong r.inBuf 8)) → (∃ now, inp.clockUpdate = .ok now) →
      (∀ id, inp.lock id = .ok ()) → ¬ Status.Failed (tcpOnFrame r inp st).1) ∧
    (¬ Status.Failed (tcpOnFrame r inp st).1 →
      (tcpOnFrame r inp st).2.inBuf.length =
        (stLong r.inBuf 8 (ntohll (ldLong r.inBuf 8))).length ∧
      (tcpOnFrame r inp st).2.inNext = 0 ∧ (tcpOnFrame r inp st).2.inRemain = 8) := by
  rw [tcpOnFrame, if_neg other]
  dsimp only
  generalize ntohll (ldLong r.inBuf 8) = id
  generalize hbuf : stLong r.inBuf 8 id = buf
  generalize ldLong buf 0 = seq
  generalize Value.load g buf 16 = val
  by_cases newer : r.recordSeqs (id - g.baseId) < seq
  · rw [if_pos newer]
    cases inp.clockUpdate with
    | error e =>
      refine ⟨?_, fun able => absurd e.2 able⟩
      rintro _ ⟨_, clock⟩
      cases clock
    | ok now =>
      dsimp only
      have same := updateRecord_in { r with inBuf := buf } (inp.lock id) seq id val now
      have fails := updateRecord_fails { r with inBuf := buf } inp.lock seq id val now
      generalize updateRecord { r with inBuf := buf } (inp.lock id) seq id val now =
        u at same fails ⊢
      by_cases failed : Status.Failed u.1
      · rw [if_pos failed]
        refine ⟨fun known _ lock => ?_, fun able => absurd failed able⟩
        exact absurd ⟨known, by rw [lock]; rfl⟩ (fails.mp failed)
      · rw [if_neg failed]
        exact ⟨fun _ _ _ => failed, fun _ => ⟨congrArg List.length same.buf, rfl, rfl⟩⟩
  · rw [if_neg newer]
    exact ⟨fun _ _ _ => fine, fun _ => ⟨rfl, rfl, rfl⟩⟩

/-- An event on the connection reads, and then it may write. -/
theorem eventFunc_read (r : Receiver g) (pollin pollout : Bool) (inp : TcpReadInput)
    (results : List (Except Failure Nat)) (setEvent : Except Failure Unit) {st : Int}
    {r' : Receiver g} {segs : List Segment} (read : tcpOnRead r inp = (st, r', segs)) :
    ∃ st' r'' out, eventFunc r pollin pollout inp results setEvent = (st', r'', segs, out) ∧
      SameIn r' r'' ∧ r''.isStopping = r'.isStopping ∧
      (¬ Status.Failed st' → ¬ Status.Failed st ∨ (pollin = false ∧ pollout = true)) := by
  unfold eventFunc
  rw [read]
  dsimp only
  by_cases ends : pollin = true ∧ Status.Failed st
  · rw [if_pos ends]
    exact ⟨_, _, _, rfl, .refl r', rfl, fun fine => absurd ends.2 fine⟩
  rw [if_neg ends]
  cases pollout with
  | false => exact ⟨_, _, _, rfl, .refl r', rfl, fun fine => Or.inl fine⟩
  | true =>
    obtain ⟨next, remain, wants, eq⟩ := tcpOnWrite_out r' results setEvent
    rw [if_pos rfl, eq]
    refine ⟨_, _, _, rfl, ⟨rfl, rfl, rfl⟩, rfl, fun _ => ?_⟩
    cases pollin with
    | false => exact Or.inr ⟨rfl, rfl⟩
    | true => exact Or.inl fun failed => ends ⟨rfl, failed⟩

end Receiver

/-- The in buffer holds the bytes of a frame that calls have looked at, and behind them those
they have not. Nothing is known of what the frame says. -/
inductive Holding (r : Receiver g) : List UInt8 → List UInt8 → Prop where
  | head {part pend} (len : r.inBuf.length = pktSize g)
      (next : r.inNext = (part ++ pend).length) (total : r.inNext + r.inRemain = 8)
      (holds : r.inBuf.take r.inNext = part ++ pend) (short : part.length < 8) :
      Holding r part pend
  | body {hdr host b pend} (len : r.inBuf.length = pktSize g) (eight : hdr.length = 8)
      (eight' : host.length = 8) (plain : Receiver.Plain hdr) (next : r.inNext = 8 + (b ++ pend).length)
      (total : r.inNext + r.inRemain = pktSize g)
      (holds : r.inBuf.take r.inNext = host ++ (b ++ pend))
      (short : 8 + b.length < pktSize g) : Holding r (hdr ++ b) pend

namespace Holding

variable {r r' : Receiver g} {part pend : List UInt8}

theorem fits (h : Holding r part pend) : r.inNext + r.inRemain ≤ r.inBuf.length := by
  cases h with
  | head len next total =>
    rw [total, len, pktSize]
    omega
  | body len _ _ _ next total => rw [total, len]

theorem congr (h : Holding r part pend) (same : SameIn r r') : Holding r' part pend := by
  obtain ⟨buf, hnext, remain⟩ := same
  cases h with
  | head len next total holds short =>
    exact .head (buf ▸ len) (hnext ▸ next) (by rw [hnext, remain]; exact total)
      (by rw [buf, hnext]; exact holds) short
  | body len eight eight' plain next total holds short =>
    exact .body (buf ▸ len) eight eight' plain (hnext ▸ next)
      (by rw [hnext, remain]; exact total) (by rw [buf, hnext]; exact holds) short

/-- Ready for the next frame. -/
theorem start (len : r.inBuf.length = pktSize g) (next : r.inNext = 0) (remain : r.inRemain = 8) :
    Holding r [] [] :=
  .head len next (by omega) (by rw [next, List.take_zero]; rfl) (by simp)

theorem fed (h : Holding r part pend) {data : List UInt8} (small : data.length ≤ r.inRemain) :
    Holding (r.fed data) part (pend ++ data) := by
  have fits := h.fits
  have len' : (poke r.inBuf r.inNext data).length = r.inBuf.length := length_poke (by omega)
  have taken : (poke r.inBuf r.inNext data).take (r.inNext + data.length) =
      r.inBuf.take r.inNext ++ data := take_poke_append (by omega)
  cases h with
  | head len next total holds short =>
    refine .head (len'.trans len) ?_ ?_ ?_ short
    · simp only [Receiver.fed, List.length_append, next, Nat.add_assoc]
    · simp only [Receiver.fed]
      omega
    · simp only [Receiver.fed]
      rw [taken, holds, List.append_assoc]
  | body len eight eight' plain next total holds short =>
    refine .body (len'.trans len) eight eight' plain ?_ ?_ ?_ short
    · simp only [Receiver.fed, List.length_append, next, Nat.add_assoc]
    · simp only [Receiver.fed]
      omega
    · simp only [Receiver.fed]
      rw [taken, holds]
      simp only [List.append_assoc]

/-- Bytes that complete nothing have been looked at when the call returns. -/
theorem seen (h : Holding r part pend) (more : r.inRemain ≠ 0) : Holding r (part ++ pend) [] := by
  cases h with
  | head len next total holds short =>
    refine .head len ?_ total ?_ (by omega)
    · rw [List.append_nil]
      exact next
    · rw [List.append_nil]
      exact holds
  | @body hdr host b _ len eight eight' plain next total holds short =>
    rw [List.append_assoc]
    refine .body len eight eight' plain ?_ total ?_ (by omega)
    · rw [List.append_nil]
      exact next
    · rw [List.append_nil]
      exact holds

theorem frameIds_nil (h : Holding r part pend) : frameIds g part = [] := by
  cases h with
  | head _ _ _ _ short => exact frameIds_short short
  | @body hdr _ b _ _ eight _ plain _ _ _ short =>
    apply frameIds_open
    · rw [List.length_append]
      omega
    · unfold Receiver.Plain
      rw [ldLong_append_left (by omega)]
      exact plain
    · rw [List.length_append]
      omega

/-- What a full buffer comes to: a header alone, or a whole record frame. -/
inductive Looked (r r' : Receiver g) (inp : TcpReadInput) (st : Int) (p : List UInt8) : Prop where
  | quit (len : p.length = 8) (quit : ntohll (ldLong p 0) = willQuitSeq) (initial : r.inNext = 8)
      (stops : r'.isStopping = true)
  | beat (len : p.length = 8) (beat : ntohll (ldLong p 0) = heartbeatSeq) (initial : r.inNext = 8)
      (next : Holding r' [] [])
  | header (initial : r.inNext = 8) (next : Holding r' p [])
  | record (whole : p.length = pktSize g) (plain : Receiver.Plain p) (frame : r.inNext ≠ 8)
      (id : ldLong r.inBuf 8 = ldLong p 8)
      (able : g.Holds (ntohll (ldLong p 8)) → (∃ now, inp.clockUpdate = .ok now) →
        (∀ id, inp.lock id = .ok ()) → ¬ Status.Failed st)
      (next : ¬ Status.Failed st → Holding r' [] [])

theorem look (h : Holding r part pend) (full : r.inRemain = 0) (inp : TcpReadInput) {st : Int}
    (fine : ¬ Status.Failed st) :
    Looked r (tcpOnFrame r inp st).2 inp (tcpOnFrame r inp st).1 (part ++ pend) := by
  have size : 16 < pktSize g := by
    have pos := g.valSize_pos
    rw [pktSize]
    omega
  cases h with
  | head len next total holds short =>
    have eight : r.inNext = 8 := by omega
    have read : ldLong r.inBuf 0 = ldLong (part ++ pend) 0 := by
      rw [← holds, eight, ldLong_take (by omega)]
    have room : (stLong r.inBuf 0 (ntohll (ldLong r.inBuf 0))).length = pktSize g :=
      (length_stLong (by omega)).trans len
    rw [tcpOnFrame, if_pos eight]
    dsimp only
    split
    · rename_i quit
      exact .quit (by omega) (read ▸ quit) eight rfl
    rename_i stays
    split
    · rename_i beat
      exact .beat (by omega) (read ▸ beat) eight (.start room rfl rfl)
    · rename_i plain
      apply Looked.header eight
      -- the header is converted in place, and the body is awaited
      have converted : (stLong r.inBuf 0 (ntohll (ldLong r.inBuf 0))).take 8 =
          ofLong (ntohll (ldLong r.inBuf 0)) := by
        simp [stLong, poke]
      have body : Holding { r with
          inBuf := stLong r.inBuf 0 (ntohll (ldLong r.inBuf 0))
          inRemain := 8 + g.valSize } (part ++ pend ++ []) [] := by
        refine .body room (by omega) (length_ofLong (ntohll (ldLong r.inBuf 0)))
          ⟨read ▸ stays, read ▸ plain⟩ ?_ ?_ ?_ ?_
        · exact eight
        · simp only [eight, pktSize]
          omega
        · simp only [eight, List.append_nil]
          exact converted
        · simp only [List.length_nil]
          omega
      rw [List.append_nil] at body
      exact body
  | @body hdr host b _ len eight eight' plain next total holds short =>
    have whole : r.inNext = pktSize g := by omega
    have other : ¬ r.inNext = 8 := by omega
    have read : ldLong r.inBuf 8 = ldLong (hdr ++ b ++ pend) 8 := by
      have host8 := peek_drop (host ++ (b ++ pend)) 8 0 8
      have hdr8 := peek_drop (hdr ++ (b ++ pend)) 8 0 8
      rw [← eight', List.drop_left] at host8
      rw [← eight, List.drop_left] at hdr8
      rw [← ldLong_take (m := r.inNext) (by omega), holds, List.append_assoc, ldLong, ldLong]
      simp only [Nat.add_zero, eight, eight'] at host8 hdr8
      rw [← host8, hdr8]
    refine .record ?_ ?_ other read ?_ ?_
    · simp only [List.length_append] at next ⊢
      omega
    · unfold Receiver.Plain
      rw [List.append_assoc, ldLong_append_left (by omega)]
      exact plain
    · rw [← read]
      exact (tcpOnFrame_record r inp fine other).1
    · intro able
      obtain ⟨room, next', remain⟩ := (tcpOnFrame_record r inp fine other).2 able
      have inside : 8 + 8 ≤ r.inBuf.length := by omega
      exact .start (room.trans ((length_stLong inside).trans len)) next' remain

/-- A call of `tcp_on_read`: it fails before it looks at its bytes, it completes nothing, or it
looks at what it completed. -/
theorem call (h : Holding r part pend) (inp : TcpReadInput) :
    ∃ data segs st r', segmentBytes inp.segs = data ++ segmentBytes segs ∧
      tcpOnRead r inp = (st, r', segs) ∧
      ((¬ Looks r inp ∧ frameRead r inp = none ∧ Holding r' part (pend ++ data)) ∨
       (Looks r inp ∧ frameRead r inp = none ∧ Holding r' (part ++ (pend ++ data)) []) ∨
       (Looks r inp ∧ ∃ r₁, Looked r₁ r' inp st (part ++ (pend ++ data)) ∧
        frameRead r inp = if r₁.inNext ≠ 8 then
          some (ldLong r₁.inBuf 0, ntohll (ldLong r₁.inBuf 8)) else none)) := by
  obtain ⟨data, segs, time, bytes, st, parts, small, read⟩ := tcpReadBuf_fed r inp h.fits
  have fed : Holding { r.fed data with tcpRecvTime := time, tcpBytesRecv := bytes } part
      (pend ++ data) := (h.fed small).congr ⟨rfl, rfl, rfl⟩
  generalize { r.fed data with tcpRecvTime := time, tcpBytesRecv := bytes } = r₁ at read fed
  unfold Receiver.tcpOnRead frameRead Looks
  rw [read]
  dsimp only
  by_cases hard : st ≠ Status.blocked ∧ Status.Failed st
  · rw [if_pos hard, if_pos hard]
    exact ⟨data, segs, _, _, parts, rfl, Or.inl ⟨fun looks => looks hard, rfl, fed⟩⟩
  rw [if_neg hard, if_neg hard]
  have fine : ¬ Status.Failed (if st = Status.blocked then Status.ok else st) := by
    split
    · decide
    · rename_i other
      exact fun failed => hard ⟨other, failed⟩
  generalize (if st = Status.blocked then Status.ok else st) = st' at fine ⊢
  by_cases full : r₁.inRemain = 0
  · rw [if_pos full]
    refine ⟨data, segs, _, _, parts, rfl, Or.inr (Or.inr ⟨hard, r₁, fed.look full inp fine, ?_⟩)⟩
    simp only [full, true_and]
  · have unclosed : ¬ (r₁.inRemain = 0 ∧ r₁.inNext ≠ 8) := fun both => full both.1
    rw [if_neg full, if_neg unclosed]
    exact ⟨data, segs, _, _, parts, rfl, Or.inr (Or.inl ⟨hard, rfl, fed.seen full⟩)⟩

/-- The calls by what they do to the frames looked at. -/
theorem turn (h : Holding r part pend) (inp : TcpReadInput) :
    ∃ data segs st r', segmentBytes inp.segs = data ++ segmentBytes segs ∧
      Receiver.tcpOnRead r inp = (st, r', segs) ∧
      ((¬ Looks r inp ∧ Checked r inp ∧ Holding r' part (pend ++ data)) ∨
       (Looks r inp ∧
        (Checked r inp ↔ ∀ id ∈ frameIds g (part ++ (pend ++ data)), g.Holds id) ∧
        (r'.isStopping = true ∨ ∃ part',
          (∀ more, frameIds g (part ++ (pend ++ data) ++ more) =
            frameIds g (part ++ (pend ++ data)) ++ frameIds g (part' ++ more)) ∧
          (Checked r inp → (¬ Status.Failed st ∨
              (∃ now, inp.clockUpdate = .ok now) ∧ ∀ id, inp.lock id = .ok ()) →
            Holding r' part' [])))) := by
  obtain ⟨data, segs, st, r', parts, call, outcome⟩ := h.call inp
  refine ⟨data, segs, st, r', parts, call, ?_⟩
  generalize part ++ (pend ++ data) = p at outcome ⊢
  have unread : frameRead r inp = none → Checked r inp := by
    intro absent
    rw [checked_iff, absent]
    intro seq id here
    cases here
  have nothing : frameRead r inp = none → frameIds g p = [] →
      (Checked r inp ↔ ∀ id ∈ frameIds g p, g.Holds id) := by
    intro absent empty
    rw [empty]
    exact ⟨fun _ id here => (List.not_mem_nil here).elim, fun _ => unread absent⟩
  rcases outcome with ⟨blind, absent, next⟩ | ⟨looks, absent, next⟩ | ⟨looks, r₁, looked, frame⟩
  · exact Or.inl ⟨blind, unread absent, next⟩
  · refine Or.inr ⟨looks, nothing absent next.frameIds_nil, Or.inr ⟨p, fun more => ?_, ?_⟩⟩
    · rw [next.frameIds_nil, List.nil_append]
    · exact fun _ _ => next
  · right
    refine ⟨looks, ?_⟩
    cases looked with
    | quit len quit eight stops =>
      rw [if_neg (not_not.mpr eight)] at frame
      have empty : frameIds g p = [] := by
        have ends : frameIds g (p ++ []) = [] := frameIds_quit len quit
        rwa [List.append_nil] at ends
      exact ⟨nothing frame empty, Or.inl stops⟩
    | beat len beat eight next =>
      rw [if_neg (not_not.mpr eight)] at frame
      have empty : frameIds g p = [] := by
        have behind : frameIds g (p ++ []) = frameIds g [] := frameIds_beat len beat
        rw [List.append_nil] at behind
        exact behind.trans next.frameIds_nil
      refine ⟨nothing frame empty, Or.inr ⟨[], fun more => ?_, fun _ _ => next⟩⟩
      rw [empty, frameIds_beat len beat]
      rfl
    | header eight next =>
      rw [if_neg (not_not.mpr eight)] at frame
      refine ⟨nothing frame next.frameIds_nil, Or.inr ⟨p, fun more => ?_, fun _ _ => next⟩⟩
      rw [next.frameIds_nil, List.nil_append]
    | record whole plain other id able next =>
      rw [if_pos other, id] at frame
      have ids : ∀ more, frameIds g (p ++ more) = ntohll (ldLong p 8) :: frameIds g more :=
        fun more => frameIds_record plain whole
      have one : frameIds g p = [ntohll (ldLong p 8)] := by
        have all := ids []
        rw [List.append_nil] at all
        rw [all, frameIds_short (by simp)]
      have known : Checked r inp ↔ g.Holds (ntohll (ldLong p 8)) := by
        rw [checked_iff, frame]
        constructor
        · exact fun all => all _ _ rfl
        · rintro holds seq id' here
          obtain ⟨rfl, rfl⟩ := Prod.mk.inj (Option.some.inj here)
          exact holds
      refine ⟨?_, Or.inr ⟨[], fun more => ?_, ?_⟩⟩
      · rw [known, one]
        simp
      · rw [ids, one]
        rfl
      · rintro checked (fine | ⟨clock, lock⟩)
        · exact next fine
        · exact next (able (known.mp checked) clock lock)

end Holding

namespace Receiver

/-- A call takes bytes from the front of what the socket holds. -/
theorem tcpReadLoop_suffix (fuel : Nat) (st : Int) (recvSz : Nat) (r : Receiver g)
    (segs : List Segment) :
    segmentBytes (tcpReadLoop fuel st recvSz r segs).2.2.2 <:+ segmentBytes segs := by
  induction fuel generalizing st recvSz r segs with
  | zero => exact List.suffix_rfl
  | succ fuel ih =>
    rw [tcpReadLoop]
    split
    · exact List.suffix_rfl
    rcases sockRead_bytes segs r.inRemain with ⟨err, rest, eq, same⟩ | ⟨data, rest, eq, bytes, _⟩
    · rw [eq]
      exact ⟨[], same.symm⟩
    · rw [eq, bytes]
      exact (ih _ _ _ _).trans (List.suffix_append _ _)

theorem tcpOnRead_suffix (r : Receiver g) (inp : TcpReadInput) :
    segmentBytes (Receiver.tcpOnRead r inp).2.2 <:+ segmentBytes inp.segs := by
  have buf : segmentBytes (tcpReadBuf r inp).2.2 <:+ segmentBytes inp.segs := by
    have loop := tcpReadLoop_suffix (inp.segs.length + 1) Status.ok 0 r inp.segs
    unfold tcpReadBuf
    dsimp only
    split
    · cases inp.clock with
      | error st => exact loop
      | ok now => cases inp.lockStats <;> exact loop
    · exact loop
  unfold Receiver.tcpOnRead
  dsimp only
  split
  · exact buf
  · split <;> exact buf

/-- Whatever the events are, the bytes that calls have looked at come first. -/
theorem recvRun_behind (events : List RecvEvent) (r : Receiver g) {segs behind : List Segment}
    (pend : segmentBytes segs <:+ segmentBytes behind) :
    segmentBytes (recvRun events r segs behind).2 <:+ segmentBytes behind := by
  induction events generalizing r segs behind with
  | nil => exact List.suffix_rfl
  | cons e rest ih =>
    cases e with
    | mcast inp =>
      rw [recvRun]
      dsimp only
      split
      · exact List.suffix_rfl
      · exact ih _ pend
    | tcp pollin pollout inp results setEvent =>
      obtain ⟨⟨st, r', segs'⟩, read⟩ : ∃ u, Receiver.tcpOnRead r { inp with segs := segs } = u :=
        ⟨_, rfl⟩
      obtain ⟨st', r'', out, event, _⟩ := eventFunc_read r pollin pollout { inp with segs := segs }
        results setEvent read
      have front : segmentBytes segs' <:+ segmentBytes segs := by
        have suffix := tcpOnRead_suffix r { inp with segs := segs }
        rw [read] at suffix
        exact suffix
      have later : segmentBytes (if Looks r { inp with segs := segs } then segs' else behind) <:+
          segmentBytes behind := by
        split
        · exact front.trans pend
        · exact List.suffix_rfl
      have next : segmentBytes segs' <:+
          segmentBytes (if Looks r { inp with segs := segs } then segs' else behind) := by
        split
        · exact List.suffix_rfl
        · exact front.trans pend
      rw [recvRun]
      simp only [event]
      split
      · exact later
      · exact (ih r'' next).trans later

/-- The run of a receiver that has looked at `part` of a frame. -/
theorem recvRun_checked (events : List RecvEvent) {r : Receiver g} {part pend : List UInt8}
    (h : Holding r part pend) {segs behind : List Segment}
    (bytes : segmentBytes behind = pend ++ segmentBytes segs)
    (steady : ∀ e ∈ events, e.Steady) {read : List UInt8}
    (looked : segmentBytes behind = read ++ segmentBytes (recvRun events r segs behind).2) :
    (∀ turn ∈ (recvRun events r segs behind).1, Checked turn.1 turn.2) ↔
      ∀ id ∈ frameIds g (part ++ read), g.Holds id := by
  induction events generalizing r part pend segs behind read with
  | nil =>
    obtain rfl : read = [] := List.append_left_eq_self.mp looked.symm
    rw [List.append_nil, h.frameIds_nil]
    simp [recvRun]
  | cons e rest ih =>
    have steady' : ∀ e ∈ rest, e.Steady := fun e here => steady e (List.mem_cons_of_mem _ here)
    cases e with
    | mcast inp =>
      have same := mcastOnRead_in r inp
      rw [recvRun] at looked ⊢
      dsimp only at looked ⊢
      split at looked
      · rename_i failed
        obtain rfl : read = [] := List.append_left_eq_self.mp looked.symm
        rw [if_pos failed, List.append_nil, h.frameIds_nil]
        simp
      · rename_i fine
        rw [if_neg fine]
        exact ih (h.congr same) bytes steady' looked
    | tcp pollin pollout inp results setEvent =>
      obtain ⟨data, segs', st, r', parts, call, outcome⟩ := h.turn { inp with segs := segs }
      obtain ⟨st', r'', out, event, same, stops, fine⟩ := eventFunc_read r pollin pollout
        { inp with segs := segs } results setEvent call
      have all : segmentBytes behind = pend ++ data ++ segmentBytes segs' := by
        rw [bytes, List.append_assoc, ← parts]
      rw [recvRun] at looked ⊢
      simp only [event] at looked ⊢
      rcases outcome with ⟨blind, checked, next⟩ | ⟨looks, checked, outcome⟩
      · rw [if_neg blind] at looked ⊢
        by_cases ends : Status.Failed st' ∨ r''.isStopping = true
        · rw [if_pos ends] at looked ⊢
          obtain rfl : read = [] := List.append_left_eq_self.mp looked.symm
          rw [List.append_nil, h.frameIds_nil]
          simpa using checked
        · rw [if_neg ends] at looked ⊢
          have others := ih (next.congr same) all steady' looked
          rw [List.forall_mem_cons, others]
          exact and_iff_right checked
      · rw [if_pos looks] at looked ⊢
        by_cases ends : Status.Failed st' ∨ r''.isStopping = true
        · rw [if_pos ends] at looked ⊢
          rw [all] at looked
          obtain rfl : pend ++ data = read := List.append_cancel_right looked
          rw [← checked]
          simp
        · rw [if_neg ends] at looked ⊢
          obtain ⟨more, split'⟩ := recvRun_behind rest r'' (List.suffix_refl (segmentBytes segs'))
          rw [all, ← split', ← List.append_assoc] at looked
          obtain rfl : pend ++ data ++ more = read := List.append_cancel_right looked
          have running : ¬ r'.isStopping = true := by
            rw [← stops]
            exact fun stop => ends (Or.inr stop)
          obtain ⟨part', ids, next⟩ := outcome.resolve_left running
          rw [List.forall_mem_cons, ← List.append_assoc part, ids,
            List.forall_mem_append, ← checked]
          refine and_congr_right fun good => ih ((next good ?_).congr same) rfl steady' split'.symm
          rcases fine fun failed => ends (Or.inl failed) with able | ⟨hin, hout⟩
          · exact Or.inl able
          · exact Or.inr (steady _ (List.mem_cons_self ..) hin hout)

/-- The index into `record_seqs` is one of the array, and unknown records are refused, in every
call of a run if and only if the record frames it has looked at are all of known records. -/
theorem gap_frames_checked (store : Storage g) (qCapacity : Nat) {inBuf : List UInt8}
    (outBuf : List UInt8) (now : Int) (len : inBuf.length = pktSize g) (events : List RecvEvent)
    (segs : List Segment) (steady : ∀ e ∈ events, e.Steady) :
    ∃ read, segmentBytes segs = read ++ segmentBytes
        (recvRun events (Receiver.init store qCapacity inBuf outBuf now) segs segs).2 ∧
      ((∀ turn ∈ (recvRun events (Receiver.init store qCapacity inBuf outBuf now) segs segs).1,
          Checked turn.1 turn.2) ↔
        ∀ id ∈ frameIds g read, g.Holds id) := by
  obtain ⟨read, looked⟩ := recvRun_behind events
    (Receiver.init store qCapacity inBuf outBuf now) (List.suffix_refl (segmentBytes segs))
  refine ⟨read, looked.symm, ?_⟩
  exact recvRun_checked events (.start len rfl rfl) rfl steady looked.symm

end Receiver

/-- POLLIN, with nothing to write. -/
def Receiver.RecvEvent.pollin : RecvEvent :=
  .tcp true false ⟨[], .ok 0, .ok (), .ok 0, fun _ => .ok ()⟩ [] (.ok ())

theorem Receiver.RecvEvent.pollin_steady : ∀ e ∈ [RecvEvent.pollin, .pollin], e.Steady := by
  intro e here
  obtain rfl | rfl : e = .pollin ∨ e = .pollin := by simpa using here
  all_goals
    intro quiet
    cases quiet

/-- The record frame of an identifier that the storage does not have. -/
def strayFrame : List UInt8 := netLong 3 ++ (netLong 1000 ++ [7])

/-- Its identifier is an index into `record_seqs` before anything has checked it. -/
theorem gap_frame_unchecked :
    ¬ ∀ turn ∈ (recvRun [.pollin, .pollin] smallReceiver [.data strayFrame] [.data strayFrame]).1,
      Checked turn.1 turn.2 := by
  intro checked
  have stray : ∃ turn ∈ (recvRun [.pollin, .pollin] smallReceiver [.data strayFrame]
      [.data strayFrame]).1, 1000 ∈ seqAccesses turn.1 turn.2 := by decide +kernel
  obtain ⟨turn, here, access⟩ := stray
  have bound : (1000 : Int) < 2 - 0 := ((checked turn here).1 1000 access).2
  revert bound
  decide

def knownFrame : List UInt8 := netLong 3 ++ (netLong 1 ++ [7])

theorem gap_frames_checked_small :
    frameIds small knownFrame = [1] ∧
    ∀ turn ∈ (recvRun [.pollin, .pollin] smallReceiver [.data knownFrame] [.data knownFrame]).1,
      Checked turn.1 turn.2 := by
  obtain ⟨read, looked, checked⟩ := gap_frames_checked smallStore 2 (List.replicate 16 0) 0
    (by decide : (List.replicate 17 (0 : UInt8)).length = pktSize small) [.pollin, .pollin]
    [.data knownFrame] RecvEvent.pollin_steady
  have all : segmentBytes (recvRun [.pollin, .pollin] smallReceiver [.data knownFrame]
      [.data knownFrame]).2 = [] := by decide +kernel
  obtain rfl : knownFrame = read := by
    have bytes : segmentBytes [.data knownFrame] = read ++ [] := all ▸ looked
    rw [List.append_nil] at bytes
    exact bytes
  have ids : frameIds small knownFrame = [1] := by decide +kernel
  refine ⟨ids, checked.mpr ?_⟩
  rw [ids]
  decide

end Lancaster
