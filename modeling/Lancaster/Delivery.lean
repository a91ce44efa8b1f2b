import Lancaster.TcpFrames
import Lancaster.GapRequests

/-!
# What a receiver takes from a datagram and from its connection

The handlers of the receiver in terms of what the sender put in: a datagram is the list of
its records, and the bytes of a connection are a list of frames. A handler that fails has
taken the first records of a datagram; one that succeeds has taken them all.
-/

namespace Lancaster

open Bytes
open Receiver (McastInput TcpReadInput Segment segmentBytes)

variable {g : Geometry}

/-- The calls of `update_record`: sequence, identifier and value. -/
def updates (acts : List (RecvAct g)) : List (Int × Int × Value g) :=
  acts.filterMap fun
    | .update seq id val => some (seq, id, val)
    | _ => none

theorem updates_append (as bs : List (RecvAct g)) :
    updates (as ++ bs) = updates as ++ updates bs := by
  simp [updates]

structure Quiet (r r' : Receiver g) : Prop where
  seqs : r'.recordSeqs = r.recordSeqs
  vals : ∀ id, (r'.store.record id).val = (r.store.record id).val
  ups : updates r'.acts = updates r.acts

structure Wrote (seq id : Int) (val : Value g) (r r' : Receiver g) : Prop where
  seqs : r'.recordSeqs = fun i => if i = id - g.baseId then seq else r.recordSeqs i
  vals : ∀ i, (r'.store.record i).val = if i = id then val else (r.store.record i).val
  ups : updates r'.acts = updates r.acts ++ [(seq, id, val)]

structure SameIn (r r' : Receiver g) : Prop where
  buf : r'.inBuf = r.inBuf
  next : r'.inNext = r.inNext
  remain : r'.inRemain = r.inRemain

/-- Records are updated one after the other, under one sequence. -/
inductive Applied (seq : Int) : List (Int × Value g) → Receiver g → Receiver g → Prop where
  | nil (r : Receiver g) : Applied seq [] r r
  | cons {id : Int} {val : Value g} {rest : List (Int × Value g)} {r r₁ r₂ : Receiver g}
      (first : Wrote seq id val r r₁) (more : Applied seq rest r₁ r₂) :
      Applied seq ((id, val) :: rest) r r₂

theorem Quiet.refl (r : Receiver g) : Quiet r r := ⟨rfl, fun _ => rfl, rfl⟩

theorem Quiet.trans {r r' r'' : Receiver g} (h : Quiet r r') (h' : Quiet r' r'') : Quiet r r'' :=
  ⟨h'.seqs.trans h.seqs, fun id => (h'.vals id).trans (h.vals id), h'.ups.trans h.ups⟩

theorem SameIn.refl (r : Receiver g) : SameIn r r := ⟨rfl, rfl, rfl⟩

theorem SameIn.trans {r r' r'' : Receiver g} (h : SameIn r r') (h' : SameIn r' r'') :
    SameIn r r'' :=
  ⟨h'.buf.trans h.buf, h'.next.trans h.next, h'.remain.trans h.remain⟩

/-! ## Datagrams -/

namespace Receiver

/-- A record that is in range is updated, unless its lock fails. -/
theorem updateRecord_cases (r : Receiver g) (lock : Except Failure Unit) (seq : Int) {id : Int}
    (val : Value g) (now : Int) (known : g.Holds id) :
    (∃ st : Failure, lock = .error st ∧ updateRecord r lock seq id val now = (st.val, r)) ∨
    (∃ r', updateRecord r lock seq id val now = (Status.ok, r') ∧ Wrote seq id val r r' ∧
      SameIn r r') := by
  unfold updateRecord
  rw [if_pos known]
  cases lock with
  | error st => exact Or.inl ⟨st, rfl, rfl⟩
  | ok _ =>
    right
    have vals : ∀ (st : Storage g) (rec : Record g) i, rec.val = val →
        ((st.setRecord id rec).record i).val = if i = id then val else (st.record i).val := by
      intro st rec i hv
      simp only [Storage.setRecord]
      split <;> simp [hv]
    dsimp only
    split
    · rename_i queue
      have unqueued : ¬ r.qCapacity = 0 := by omega
      simp only [Storage.storageWriteQueue, unqueued, ↓reduceIte]
      refine ⟨_, rfl, ⟨rfl, fun i => vals _ _ i rfl, ?_⟩, rfl, rfl, rfl⟩
      simp [updates]
    · refine ⟨_, rfl, ⟨rfl, fun i => vals _ _ i rfl, ?_⟩, rfl, rfl, rfl⟩
      simp [updates]

/-- The record loop takes the records that were encoded, up to a failure. -/
theorem applyRecords_applied (lock : Int → Except Failure Unit) (seq now : Int)
    (recs : List (Int × Value g)) (known : ∀ rec ∈ recs, g.Holds rec.1) (pre junk : List UInt8)
    (fuel : Nat) (enough : recs.length ≤ fuel) (r : Receiver g) :
    ∃ done st r', applyRecords lock seq (pre ++ (encodeRecords recs ++ junk))
        (pre.length + recs.length * (8 + g.valSize)) now fuel pre.length r = (st, r') ∧
      done <+: recs ∧ Applied seq done r r' ∧ SameIn r r' ∧
      (¬ Status.Failed st → done = recs ∧ st = Status.ok) ∧
      (Status.Failed st → ∃ id e, lock id = .error e) := by
  induction recs generalizing pre fuel r with
  | nil =>
    refine ⟨[], Status.ok, r, ?_, List.prefix_rfl, .nil r, .refl r, fun _ => ⟨rfl, rfl⟩,
      fun failed => absurd failed (by decide)⟩
    cases fuel <;> simp [applyRecords]
  | cons rec rest ih =>
    obtain ⟨id, val⟩ := rec
    cases fuel with
    | zero => simp at enough
    | succ fuel =>
    have hid : g.Holds id := known (id, val) (List.mem_cons_self ..)
    have inside : pre.length < pre.length + ((id, val) :: rest).length * (8 + g.valSize) := by
      have : 0 < ((id, val) :: rest).length * (8 + g.valSize) :=
        Nat.mul_pos (Nat.succ_pos _) (by omega)
      omega
    have bytes : pre ++ (encodeRecords ((id, val) :: rest) ++ junk) =
        pre ++ (netLong id ++ (val.toList ++ (encodeRecords rest ++ junk))) := by
      simp [encodeRecords, encodeRecord]
    have readId : ntohll (ldLong (pre ++ (encodeRecords ((id, val) :: rest) ++ junk)) pre.length) =
        id := by
      rw [bytes]
      exact ntohll_netLong hid.isLong pre _
    have readVal : Value.load g (pre ++ (encodeRecords ((id, val) :: rest) ++ junk))
        (pre.length + 8) = val := by
      have loaded := load_append (pre ++ netLong id) (encodeRecords rest ++ junk) val
      rw [List.length_append, length_netLong, List.append_assoc] at loaded
      rw [bytes, loaded]
    rw [applyRecords, if_pos inside]
    dsimp only
    rw [readId, readVal]
    rcases updateRecord_cases r (lock id) seq val now hid with ⟨st, held, failed⟩ |
      ⟨r₁, wrote, one, same⟩
    · rw [failed]
      dsimp only
      rw [if_pos st.2]
      exact ⟨[], st.val, r, rfl, List.nil_prefix, .nil r, .refl r, fun fine => absurd st.2 fine,
        fun _ => ⟨id, st, held⟩⟩
    · rw [wrote]
      dsimp only
      rw [if_neg (by decide)]
      obtain ⟨done, st, r₂, eq, part, applied, same', all, held⟩ := ih
        (fun rec hr => known rec (List.mem_cons_of_mem _ hr)) (pre ++ encodeRecord (id, val)) fuel
        (by simpa using enough) r₁
      refine ⟨(id, val) :: done, st, r₂, ?_, ?_, .cons one applied, same.trans same', ?_, held⟩
      · have whole : pre ++ encodeRecord (id, val) ++ (encodeRecords rest ++ junk) =
            pre ++ (encodeRecords ((id, val) :: rest) ++ junk) := by simp [encodeRecords]
        have last : pre.length + (8 + g.valSize) + rest.length * (8 + g.valSize) =
            pre.length + ((id, val) :: rest).length * (8 + g.valSize) := by
          rw [List.length_cons]
          ring
        rw [List.length_append, length_encodeRecord, whole, last] at eq
        exact eq
      · exact List.cons_prefix_cons.mpr ⟨rfl, part⟩
      · intro fine
        obtain ⟨rfl, ok⟩ := all fine
        exact ⟨rfl, ok⟩

theorem requestGap_quiet (r : Receiver g) (setEvent lockStats : Except Failure Unit)
    (low high : Int) : Quiet r (requestGap r setEvent lockStats low high).2 ∧
      SameIn r (requestGap r setEvent lockStats low high).2 := by
  have ups : updates (r.acts ++ [.gap ⟨low, high⟩]) = updates r.acts := by simp [updates]
  unfold requestGap
  cases setEvent with
  | error st => exact ⟨⟨rfl, fun _ => rfl, ups⟩, rfl, rfl, rfl⟩
  | ok _ => cases lockStats <;> exact ⟨⟨rfl, fun _ => rfl, ups⟩, rfl, rfl, rfl⟩

/-- What moving on to a sequence does: a gap is asked for if there is one, and a step that
does not fail has passed it. -/
theorem advance_quiet (r : Receiver g) (inp : McastInput) (seq : Int) (isHb : Bool) :
    ∃ st r', advance r inp seq isHb = (st, r') ∧ Quiet r r' ∧ SameIn r r' ∧
      (¬ Status.Failed st →
        r'.nextSeq = (if r.nextSeq < seq then seq else r.nextSeq) + (if isHb then 0 else 1) ∧
        gapRanges r'.acts =
          gapRanges r.acts ++ if r.nextSeq < seq then [⟨r.nextSeq, seq⟩] else []) := by
  rcases advance_cases r inp seq isHb with ⟨near, eq⟩ | ⟨gap, st, r', hr, outcome⟩
  · refine ⟨_, _, eq, ?_⟩
    have nothing : ¬ r.nextSeq < seq := by omega
    cases isHb with
    | true =>
      refine ⟨.refl r, .refl r, fun _ => ?_⟩
      simp [nothing]
    | false =>
      refine ⟨⟨rfl, fun _ => rfl, rfl⟩, ⟨rfl, rfl, rfl⟩, fun _ => ?_⟩
      simp [nothing]
  · obtain ⟨quiet, same⟩ := requestGap_quiet r inp.setEvent inp.lockStats r.nextSeq seq
    obtain ⟨acts, _⟩ := requestGap_acts r inp.setEvent inp.lockStats r.nextSeq seq
    rw [hr] at quiet same acts
    dsimp only at quiet same acts
    rcases outcome with ⟨hf, eq⟩ | ⟨_, eq⟩
    · exact ⟨_, _, eq, quiet, same, fun fine => absurd hf fine⟩
    · refine ⟨_, _, eq, ⟨quiet.seqs, quiet.vals, quiet.ups⟩, ⟨same.buf, same.next, same.remain⟩,
        fun _ => ?_⟩
      constructor
      · cases isHb <;> simp [gap]
      · simp only [acts, gapRanges_append, gap, ↓reduceIte]
        rfl

/-- A heartbeat announces a sequence. -/
theorem mcastOnPacket_beat (r : Receiver g) (inp : McastInput) (now : Int) {n : Int}
    {stamp : List UInt8} (pos : 0 < n) (bound : n ≤ sequenceMax) :
    mcastOnPacket r inp (datagram (g := g) (-n) stamp []) now = advance r inp n true := by
  unfold sequenceMax at bound
  have seq : ntohll (ldLong (datagram (g := g) (-n) stamp [] ++ inp.junk) 0) = -n :=
    seqOf_datagram ⟨by omega, by omega⟩ stamp [] inp.junk
  have neg : negLong (-n) = n := by
    unfold negLong sequenceMin
    split <;> omega
  rw [mcastOnPacket]
  dsimp only
  rw [seq, if_pos (by omega), neg]

/-- A data packet is late, or its records are taken and then the sequences before it are
asked for. -/
theorem mcastOnPacket_data (r : Receiver g) (inp : McastInput) (now : Int) {n : Int}
    {stamp : List UInt8} {recs : List (Int × Value g)} (nonneg : 0 ≤ n) (bound : n ≤ sequenceMax)
    (len : stamp.length = 8) (known : ∀ rec ∈ recs, g.Holds rec.1) :
    (n < r.nextSeq ∧ mcastOnPacket r inp (datagram n stamp recs) now = (Status.ok, r)) ∨
    (r.nextSeq ≤ n ∧ ∃ done r₁, done <+: recs ∧ Applied n done r r₁ ∧ SameIn r r₁ ∧ Updated r r₁ ∧
      ((∃ st, Status.Failed st ∧ (∃ id e, inp.lock id = .error e) ∧
          mcastOnPacket r inp (datagram n stamp recs) now = (st, r₁)) ∨
       (done = recs ∧ mcastOnPacket r inp (datagram n stamp recs) now =
        advance { r₁ with acts := r₁.acts ++ [.applied n] } inp n false))) := by
  unfold sequenceMax at bound
  have seq : ntohll (ldLong (datagram n stamp recs ++ inp.junk) 0) = n :=
    seqOf_datagram ⟨by omega, by omega⟩ stamp recs inp.junk
  rw [mcastOnPacket]
  dsimp only
  rw [seq, if_neg (by omega)]
  by_cases late : n < r.nextSeq
  · exact Or.inl ⟨late, if_pos late⟩
  refine Or.inr ⟨by omega, ?_⟩
  rw [if_neg late]
  have enough : recs.length ≤ (datagram n stamp recs).length := by
    rw [length_datagram len]
    have : recs.length * 1 ≤ recs.length * (8 + g.valSize) := Nat.mul_le_mul_left _ (by omega)
    omega
  obtain ⟨done, st, r₁, eq, part, applied, same, all, held⟩ :=
    applyRecords_applied inp.lock n now recs
    known (netLong n ++ stamp) inp.junk _ enough r
  have head : (netLong n ++ stamp).length = 16 := by simp [len]
  have bytes : netLong n ++ stamp ++ (encodeRecords recs ++ inp.junk) =
      datagram n stamp recs ++ inp.junk := by simp [datagram]
  have total : (datagram n stamp recs).length = 16 + recs.length * (8 + g.valSize) :=
    length_datagram len
  rw [head, bytes, ← total] at eq
  have updated := applyRecords_updated inp.lock n (datagram n stamp recs ++ inp.junk)
    (datagram n stamp recs).length now (datagram n stamp recs).length 16 r
  rw [eq] at updated ⊢
  refine ⟨done, r₁, part, applied, same, updated, ?_⟩
  dsimp only
  by_cases hf : Status.Failed st
  · rw [if_pos hf]
    exact Or.inl ⟨st, hf, held hf, rfl⟩
  · rw [if_neg hf]
    exact Or.inr ⟨(all hf).1, rfl⟩

end Receiver

/-! ## Frames -/

namespace Receiver

def fed (r : Receiver g) (data : List UInt8) : Receiver g :=
  { r with
    inBuf := poke r.inBuf r.inNext data
    inNext := r.inNext + data.length
    inRemain := r.inRemain - data.length }

theorem fed_nil (r : Receiver g) : r.fed [] = r := by
  simp [fed, poke]

theorem fed_fed (r : Receiver g) {as bs : List UInt8}
    (fits : r.inNext + as.length ≤ r.inBuf.length) :
    (r.fed as).fed bs = r.fed (as ++ bs) := by
  have buf : poke (poke r.inBuf r.inNext as) (r.inNext + as.length) bs =
      poke r.inBuf r.inNext (as ++ bs) := by
    have before : (poke r.inBuf r.inNext as).take (r.inNext + as.length) =
        r.inBuf.take r.inNext ++ as := take_poke_append (by omega)
    have behind : (poke r.inBuf r.inNext as).drop (r.inNext + as.length + bs.length) =
        r.inBuf.drop (r.inNext + as.length + bs.length) := by
      have len : (r.inBuf.take r.inNext ++ as).length = r.inNext + as.length := by
        rw [List.length_append, List.length_take]
        omega
      rw [poke, ← List.drop_drop, ← len, List.drop_left, len, List.drop_drop]
    rw [poke, before, behind, poke, List.length_append, Nat.add_assoc, List.append_assoc]
    simp only [List.append_assoc]
  simp only [fed, buf, List.length_append]
  congr 1 <;> omega

/-- A read takes the next bytes. -/
theorem sockRead_bytes (segs : List Segment) (n : Nat) :
    (∃ st rest, sockRead segs n = (.error st, rest) ∧ segmentBytes segs = segmentBytes rest) ∨
    (∃ data rest, sockRead segs n = (.ok data, rest) ∧
      segmentBytes segs = data ++ segmentBytes rest ∧ data.length ≤ n) := by
  cases segs with
  | nil => exact Or.inl ⟨_, [], rfl, rfl⟩
  | cons seg rest =>
    cases seg with
    | fail st => exact Or.inl ⟨st, rest, rfl, rfl⟩
    | data bytes =>
      right
      rw [sockRead]
      split
      · rename_i small
        exact ⟨bytes, rest, rfl, rfl, small⟩
      · refine ⟨_, _, rfl, ?_, List.length_take_le n bytes⟩
        simp only [segmentBytes, List.flatMap_cons]
        rw [← List.append_assoc, List.take_append_drop]

theorem tcpReadLoop_fed (fuel : Nat) (st : Int) (recvSz : Nat) (r : Receiver g)
    (segs : List Segment) (fits : r.inNext + r.inRemain ≤ r.inBuf.length) :
    ∃ data st' rest, tcpReadLoop fuel st recvSz r segs =
        (st', recvSz + data.length, r.fed data, rest) ∧
      segmentBytes segs = data ++ segmentBytes rest ∧ data.length ≤ r.inRemain := by
  have stay : ∀ (st : Int) rest, segmentBytes segs = segmentBytes rest →
      ∃ data st' rest', (st, recvSz, r, rest) = (st', recvSz + data.length, r.fed data, rest') ∧
        segmentBytes segs = data ++ segmentBytes rest' ∧ data.length ≤ r.inRemain :=
    fun st rest same => ⟨[], st, rest, by simp [fed_nil], same, Nat.zero_le _⟩
  induction fuel generalizing st recvSz r segs with
  | zero => exact stay st segs rfl
  | succ fuel ih =>
    rw [tcpReadLoop]
    split
    · exact stay st segs rfl
    rcases sockRead_bytes segs r.inRemain with ⟨err, rest, eq, same⟩ |
      ⟨data, rest, eq, bytes, small⟩
    · rw [eq]
      exact stay _ rest same
    · rw [eq]
      have len : (poke r.inBuf r.inNext data).length = r.inBuf.length := length_poke (by omega)
      have fits' : (r.fed data).inNext + (r.fed data).inRemain ≤ (r.fed data).inBuf.length := by
        simp only [fed, len]
        omega
      obtain ⟨more, st', rest', eq', bytes', small'⟩ := ih data.length (recvSz + data.length)
        (r.fed data) rest fits' fun st rest₁ same =>
          ⟨[], st, rest₁, by simp [fed_nil], same, Nat.zero_le _⟩
      refine ⟨data ++ more, st', rest', ?_, ?_, ?_⟩
      · rw [fed_fed r (by omega)] at eq'
        rw [List.length_append, ← Nat.add_assoc]
        exact eq'
      · rw [bytes, bytes', List.append_assoc]
      · simp only [fed] at small'
        rw [List.length_append]
        omega

/-- What the reads of one call leave in the buffer, with their statistics. -/
theorem tcpReadBuf_fed (r : Receiver g) (inp : TcpReadInput)
    (fits : r.inNext + r.inRemain ≤ r.inBuf.length) :
    ∃ data rest time bytes st, segmentBytes inp.segs = data ++ segmentBytes rest ∧
      data.length ≤ r.inRemain ∧ tcpReadBuf r inp =
        (st, { r.fed data with tcpRecvTime := time, tcpBytesRecv := bytes }, rest) := by
  obtain ⟨data, st, rest, loop, segs, small⟩ :=
    tcpReadLoop_fed (inp.segs.length + 1) Status.ok 0 r inp.segs fits
  rw [Nat.zero_add] at loop
  unfold tcpReadBuf
  rw [loop]
  dsimp only
  split
  · cases inp.clock with
    | error st2 => exact ⟨data, rest, _, _, st2.val, segs, small, rfl⟩
    | ok now => cases inp.lockStats <;> exact ⟨data, rest, _, _, _, segs, small, rfl⟩
  · exact ⟨data, rest, _, _, st, segs, small, rfl⟩

/-- What a call of `tcp_on_read` comes to: some bytes are read, and if the buffer is full
then it is looked at, unless the call failed before. -/
theorem tcpOnRead_cases (r : Receiver g) (inp : TcpReadInput)
    (fits : r.inNext + r.inRemain ≤ r.inBuf.length) :
    ∃ data rest time bytes, segmentBytes inp.segs = data ++ segmentBytes rest ∧
      data.length ≤ r.inRemain ∧
      ((∃ st, tcpOnRead r inp =
          (st, { r.fed data with tcpRecvTime := time, tcpBytesRecv := bytes }, rest) ∧
        (¬ Status.Failed st → (r.fed data).inRemain ≠ 0)) ∨
       ((r.fed data).inRemain = 0 ∧ ∃ st, ¬ Status.Failed st ∧ ∃ st' r',
        tcpOnFrame { r.fed data with tcpRecvTime := time, tcpBytesRecv := bytes } inp st =
          (st', r') ∧ tcpOnRead r inp = (st', r', rest))) := by
  obtain ⟨data, rest, time, bytes, st₁, segs, small, read⟩ := tcpReadBuf_fed r inp fits
  refine ⟨data, rest, time, bytes, segs, small, ?_⟩
  unfold tcpOnRead
  rw [read]
  dsimp only
  split
  · rename_i hard
    exact Or.inl ⟨st₁, rfl, fun fine => absurd hard.2 fine⟩
  · rename_i soft
    have fine : ¬ Status.Failed (if st₁ = Status.blocked then Status.ok else st₁) := by
      split
      · decide
      · rename_i other
        exact fun hf => soft ⟨other, hf⟩
    split
    · rename_i full
      exact Or.inr ⟨full, _, fine, _, _, rfl, rfl⟩
    · rename_i more
      exact Or.inl ⟨_, rfl, fun _ => more⟩

end Receiver

/-- A frame as a sender encodes it: the records of a frame are those that it has. -/
def Frame.Valid : Frame g → Prop
  | .record seq id _ => 0 ≤ seq ∧ seq ≤ sequenceMax ∧ g.Holds id
  | _ => True

/-- A frame that a running sender puts in: no last word, and records that it has. -/
def Frame.Sound : Frame g → Prop
  | .heartbeat => True
  | .willQuit => False
  | .record seq id _ => 0 ≤ seq ∧ seq ≤ sequenceMax ∧ g.Holds id

theorem Frame.Sound.valid {fr : Frame g} (h : fr.Sound) : fr.Valid := by
  cases fr with
  | record seq id val => exact h
  | _ => trivial

/-- The in buffer holds the bytes of a frame read so far. The header is converted in place
before the body is awaited. -/
inductive Reading (r : Receiver g) : List UInt8 → Prop where
  | head {part} (len : r.inBuf.length = Sender.pktSize g) (next : r.inNext = part.length)
      (total : r.inNext + r.inRemain = 8) (holds : r.inBuf.take r.inNext = part) : Reading r part
  | body {seq b} (len : r.inBuf.length = Sender.pktSize g) (next : r.inNext = 8 + b.length)
      (total : r.inNext + r.inRemain = Sender.pktSize g) (nonneg : 0 ≤ seq)
      (bound : seq ≤ sequenceMax) (holds : r.inBuf.take r.inNext = ofLong seq ++ b) :
      Reading r (netLong seq ++ b)

namespace Reading

variable {r r' : Receiver g} {part : List UInt8}

theorem congr (h : Reading r part) (same : SameIn r r') : Reading r' part := by
  obtain ⟨buf, hnext, remain⟩ := same
  cases h with
  | head len next total holds =>
    exact .head (buf ▸ len) (hnext ▸ next) (by rw [hnext, remain]; exact total)
      (by rw [buf, hnext]; exact holds)
  | body len next total nonneg bound holds =>
    exact .body (buf ▸ len) (hnext ▸ next) (by rw [hnext, remain]; exact total) nonneg bound
      (by rw [buf, hnext]; exact holds)

theorem fits (h : Reading r part) : r.inNext + r.inRemain ≤ r.inBuf.length := by
  cases h with
  | head len next total =>
    rw [total, len, Sender.pktSize]
    omega
  | body len next total => rw [total, len]

theorem fed (h : Reading r part) {data : List UInt8} (small : data.length ≤ r.inRemain) :
    Reading (r.fed data) (part ++ data) := by
  have fits := h.fits
  have len' : (poke r.inBuf r.inNext data).length = r.inBuf.length := length_poke (by omega)
  have taken : (poke r.inBuf r.inNext data).take (r.inNext + data.length) =
      r.inBuf.take r.inNext ++ data := take_poke_append (by omega)
  cases h with
  | head len next total holds =>
    refine .head (len'.trans len) ?_ ?_ ?_
    · simp only [Receiver.fed, List.length_append, next]
    · simp only [Receiver.fed]
      omega
    · simp only [Receiver.fed]
      rw [taken, holds]
  | @body seq b len next total nonneg bound holds =>
    rw [List.append_assoc]
    refine .body (len'.trans len) ?_ ?_ nonneg bound ?_
    · simp only [Receiver.fed, List.length_append, next]
      omega
    · simp only [Receiver.fed]
      omega
    · simp only [Receiver.fed]
      rw [taken, holds, List.append_assoc]

/-- Ready for the next frame. -/
theorem start (len : r.inBuf.length = Sender.pktSize g) (next : r.inNext = 0)
    (remain : r.inRemain = 8) : Reading r [] :=
  .head len next (by omega) (by rw [next, List.take_zero])

theorem len (h : Reading r part) : r.inBuf.length = Sender.pktSize g := by
  cases h <;> assumption

end Reading

/-- Two longs that travel as the same bytes are the same. -/
theorem netLong_inj {x y : Int} (hx : IsLong x) (hy : IsLong y) (same : netLong x = netLong y) :
    x = y := by
  have back : ntohll (ldLong (netLong x) 0) = ntohll (ldLong (netLong y) 0) := by rw [same]
  have read : ∀ z, IsLong z → ntohll (ldLong (netLong z) 0) = z := by
    intro z hz
    have h := ntohll_netLong hz [] []
    simpa using h
  rwa [read x hx, read y hy] at back

theorem isLong_of_le {x : Int} (nonneg : 0 ≤ x) (bound : x ≤ sequenceMax) : IsLong x := by
  unfold sequenceMax at bound
  constructor <;> omega

/-- The first eight bytes of the frames to come. -/
theorem encodeFrames_head {rest : List (Frame g)} (valid : ∀ fr ∈ rest, fr.Valid)
    {part more : List UInt8} (eight : part.length = 8) (bytes : encodeFrames rest = part ++ more) :
    (∃ rest', rest = .heartbeat :: rest' ∧ part = netLong heartbeatSeq) ∨
    (∃ rest', rest = .willQuit :: rest' ∧ part = netLong willQuitSeq) ∨
    (∃ seq id val rest', rest = .record seq id val :: rest' ∧ part = netLong seq ∧
      0 ≤ seq ∧ seq ≤ sequenceMax) := by
  cases rest with
  | nil =>
    have := congrArg List.length bytes
    simp only [encodeFrames_nil, List.length_nil, List.length_append] at this
    omega
  | cons fr rest' =>
    have fine := valid fr (List.mem_cons_self ..)
    cases fr with
    | heartbeat =>
      have bytes : netLong heartbeatSeq ++ encodeFrames rest' = part ++ more := bytes
      exact Or.inl ⟨rest', rfl, (List.append_inj_left bytes (by simp [eight])).symm⟩
    | willQuit =>
      have bytes : netLong willQuitSeq ++ encodeFrames rest' = part ++ more := bytes
      exact Or.inr (Or.inl ⟨rest', rfl, (List.append_inj_left bytes (by simp [eight])).symm⟩)
    | record seq id val =>
      have bytes : netLong seq ++ (netLong id ++ val.toList) ++ encodeFrames rest' = part ++ more :=
        bytes
      rw [List.append_assoc] at bytes
      exact Or.inr (Or.inr ⟨seq, id, val, rest', rfl,
        (List.append_inj_left bytes (by simp [eight])).symm, fine.1, fine.2.1⟩)

/-- A whole record frame at the front of the frames to come. -/
theorem encodeFrames_record {rest : List (Frame g)} (valid : ∀ fr ∈ rest, fr.Valid) {seq : Int}
    (nonneg : 0 ≤ seq) (bound : seq ≤ sequenceMax) {b more : List UInt8}
    (len : b.length = 8 + g.valSize) (bytes : encodeFrames rest = netLong seq ++ b ++ more) :
    ∃ id val rest', rest = .record seq id val :: rest' ∧ b = netLong id ++ val.toList ∧
      g.Holds id := by
  rw [List.append_assoc] at bytes
  rcases encodeFrames_head valid (length_netLong seq) bytes with
    ⟨rest', _, same⟩ | ⟨rest', _, same⟩ | ⟨seq', id, val, rest', rfl, same, nonneg', bound'⟩
  · have := netLong_inj (isLong_of_le nonneg bound) (by decide) same
    simp only [heartbeatSeq] at this
    omega
  · have := netLong_inj (isLong_of_le nonneg bound) (by decide) same
    simp only [willQuitSeq] at this
    omega
  · obtain rfl := netLong_inj (isLong_of_le nonneg bound) (isLong_of_le nonneg' bound') same
    refine ⟨id, val, rest', rfl, ?_, (valid _ (List.mem_cons_self ..)).2.2⟩
    have bytes : netLong seq ++ (netLong id ++ val.toList) ++ encodeFrames rest' =
        netLong seq ++ (b ++ more) := bytes
    rw [List.append_assoc] at bytes
    have tail := List.append_cancel_left bytes
    exact (List.append_inj_left tail (by simp [len])).symm

namespace Receiver

/-- A frame processed as a whole: a record is updated if the frame is newer than what is
held of it. -/
def takeFrame (now : Int) (r : Receiver g) : Frame g → Receiver g
  | .heartbeat => r
  | .willQuit => { r with isStopping := true }
  | .record seq id val =>
    if r.recordSeqs (id - g.baseId) < seq then (updateRecord r (.ok ()) seq id val now).2 else r

/-- Two receivers that differ in what they have read of a frame. -/
def Alike (r r' : Receiver g) : Prop :=
  ∃ buf next remain time count, r' = { r with
    inBuf := buf, inNext := next, inRemain := remain, tcpRecvTime := time, tcpBytesRecv := count }

theorem Alike.updated {r r' : Receiver g} (h : Alike r r') : Updated r r' := by
  obtain ⟨_, _, _, _, _, rfl⟩ := h
  exact ⟨rfl, rfl, rfl, rfl, [], (List.append_nil _).symm, rfl, rfl⟩

theorem Alike.quiet {r r' : Receiver g} (h : Alike r r') : Quiet r r' := by
  obtain ⟨_, _, _, _, _, rfl⟩ := h
  exact ⟨rfl, fun _ => rfl, rfl⟩

/-- An update does not look at what has been read of a frame. -/
theorem updateRecord_alike (r : Receiver g) (buf : List UInt8) (next remain : Nat) (time : Int)
    (count : Nat) (seq now : Int) {id : Int} (val : Value g) (known : g.Holds id) :
    updateRecord { r with
        inBuf := buf, inNext := next, inRemain := remain, tcpRecvTime := time,
        tcpBytesRecv := count } (.ok ()) seq id val now =
      (Status.ok, { (updateRecord r (.ok ()) seq id val now).2 with
        inBuf := buf, inNext := next, inRemain := remain, tcpRecvTime := time,
        tcpBytesRecv := count }) := by
  unfold updateRecord
  rw [if_pos known, if_pos known]
  dsimp only
  split
  · rename_i queue
    have unqueued : ¬ r.qCapacity = 0 := by omega
    simp only [Storage.storageWriteQueue, unqueued, ↓reduceIte]
  · rfl

theorem Alike.refl (r : Receiver g) : Alike r r := ⟨_, _, _, _, _, rfl⟩

theorem Alike.trans {r r' r'' : Receiver g} (h : Alike r r') (h' : Alike r' r'') : Alike r r'' := by
  obtain ⟨_, _, _, _, _, rfl⟩ := h
  obtain ⟨_, _, _, _, _, rfl⟩ := h'
  exact ⟨_, _, _, _, _, rfl⟩

/-- What is made of a frame does not depend on how it was read. -/
theorem Alike.takeFrame {r r' : Receiver g} (h : Alike r r') (now : Int) {fr : Frame g}
    (valid : fr.Valid) : Alike (r.takeFrame now fr) (r'.takeFrame now fr) := by
  obtain ⟨buf, next, remain, time, count, rfl⟩ := h
  cases fr with
  | heartbeat => exact ⟨_, _, _, _, _, rfl⟩
  | willQuit => exact ⟨_, _, _, _, _, rfl⟩
  | record seq id val =>
    simp only [Receiver.takeFrame]
    split
    · rw [updateRecord_alike r buf next remain time count seq now val valid.2.2]
      exact ⟨_, _, _, _, _, rfl⟩
    · exact ⟨_, _, _, _, _, rfl⟩

variable {r : Receiver g}

/-- The first long of a frame, in place. -/
theorem ntohll_head {x : Int} (hx : IsLong x) (holds : r.inBuf.take 8 = netLong x) :
    ntohll (ldLong r.inBuf 0) = x := by
  have read := ntohll_netLong hx [] (r.inBuf.drop 8)
  rw [List.nil_append, List.length_nil, ← holds, List.take_append_drop] at read
  exact read

/-- The header of a record frame, or a heartbeat. -/
theorem tcpOnFrame_head (inp : TcpReadInput) (st : Int) {x : Int} (hx : IsLong x)
    (next : r.inNext = 8) (holds : r.inBuf.take 8 = netLong x) (stays : x ≠ willQuitSeq) :
    tcpOnFrame r inp st = if x = heartbeatSeq then
        (st, { r with inBuf := stLong r.inBuf 0 x, inNext := 0, inRemain := 8 })
      else (Status.ok, { r with inBuf := stLong r.inBuf 0 x, inRemain := 8 + g.valSize }) := by
  rw [tcpOnFrame, if_pos next]
  dsimp only
  rw [ntohll_head hx holds, if_neg stays]

/-- The last word of a sender. -/
theorem tcpOnFrame_quit (inp : TcpReadInput) (st : Int) (next : r.inNext = 8)
    (holds : r.inBuf.take 8 = netLong willQuitSeq) :
    tcpOnFrame r inp st =
      (st, { r with inBuf := stLong r.inBuf 0 willQuitSeq, isStopping := true }) := by
  rw [tcpOnFrame, if_pos next]
  dsimp only
  rw [ntohll_head (by decide) holds, if_pos rfl]

/-- The body of a record frame: an update, or a record that is there already. -/
theorem tcpOnFrame_body (inp : TcpReadInput) (st : Int) {seq id : Int} {val : Value g}
    (hseq : IsLong seq) (known : g.Holds id) (next : r.inNext = Sender.pktSize g)
    (bytes : r.inBuf = ofLong seq ++ (netLong id ++ val.toList)) {now : Int}
    (clock : inp.clockUpdate = .ok now) (lock : inp.lock id = .ok ()) (fine : ¬ Status.Failed st) :
    ∃ st' r', tcpOnFrame r inp st = (st', r') ∧ ¬ Status.Failed st' ∧
      r'.inBuf.length = r.inBuf.length ∧ r'.inNext = 0 ∧ r'.inRemain = 8 ∧
      Alike (r.takeFrame now (.record seq id val)) r' := by
  have readId : ntohll (ldLong r.inBuf 8) = id := by
    have read := ntohll_netLong known.isLong (ofLong seq) val.toList
    rw [length_ofLong, ← bytes] at read
    exact read
  have converted : stLong r.inBuf 8 id = ofLong seq ++ (ofLong id ++ val.toList) := by
    have done : poke (ofLong seq ++ (netLong id ++ val.toList)) (ofLong seq).length (ofLong id) =
        ofLong seq ++ (ofLong id ++ val.toList) := poke_append (by simp)
    rw [length_ofLong, ← bytes] at done
    exact done
  have readSeq : ldLong (stLong r.inBuf 8 id) 0 = seq := by
    have read := ldLong_append hseq [] (ofLong id ++ val.toList)
    rw [List.nil_append, List.length_nil, ← converted] at read
    exact read
  have readVal : Value.load g (stLong r.inBuf 8 id) 16 = val := by
    have read := load_append (ofLong seq ++ ofLong id) [] val
    rw [List.append_nil, List.append_assoc, ← converted] at read
    simpa using read
  have len : (stLong r.inBuf 8 id).length = r.inBuf.length := by
    rw [converted, bytes]
    simp
  have other : ¬ r.inNext = 8 := by
    rw [next, Sender.pktSize]
    omega
  rw [tcpOnFrame, if_neg other]
  dsimp only
  rw [readId, readSeq, readVal, takeFrame]
  by_cases newer : r.recordSeqs (id - g.baseId) < seq
  · rw [if_pos newer, if_pos newer, clock, lock]
    dsimp only
    rw [updateRecord_alike r _ r.inNext r.inRemain r.tcpRecvTime r.tcpBytesRecv seq now val known]
    have fine' : ¬ Status.Failed Status.ok := by decide
    rw [if_neg fine']
    exact ⟨_, _, rfl, fine', len, rfl, rfl, _, _, _, _, _, rfl⟩
  · rw [if_neg newer, if_neg newer]
    exact ⟨_, _, rfl, fine, len, rfl, rfl, _, _, _, _, _, rfl⟩

end Receiver

def Took (r r' : Receiver g) : Frame g → Prop
  | .record seq id val => (r.recordSeqs (id - g.baseId) < seq → Wrote seq id val r r') ∧
      (¬ r.recordSeqs (id - g.baseId) < seq → Quiet r r')
  | _ => Quiet r r'

theorem Wrote.quiet {seq id : Int} {val : Value g} {r r' r'' : Receiver g}
    (h : Wrote seq id val r r') (after : Quiet r' r'') : Wrote seq id val r r'' :=
  ⟨after.seqs.trans h.seqs, fun i => (after.vals i).trans (h.vals i), after.ups.trans h.ups⟩

theorem Quiet.wrote {seq id : Int} {val : Value g} {r r' r'' : Receiver g} (before : Quiet r r')
    (h : Wrote seq id val r' r'') : Wrote seq id val r r'' := by
  refine ⟨?_, fun i => ?_, ?_⟩
  · rw [h.seqs, before.seqs]
  · rw [h.vals, before.vals]
  · rw [h.ups, before.ups]

theorem Took.quiet {r r' r'' : Receiver g} {fr : Frame g} (h : Took r r' fr)
    (after : Quiet r' r'') :
    Took r r'' fr := by
  cases fr with
  | record seq id val =>
    exact ⟨fun newer => (h.1 newer).quiet after, fun older => (h.2 older).trans after⟩
  | _ => exact Quiet.trans h after

theorem Quiet.took {r r' r'' : Receiver g} {fr : Frame g} (before : Quiet r r')
    (h : Took r' r'' fr) :
    Took r r'' fr := by
  cases fr with
  | record seq id val =>
    simp only [Took, before.seqs] at h
    exact ⟨fun newer => before.wrote (h.1 newer), fun older => before.trans (h.2 older)⟩
  | _ => exact before.trans h

theorem Receiver.takeFrame_took (now : Int) (r : Receiver g) {fr : Frame g} (valid : fr.Valid) :
    Took r (r.takeFrame now fr) fr ∧ Updated r (r.takeFrame now fr) := by
  cases fr with
  | heartbeat => exact ⟨.refl r, .refl r⟩
  | willQuit => exact ⟨⟨rfl, fun _ => rfl, rfl⟩, rfl, rfl, rfl, rfl, [], (List.append_nil _).symm, rfl, rfl⟩
  | record seq id val =>
    simp only [Took, takeFrame]
    by_cases newer : r.recordSeqs (id - g.baseId) < seq
    · rw [if_pos newer]
      refine ⟨⟨fun _ => ?_, fun older => absurd newer older⟩,
        updateRecord_updated r (.ok ()) seq id val now⟩
      rcases updateRecord_cases r (.ok ()) seq val now valid.2.2 with ⟨_, failed, _⟩ |
        ⟨r', eq, one, _⟩
      · cases failed
      · rw [eq]
        exact one
    · rw [if_neg newer]
      exact ⟨⟨fun new => absurd new newer, fun _ => .refl r⟩, .refl r⟩

/-- A full buffer is the header of a record frame, or the end of the first frame to come. -/
theorem Reading.look {r : Receiver g} {part more : List UInt8} {rest : List (Frame g)}
    (h : Reading r part) (full : r.inRemain = 0) (valid : ∀ fr ∈ rest, fr.Valid)
    (bytes : encodeFrames rest = part ++ more) {inp : TcpReadInput} {st now : Int}
    (clock : inp.clockUpdate = .ok now) (lock : ∀ id, inp.lock id = .ok ())
    (fine : ¬ Status.Failed st) :
    ∃ st' r', Receiver.tcpOnFrame r inp st = (st', r') ∧ ¬ Status.Failed st' ∧
      ((Reading r' part ∧ 0 < r'.inRemain ∧ 8 ≤ r'.inNext ∧ r.inNext + r.inRemain = 8 ∧
          Receiver.Alike r r') ∨
       (∃ fr rest', rest = fr :: rest' ∧ part = fr.encode ∧
          Receiver.Alike (r.takeFrame now fr) r' ∧ (fr ≠ .willQuit → Reading r' []) ∧
          (fr = .willQuit → r'.inNext = 8 ∧ r'.inRemain = 0 ∧
            r'.inBuf = stLong r.inBuf 0 willQuitSeq))) := by
  cases h with
  | head len next total holds =>
    have eight : part.length = 8 := by omega
    have position : r.inNext = 8 := by omega
    have room : 0 + 8 ≤ r.inBuf.length := by
      rw [len, Sender.pktSize]
      omega
    rw [position] at holds
    rcases encodeFrames_head valid eight bytes with ⟨rest', rfl, same⟩ | ⟨rest', rfl, same⟩ |
      ⟨seq, id, val, rest', rfl, same, nonneg, bound⟩
    · have eq := Receiver.tcpOnFrame_head inp st (by decide) position (holds.trans same) (by decide)
      rw [if_pos rfl] at eq
      refine ⟨_, _, eq, fine, Or.inr ⟨.heartbeat, rest', rfl, same, ⟨_, _, _, _, _, rfl⟩,
        fun _ => ?_, by simp⟩⟩
      exact .start ((length_stLong room).trans len) rfl rfl
    · have eq := Receiver.tcpOnFrame_quit inp st position (holds.trans same)
      exact ⟨_, _, eq, fine, Or.inr ⟨.willQuit, rest', rfl, same, ⟨_, _, _, _, _, rfl⟩,
        fun other => absurd rfl other, fun _ => ⟨position, full, rfl⟩⟩⟩
    · have plain : seq ≠ heartbeatSeq := by
        unfold heartbeatSeq
        omega
      have stays : seq ≠ willQuitSeq := by
        unfold willQuitSeq
        omega
      have eq := Receiver.tcpOnFrame_head inp st (isLong_of_le nonneg bound) position
        (holds.trans same) stays
      rw [if_neg plain] at eq
      refine ⟨_, _, eq, by decide, Or.inl ⟨?_, ?_, ?_, total, _, _, _, _, _, rfl⟩⟩
      · rw [same, ← List.append_nil (netLong seq)]
        refine .body ((length_stLong room).trans len) position ?_ nonneg bound ?_
        · simp only [position, Sender.pktSize]
          omega
        · simp only [position, List.append_nil, stLong]
          have taken : (poke r.inBuf 0 (ofLong seq)).take (0 + (ofLong seq).length) =
              r.inBuf.take 0 ++ ofLong seq := take_poke_append (Nat.zero_le _)
          simpa using taken
      · dsimp only
        omega
      · dsimp only
        omega
  | @body seq b len next total nonneg bound holds =>
    have blen : b.length = 8 + g.valSize := by
      unfold Sender.pktSize at total
      omega
    have position : r.inNext = Sender.pktSize g := by omega
    obtain ⟨id, val, rest', rfl, same, known⟩ := encodeFrames_record valid nonneg bound blen bytes
    rw [position, ← len, List.take_length, same] at holds
    obtain ⟨st', r', eq, fine', len', next', remain', alike⟩ := Receiver.tcpOnFrame_body inp st
      (isLong_of_le nonneg bound) known position holds clock (lock id) fine
    refine ⟨st', r', eq, fine', Or.inr ⟨.record seq id val, rest', rfl, ?_, alike,
      fun _ => ?_, by simp⟩⟩
    · rw [same]
      rfl
    · exact .start (len'.trans len) next' remain'

namespace Receiver

theorem tcpWriteBuf_out (r : Receiver g) (results : List (Except Failure Nat)) :
    ∃ next remain, (tcpWriteBuf r results).2.1 =
      { r with outNext := next, outRemain := remain } := by
  induction results generalizing r with
  | nil =>
    unfold tcpWriteBuf
    split <;> exact ⟨_, _, rfl⟩
  | cons result rest ih =>
    cases result with
    | error st =>
      unfold tcpWriteBuf
      split <;> exact ⟨_, _, rfl⟩
    | ok n =>
      rw [tcpWriteBuf]
      split
      · exact ⟨_, _, rfl⟩
      · obtain ⟨next, remain, eq⟩ := ih { r with
          outNext := r.outNext + min n r.outRemain
          outRemain := r.outRemain - min n r.outRemain }
        exact ⟨next, remain, eq⟩

/-- Writing touches the out buffer only. -/
theorem tcpOnWrite_out (r : Receiver g) (results : List (Except Failure Nat))
    (setEvent : Except Failure Unit) :
    ∃ next remain wants, (tcpOnWrite r results setEvent).2.1 =
      { r with outNext := next, outRemain := remain, wantsWrite := wants } := by
  obtain ⟨next, remain, eq⟩ := tcpWriteBuf_out r results
  unfold tcpOnWrite
  dsimp only
  split
  · cases setEvent with
    | error st => exact ⟨next, remain, r.wantsWrite, eq⟩
    | ok _ => exact ⟨next, remain, false, by rw [eq]⟩
  · exact ⟨next, remain, r.wantsWrite, eq⟩

/-- A read completes a frame at most. -/
theorem tcpOnRead_flow {r : Receiver g} {part later : List UInt8} {rest : List (Frame g)}
    (h : Reading r part) (sound : ∀ fr ∈ rest, fr.Sound) (bytes : encodeFrames rest = part ++ later)
    {inp : TcpReadInput} {now : Int} (clock : inp.clockUpdate = .ok now)
    (lock : ∀ id, inp.lock id = .ok ()) (next : segmentBytes inp.segs <+: later) :
    ∃ st r' segs data, tcpOnRead r inp = (st, r', segs) ∧
      segmentBytes inp.segs = data ++ segmentBytes segs ∧ Updated r r' ∧
      ((Reading r' (part ++ data) ∧ Quiet r r') ∨
       (∃ fr rest', rest = fr :: rest' ∧ part ++ data = fr.encode ∧ Reading r' [] ∧
         Took r r' fr)) := by
  obtain ⟨data, segs, time, count, split, small, outcome⟩ := tcpOnRead_cases r inp h.fits
  have fed := h.fed small
  generalize hr₁ : { r.fed data with tcpRecvTime := time, tcpBytesRecv := count } = r₁ at outcome
  have read : Reading r₁ (part ++ data) := fed.congr (by rw [← hr₁]; exact ⟨rfl, rfl, rfl⟩)
  have updated₁ : Updated r r₁ := by
    rw [← hr₁]
    exact ⟨rfl, rfl, rfl, rfl, [], (List.append_nil _).symm, rfl, rfl⟩
  have quiet₁ : Quiet r r₁ := by
    rw [← hr₁]
    exact ⟨rfl, fun id => rfl, rfl⟩
  rcases outcome with ⟨st, eq, _⟩ | ⟨full, st, fine, st', r₂, look, eq⟩
  · exact ⟨st, r₁, segs, data, eq, split, updated₁, Or.inl ⟨read, quiet₁⟩⟩
  -- the frame at the front is looked at
  obtain ⟨more, hmore⟩ : ∃ more, encodeFrames rest = part ++ data ++ more := by
    obtain ⟨more, hmore⟩ := next
    refine ⟨segmentBytes segs ++ more, ?_⟩
    rw [bytes, ← hmore, split, List.append_assoc, List.append_assoc]
  have full₁ : r₁.inRemain = 0 := by
    rw [← hr₁]
    exact full
  obtain ⟨st'', r₃, look', _, took⟩ :=
    read.look full₁ (fun fr here => (sound fr here).valid) hmore clock lock fine
  rw [look] at look'
  obtain ⟨rfl, rfl⟩ := Prod.mk.inj look'
  rcases took with ⟨reading, _, _, _, alike⟩ | ⟨fr, rest', hrest, hpart, alike, reading, _⟩
  · exact ⟨st', r₂, segs, data, eq, split, updated₁.trans alike.updated,
      Or.inl ⟨reading, quiet₁.trans alike.quiet⟩⟩
  · have fine := sound fr (by simp [hrest])
    have going : fr ≠ .willQuit := by
      rintro rfl
      exact fine
    obtain ⟨took, updated⟩ := r₁.takeFrame_took now fine.valid
    exact ⟨st', r₂, segs, data, eq, split, updated₁.trans (updated.trans alike.updated),
      Or.inr ⟨fr, rest', hrest, hpart, reading going, quiet₁.took (took.quiet alike.quiet)⟩⟩

/-- A TCP event reads some bytes, which complete a frame at most, and writes what is left
of a request. -/
theorem eventFunc_flow {r : Receiver g} {part later : List UInt8} {rest : List (Frame g)}
    (h : Reading r part) (sound : ∀ fr ∈ rest, fr.Sound) (bytes : encodeFrames rest = part ++ later)
    (pollin pollout : Bool) (inp : TcpReadInput) (results : List (Except Failure Nat))
    (setEvent : Except Failure Unit) {now : Int} (clock : inp.clockUpdate = .ok now)
    (lock : ∀ id, inp.lock id = .ok ()) (next : segmentBytes inp.segs <+: later) :
    ∃ st r' segs out data, eventFunc r pollin pollout inp results setEvent = (st, r', segs, out) ∧
      segmentBytes inp.segs = data ++ segmentBytes segs ∧ r'.nextSeq = r.nextSeq ∧
      gapRanges r'.acts = gapRanges r.acts ∧
      (∀ written, Requests r written → Requests r' (written ++ out)) ∧
      ((Reading r' (part ++ data) ∧ Quiet r r') ∨
       (∃ fr rest', rest = fr :: rest' ∧ part ++ data = fr.encode ∧ Reading r' [] ∧
         Took r r' fr)) := by
  obtain ⟨st, r₂, segs, data, eq, split, updated, took⟩ :=
    tcpOnRead_flow h sound bytes clock lock next
  have requests : ∀ written, Requests r written → Requests r₂ written := by
    intro written hw
    exact hw.congr updated.outBuf updated.outNext updated.outRemain updated.gaps_eq
  unfold eventFunc
  rw [eq]
  dsimp only
  split
  · refine ⟨st, r₂, segs, [], data, rfl, split, updated.next, updated.gaps_eq, ?_, took⟩
    intro written hw
    rw [List.append_nil]
    exact requests written hw
  split
  · obtain ⟨next', remain', wants, out⟩ := tcpOnWrite_out r₂ results setEvent
    have written : ∀ written, Requests r written →
        Requests (tcpOnWrite r₂ results setEvent).2.1
          (written ++ (tcpOnWrite r₂ results setEvent).2.2) := by
      intro written hw
      exact (requests written hw).tcpOnWrite results setEvent
    generalize tcpOnWrite r₂ results setEvent = u at out written ⊢
    obtain ⟨st', r₃, bytes'⟩ := u
    dsimp only at out written ⊢
    have quiet : Quiet r₂ r₃ := by
      rw [out]
      exact ⟨rfl, fun _ => rfl, rfl⟩
    have same : SameIn r₂ r₃ := by
      rw [out]
      exact ⟨rfl, rfl, rfl⟩
    refine ⟨st', r₃, segs, bytes', data, rfl, split, ?_, ?_, written, ?_⟩
    · rw [out]
      exact updated.next
    · rw [out]
      exact updated.gaps_eq
    · rcases took with ⟨reading, q⟩ | ⟨fr, rest', hrest, hpart, reading, took⟩
      · exact Or.inl ⟨reading.congr same, q.trans quiet⟩
      · exact Or.inr ⟨fr, rest', hrest, hpart, reading.congr same, took.quiet quiet⟩
  · refine ⟨st, r₂, segs, [], data, rfl, split, updated.next, updated.gaps_eq, ?_, took⟩
    intro written hw
    rw [List.append_nil]
    exact requests written hw

/-- The clock or a lock that fails while a frame is applied: nothing is taken. -/
theorem tcpOnFrame_fails (r : Receiver g) (inp : TcpReadInput) (st now : Int) :
    (Status.Failed (tcpOnFrame r inp st).1 ∧ Quiet r (tcpOnFrame r inp st).2) ∨
    ∃ now', tcpOnFrame r inp st =
      tcpOnFrame r { inp with clockUpdate := .ok now', lock := fun _ => .ok () } st := by
  unfold tcpOnFrame
  split
  · exact Or.inr ⟨now, rfl⟩
  dsimp only
  split
  · cases inp.clockUpdate with
    | error e => exact Or.inl ⟨e.2, rfl, fun _ => rfl, rfl⟩
    | ok now' =>
      dsimp only
      cases inp.lock (ntohll (ldLong r.inBuf 8)) with
      | error e =>
        by_cases known : g.Holds (ntohll (ldLong r.inBuf 8))
        · left
          simp only [updateRecord, known, ↓reduceIte, if_pos e.2]
          exact ⟨e.2, rfl, fun _ => rfl, rfl⟩
        · right
          exact ⟨now', by simp only [updateRecord, known, ↓reduceIte]⟩
      | ok _ =>
        right
        refine ⟨now', ?_⟩
        dsimp only
  · exact Or.inr ⟨now, rfl⟩

/-- The same for a whole event with POLLIN. -/
theorem eventFunc_fails (r : Receiver g) (pollout : Bool) (inp : TcpReadInput)
    (results : List (Except Failure Nat)) (setEvent : Except Failure Unit)
    (fits : r.inNext + r.inRemain ≤ r.inBuf.length) :
    (Status.Failed (eventFunc r true pollout inp results setEvent).1 ∧
      Quiet r (eventFunc r true pollout inp results setEvent).2.1) ∨
    ∃ now, eventFunc r true pollout inp results setEvent = eventFunc r true pollout
      { inp with clockUpdate := .ok now, lock := fun _ => .ok () } results setEvent := by
  -- the reads do not depend on the clock and the lock that come behind them
  have read : (∃ st r' rest, tcpOnRead r inp = (st, r', rest) ∧ Status.Failed st ∧ Quiet r r') ∨
      ∃ now, tcpOnRead r inp =
        tcpOnRead r { inp with clockUpdate := .ok now, lock := fun _ => .ok () } := by
    obtain ⟨data, rest, time, bytes, st, _, _, read⟩ := tcpReadBuf_fed r inp fits
    have same : ∀ now, tcpReadBuf r { inp with clockUpdate := .ok now, lock := fun _ => .ok () } =
        (st, { r.fed data with tcpRecvTime := time, tcpBytesRecv := bytes }, rest) := fun _ => read
    unfold tcpOnRead
    simp only [same, read]
    split
    · exact Or.inr ⟨0, rfl⟩
    split
    · rcases tcpOnFrame_fails { r.fed data with tcpRecvTime := time, tcpBytesRecv := bytes } inp
        (if st = Status.blocked then Status.ok else st) 0 with ⟨failed, quiet⟩ | ⟨now, eq⟩
      · exact Or.inl ⟨_, _, _, rfl, failed, quiet.seqs, quiet.vals, quiet.ups⟩
      · exact Or.inr ⟨now, by rw [eq]⟩
    · exact Or.inr ⟨0, rfl⟩
  unfold eventFunc
  rcases read with ⟨st, r', rest, eq, failed, quiet⟩ | ⟨now, eq⟩
  · left
    rw [eq]
    dsimp only
    rw [if_pos ⟨rfl, failed⟩]
    exact ⟨failed, quiet⟩
  · exact Or.inr ⟨now, by rw [eq]⟩

end Receiver

end Lancaster
