import Lancaster.Sender

/-!
# The layout of a packet

A packet is a sequence and a time stamp, then records of an identifier and a value.
`Packet` says that the unsent part of the packet buffer has this layout, with the
bytes of a record that is still being written behind it.
-/

namespace Lancaster

open Bytes Sender

variable {g : Geometry}

def encodeRecord (r : Int × Value g) : List UInt8 := netLong r.1 ++ r.2.toList

def encodeRecords (recs : List (Int × Value g)) : List UInt8 := recs.flatMap encodeRecord

/-- The sequence of a datagram; the negative ones mark heartbeats. -/
def seqOf (data : List UInt8) : Int := ntohll (ldLong data 0)

def recordCount (g : Geometry) (data : List UInt8) : Nat := (data.length - 16) / (8 + g.valSize)

/-- The identifier of the record at position `k` of a datagram. -/
def idAt (g : Geometry) (data : List UInt8) (k : Nat) : Int :=
  ntohll (ldLong data (16 + k * (8 + g.valSize)))

@[simp] theorem length_encodeRecord (r : Int × Value g) :
    (encodeRecord r).length = 8 + g.valSize := by simp [encodeRecord]

@[simp] theorem length_encodeRecords (recs : List (Int × Value g)) :
    (encodeRecords recs).length = recs.length * (8 + g.valSize) := by
  induction recs with
  | nil => simp [encodeRecords]
  | cons r rest ih =>
    have h : encodeRecords (r :: rest) = encodeRecord r ++ encodeRecords rest := rfl
    rw [h, List.length_append, ih, length_encodeRecord, List.length_cons]
    ring

theorem encodeRecords_append (as bs : List (Int × Value g)) :
    encodeRecords (as ++ bs) = encodeRecords as ++ encodeRecords bs := by
  simp [encodeRecords]

def datagram (seq : Int) (stamp : List UInt8) (recs : List (Int × Value g)) : List UInt8 :=
  netLong seq ++ (stamp ++ encodeRecords recs)

theorem length_datagram {seq : Int} {stamp : List UInt8} {recs : List (Int × Value g)}
    (len : stamp.length = 8) :
    (datagram seq stamp recs).length = 16 + recs.length * (8 + g.valSize) := by
  simp only [datagram, List.length_append, length_netLong, length_encodeRecords, len]
  omega

theorem seqOf_datagram {seq : Int} (hseq : IsLong seq) (stamp : List UInt8)
    (recs : List (Int × Value g)) (tail : List UInt8) :
    seqOf (datagram seq stamp recs ++ tail) = seq := by
  have h := ntohll_netLong hseq [] (stamp ++ encodeRecords recs ++ tail)
  simpa only [seqOf, datagram, List.append_assoc, List.nil_append, List.length_nil] using h

/-- The bytes of a datagram around the record at position `k`. -/
theorem datagram_split (seq : Int) {stamp : List UInt8} {recs : List (Int × Value g)}
    (len : stamp.length = 8) (tail : List UInt8) (k : Nat) (h : k < recs.length) :
    ∃ pre post, pre.length = 16 + k * (8 + g.valSize) ∧
      datagram seq stamp recs ++ tail =
        pre ++ (netLong recs[k].1 ++ (recs[k].2.toList ++ post)) := by
  refine ⟨netLong seq ++ (stamp ++ encodeRecords (recs.take k)),
    encodeRecords (recs.drop (k + 1)) ++ tail, ?_, ?_⟩
  · simp only [List.length_append, length_netLong, length_encodeRecords, len, List.length_take]
    rw [Nat.min_eq_left (le_of_lt h)]
    omega
  · have split : encodeRecords recs = encodeRecords (recs.take k) ++
        (encodeRecord recs[k] ++ encodeRecords (recs.drop (k + 1))) := by
      have hcons : encodeRecords (recs[k] :: recs.drop (k + 1)) =
          encodeRecord recs[k] ++ encodeRecords (recs.drop (k + 1)) := rfl
      rw [← hcons, ← encodeRecords_append, List.getElem_cons_drop, List.take_append_drop]
    simp only [datagram, split, encodeRecord, List.append_assoc]

/-- The identifiers of a datagram are those of its records. -/
theorem idAt_datagram {seq : Int} {stamp : List UInt8} {recs : List (Int × Value g)}
    (len : stamp.length = 8) (known : ∀ r ∈ recs, g.Holds r.1) (tail : List UInt8)
    (k : Nat) (h : k < recs.length) :
    idAt g (datagram seq stamp recs ++ tail) k = recs[k].1 := by
  obtain ⟨pre, post, hpre, bytes⟩ := datagram_split seq len tail k h
  have hr : IsLong recs[k].1 := (known _ (List.getElem_mem h)).isLong
  rw [idAt, bytes, ← hpre, ntohll_netLong hr]

def recordsOf (g : Geometry) (data : List UInt8) : List (Int × Value g) :=
  (List.range (recordCount g data)).map fun k =>
    (idAt g data k, Value.load g data (16 + k * (8 + g.valSize) + 8))

theorem load_append (pre post : List UInt8) (v : Value g) :
    Value.load g (pre ++ (v.toList ++ post)) pre.length = v := by
  apply Vector.ext
  intro i hi
  have inside : i < v.toList.length := by simpa using hi
  simp only [Value.load, Vector.getElem_ofFn, List.getD_eq_getElem?_getD]
  rw [List.getElem?_append_right (by omega), Nat.add_sub_cancel_left,
    List.getElem?_append_left inside, List.getElem?_eq_getElem inside, Option.getD_some,
    Vector.getElem_toList]

theorem recordCount_datagram {seq : Int} {stamp : List UInt8} {recs : List (Int × Value g)}
    (len : stamp.length = 8) {tail : List UInt8} (short : tail.length ≤ 8) :
    recordCount g (datagram seq stamp recs ++ tail) = recs.length := by
  have hval := g.valSize_pos
  rw [recordCount, List.length_append, length_datagram len,
    show 16 + recs.length * (8 + g.valSize) + tail.length - 16 =
      tail.length + recs.length * (8 + g.valSize) by omega,
    Nat.add_mul_div_right _ _ (by omega), Nat.div_eq_of_lt (by omega), Nat.zero_add]

theorem recordsOf_datagram {seq : Int} {stamp : List UInt8} {recs : List (Int × Value g)}
    (len : stamp.length = 8) (known : ∀ r ∈ recs, g.Holds r.1) {tail : List UInt8}
    (short : tail.length ≤ 8) : recordsOf g (datagram seq stamp recs ++ tail) = recs := by
  apply List.ext_getElem
  · rw [recordsOf, List.length_map, List.length_range, recordCount_datagram len short]
  intro k hk hk'
  have hid : idAt g (datagram seq stamp recs ++ tail) k = recs[k].1 :=
    idAt_datagram len known tail k hk'
  have hval : Value.load g (datagram seq stamp recs ++ tail) (16 + k * (8 + g.valSize) + 8) =
      recs[k].2 := by
    obtain ⟨pre, post, hpre, bytes⟩ := datagram_split seq len tail k hk'
    have loaded := load_append (pre ++ netLong recs[k].1) post recs[k].2
    rw [List.length_append, length_netLong, hpre, List.append_assoc] at loaded
    rw [bytes, loaded]
  simp only [recordsOf, List.getElem_map, List.getElem_range, hid, hval]

/-! ## Staging -/

namespace Sender

variable (s : Sender g) (id : Int) (usedSz : Nat)

def staged : List (Int × Value g) := recordsOf g s.packet

theorem staged_empty {s : Sender g} (empty : s.pktNext = 0) : s.staged = [] := by
  simp [staged, recordsOf, recordCount, packet, empty]

@[simp] theorem stageId_nextSeq : (s.stageId id usedSz).nextSeq = s.nextSeq := by
  unfold stageId
  split <;> rfl

@[simp] theorem stageId_mcastMtu : (s.stageId id usedSz).mcastMtu = s.mcastMtu := by
  unfold stageId
  split <;> rfl

@[simp] theorem stageId_recordSeqs : (s.stageId id usedSz).recordSeqs = s.recordSeqs := by
  unfold stageId
  split <;> rfl

@[simp] theorem stageId_recordRevs : (s.stageId id usedSz).recordRevs = s.recordRevs := by
  unfold stageId
  split <;> rfl

@[simp] theorem stageId_lastStaged : (s.stageId id usedSz).lastStaged = s.lastStaged := by
  unfold stageId
  split <;> rfl

@[simp] theorem stageId_lastQIdx : (s.stageId id usedSz).lastQIdx = s.lastQIdx := by
  unfold stageId
  split <;> rfl

@[simp] theorem stageId_clientCount : (s.stageId id usedSz).clientCount = s.clientCount := by
  unfold stageId
  split <;> rfl

@[simp] theorem stageId_clients : (s.stageId id usedSz).clients = s.clients := by
  unfold stageId
  split <;> rfl

@[simp] theorem stageId_minSeq : (s.stageId id usedSz).minSeq = s.minSeq := by
  unfold stageId
  split <;> rfl

theorem stageId_pktNext :
    (s.stageId id usedSz).pktNext = s.pktNext + (if usedSz = 0 then 24 else 8) := by
  unfold stageId
  split <;> simp

theorem length_stageId {s : Sender g} {usedSz : Nat}
    (room : (s.stageId id usedSz).pktNext ≤ s.pktBuf.length) :
    (s.stageId id usedSz).pktBuf.length = s.pktBuf.length := by
  rw [stageId_pktNext] at room
  unfold stageId
  split
  · rename_i h
    simp only [h, ↓reduceIte] at room ⊢
    have hlen : (stLong s.pktBuf 0 (htonll s.nextSeq)).length = s.pktBuf.length :=
      length_stLong (by omega)
    rw [length_stLong (by omega), hlen]
  · rename_i h
    simp only [h, ↓reduceIte] at room ⊢
    exact length_stLong (by omega)

end Sender

/-- The unsent packet holds `recs` under the sequence `seq`, and then the first bytes
of a record that is not yet complete. -/
structure Packet (s : Sender g) (seq : Int) (recs : List (Int × Value g)) (tail : List UInt8) :
    Prop where
  bytes : ∃ stamp : List UInt8, stamp.length = 8 ∧ s.packet = datagram seq stamp recs ++ tail
  fits : s.pktNext ≤ s.pktBuf.length

namespace Packet

variable {s : Sender g} {seq : Int} {recs : List (Int × Value g)} {tail : List UInt8}

theorem congr {s' : Sender g} (h : Packet s seq recs tail) (buf : s'.pktBuf = s.pktBuf)
    (next : s'.pktNext = s.pktNext) : Packet s' seq recs tail := by
  obtain ⟨bytes, fits⟩ := h
  exact ⟨by rwa [packet, buf, next], by rwa [buf, next]⟩

theorem size (h : Packet s seq recs tail) :
    s.pktNext = 16 + recs.length * (8 + g.valSize) + tail.length := by
  obtain ⟨⟨stamp, len, hbytes⟩, fits⟩ := h
  have hlen := congrArg List.length hbytes
  rw [packet, List.length_take, List.length_append, length_datagram len] at hlen
  omega

theorem ne_zero (h : Packet s seq recs tail) : s.pktNext ≠ 0 := by
  have := h.size
  omega

/-- The records of the packet can be read back. -/
theorem staged (h : Packet s seq recs tail) (known : ∀ r ∈ recs, g.Holds r.1)
    (short : tail.length ≤ 8) : s.staged = recs := by
  obtain ⟨⟨stamp, len, hbytes⟩, _⟩ := h
  rw [Sender.staged, hbytes]
  exact recordsOf_datagram len known short

/-- The sequence of the buffer is the sequence of the packet. -/
theorem header (h : Packet s seq recs tail) (hseq : IsLong seq) :
    ntohll (ldLong s.pktBuf 0) = seq := by
  have hsize := h.size
  obtain ⟨⟨stamp, len, hbytes⟩, fits⟩ := h
  have hload : ldLong s.packet 0 = ldLong s.pktBuf 0 := ldLong_take (by omega)
  have h := seqOf_datagram hseq stamp recs tail
  rwa [← hbytes, seqOf, hload] at h

/-- Writing the time stamp. -/
theorem stamp (h : Packet s seq recs tail) (now : Int) :
    Packet { s with pktBuf := stLong s.pktBuf 8 (htonll now) } seq recs tail := by
  have hsize := h.size
  obtain ⟨⟨old, len, hbytes⟩, fits⟩ := h
  refine ⟨⟨netLong now, by simp, ?_⟩, ?_⟩
  · have h : poke (netLong seq ++ (old ++ (encodeRecords recs ++ tail))) (netLong seq).length
        (netLong now) = netLong seq ++ (netLong now ++ (encodeRecords recs ++ tail)) :=
      poke_append (by simp [len])
    rw [length_netLong] at h
    rw [packet, stLong_htonll, take_poke_inside (by simp; omega) fits]
    rw [packet] at hbytes
    rw [hbytes]
    simpa only [datagram, List.append_assoc] using h
  · rw [length_stLong (by omega)]
    exact fits

/-- The identifier of the next record goes behind a packet that has room for it. -/
theorem stageId (h : Packet s seq recs []) (id : Int) (room : s.pktNext + 8 ≤ s.pktBuf.length) :
    Packet (s.stageId id s.pktNext) seq recs (netLong id) := by
  have hne := h.ne_zero
  obtain ⟨⟨old, len, hbytes⟩, fits⟩ := h
  have hstate : s.stageId id s.pktNext =
      { s with pktBuf := stLong s.pktBuf s.pktNext (htonll id), pktNext := s.pktNext + 8 } := by
    simp only [Sender.stageId, hne, ↓reduceIte]
  rw [hstate]
  refine ⟨⟨old, len, ?_⟩, ?_⟩
  · have h : (poke s.pktBuf s.pktNext (netLong id)).take (s.pktNext + (netLong id).length) =
        s.pktBuf.take s.pktNext ++ netLong id := take_poke_append fits
    rw [length_netLong] at h
    rw [packet] at hbytes ⊢
    rw [stLong_htonll, h, hbytes, List.append_nil]
  · rw [length_stLong (by omega)]
    exact room

/-- An empty packet is given its header first. -/
theorem stageId_empty (s : Sender g) (id : Int) (empty : s.pktNext = 0)
    (room : 24 ≤ s.pktBuf.length) : Packet (s.stageId id 0) s.nextSeq [] (netLong id) := by
  have hstate : s.stageId id 0 = { s with
      pktBuf := poke (poke s.pktBuf 0 (netLong s.nextSeq)) 16 (netLong id), pktNext := 24 } := by
    simp only [Sender.stageId, empty, ↓reduceIte, stLong_htonll]
  have hlen : (poke s.pktBuf 0 (netLong s.nextSeq)).length = s.pktBuf.length :=
    length_poke (by simp; omega)
  rw [hstate]
  refine ⟨⟨(s.pktBuf.drop 8).take 8, by simp; omega, ?_⟩, ?_⟩
  · have h : (poke (poke s.pktBuf 0 (netLong s.nextSeq)) 16 (netLong id)).take
        (16 + (netLong id).length) = (poke s.pktBuf 0 (netLong s.nextSeq)).take 16 ++ netLong id :=
      take_poke_append (by omega)
    rw [length_netLong] at h
    rw [packet, h]
    simp [poke, datagram, encodeRecords, List.take_append, List.take_of_length_le]
  · rw [length_poke (by simp; omega), hlen]
    exact room

/-- The value completes a record. -/
theorem stageValue {id : Int} (h : Packet s seq recs (netLong id)) (r : Record g)
    (room : s.pktNext + g.valSize ≤ s.pktBuf.length) :
    Packet (s.stageValue id r) seq (recs ++ [(id, r.val)]) [] := by
  obtain ⟨⟨old, len, hbytes⟩, fits⟩ := h
  refine ⟨⟨old, len, ?_⟩, ?_⟩
  · have h : (poke s.pktBuf s.pktNext r.val.toList).take (s.pktNext + r.val.toList.length) =
        s.pktBuf.take s.pktNext ++ r.val.toList := take_poke_append fits
    rw [Vector.length_toList] at h
    rw [packet] at hbytes ⊢
    rw [Sender.stageValue, h, hbytes]
    simp [datagram, encodeRecords, encodeRecord]
  · rw [Sender.stageValue, length_poke (by simpa using room)]
    exact room

/-- A heartbeat is a header alone. -/
theorem beat (s : Sender g) (seq : Int) (empty : s.pktNext = 0) (room : 16 ≤ s.pktBuf.length) :
    Packet (g := g) { s with
      pktBuf := stLong s.pktBuf 0 (htonll seq), pktNext := s.pktNext + 16 } seq [] [] := by
  refine ⟨⟨(s.pktBuf.drop 8).take 8, by simp; omega, ?_⟩, ?_⟩
  · simp [packet, empty, stLong_htonll, poke, datagram, encodeRecords, List.take_append,
      List.take_of_length_le]
  · rw [length_stLong (by omega)]
    simp only [empty]
    omega

end Packet

end Lancaster
