import Lancaster.Packet
import Lancaster.Transitions

/-!
# The multicast stream

The packet buffer is filled record by record, flushed when it is full or old, reused
for heartbeats and left in place when the socket is BLOCKED. The header is written
with the first record and the sequence is counted when the packet is sent, so the
invariant ties the header, the counter and the labels of the staged records.
-/

namespace Lancaster

open Bytes Interleaving Sender

variable {g : Geometry}

/-- The datagrams of a stream whose next data sequence is the first argument. -/
inductive Stream (g : Geometry) (mtu : Nat) : Int → List (List UInt8) → Prop where
  | nil : Stream g mtu 1 []
  | data {n wire stamp} {recs : List (Int × Value g)} (before : Stream g mtu n wire)
      (len : stamp.length = 8) (nonempty : recs ≠ [])
      (fits : 16 + recs.length * (8 + g.valSize) ≤ mtu) :
      Stream g mtu (n + 1) (wire ++ [datagram n stamp recs])
  | beat {n wire stamp} (before : Stream g mtu n wire) (len : stamp.length = 8) :
      Stream g mtu n (wire ++ [datagram (g := g) (-n) stamp []])

/-- Every record carries the sequence it was staged under. -/
def Labelled (s : Sender g) (seq : Int) (recs : List (Int × Value g)) : Prop :=
  ∀ r ∈ recs, g.Holds r.1 ∧ s.recordSeqs (r.1 - g.baseId) = seq

structure StreamCore (s : Sender g) (w : World g) : Prop where
  len : s.pktBuf.length = s.mcastMtu
  roomy : 24 + g.valSize ≤ s.mcastMtu
  small : s.mcastMtu < 18446744073709551616
  stream : Stream g s.mcastMtu s.nextSeq w.wire
  low : 1 ≤ s.nextSeq
  high : s.nextSeq ≤ sequenceMax

/-- A packet with records in it, under the next sequence. -/
def Staged (s : Sender g) : Prop :=
  ∃ recs, recs ≠ [] ∧ Packet s s.nextSeq recs [] ∧ Labelled s s.nextSeq recs

def Closed (s : Sender g) : Prop := s.pktNext = 0 ∧ s.mcastInsertTime = 0 ∨ Staged s

def Abandoned (s : Sender g) : Prop :=
  s.pktNext = 0 ∨ ∃ seq recs tail, IsLong seq ∧ tail.length ≤ 8 ∧ Packet s seq recs tail ∧
    Labelled s seq recs

def StreamPhase : Phase → Sender g → Prop
  | .beat, s => Packet s (-s.nextSeq) [] [] ∧ s.nextSeq < sequenceMax
  | .flush _ _ _, s => Staged s ∧ s.nextSeq < sequenceMax
  | .flushed _ _ _, s => s.pktNext = 0 ∧ s.nextSeq < sequenceMax
  | .fill _ _ id _, s => (∃ recs, Packet s s.nextSeq recs (netLong id) ∧
      Labelled s s.nextSeq recs) ∧ s.pktNext + g.valSize ≤ s.mcastMtu ∧ s.nextSeq < sequenceMax
  | .staged _ _ _, s => Staged s ∧ s.nextSeq < sequenceMax
  | .failing _ _, s => Abandoned s
  | .dead, s => Abandoned s
  | .quitting, s => Abandoned s
  | .telling _, s => Abandoned s
  | _, s => Closed s ∧ s.nextSeq < sequenceMax

def StreamInv (ph : Phase) (s : Sender g) (w : World g) : Prop :=
  StreamCore s w ∧ StreamPhase ph s

structure SameStream (s s' : Sender g) : Prop where
  buf : s'.pktBuf = s.pktBuf
  next : s'.pktNext = s.pktNext
  seq : s'.nextSeq = s.nextSeq
  seqs : s'.recordSeqs = s.recordSeqs
  mtu : s'.mcastMtu = s.mcastMtu
  insert : s'.mcastInsertTime = s.mcastInsertTime

namespace SameStream

variable {s s' : Sender g} (h : SameStream s s')

include h

theorem packet {seq : Int} {recs : List (Int × Value g)} {tail : List UInt8}
    (hp : Packet s seq recs tail) : Packet s' seq recs tail := hp.congr h.buf h.next

theorem labelled {seq : Int} {recs : List (Int × Value g)} (hl : Labelled s seq recs) :
    Labelled s' seq recs := by
  intro r hr
  rw [h.seqs]
  exact hl r hr

theorem staged (hs : Staged s) : Staged s' := by
  obtain ⟨recs, nonempty, hp, hl⟩ := hs
  exact ⟨recs, nonempty, h.seq ▸ h.packet hp, h.seq ▸ h.labelled hl⟩

theorem closed (hc : Closed s) : Closed s' := by
  rcases hc with ⟨empty, fresh⟩ | hs
  · exact Or.inl ⟨h.next ▸ empty, h.insert ▸ fresh⟩
  · exact Or.inr (h.staged hs)

theorem abandoned (ha : Abandoned s) : Abandoned s' := by
  rcases ha with empty | ⟨seq, recs, tail, hlong, hlen, hp, hl⟩
  · exact Or.inl (h.next ▸ empty)
  · exact Or.inr ⟨seq, recs, tail, hlong, hlen, h.packet hp, h.labelled hl⟩

theorem core {w w' : World g} (hc : StreamCore s w) (wire : w'.wire = w.wire) :
    StreamCore s' w' := by
  obtain ⟨len, roomy, small, stream, low, high⟩ := hc
  refine ⟨?_, ?_, ?_, ?_, ?_, ?_⟩
  · rw [h.buf, h.mtu, len]
  · rw [h.mtu]
    exact roomy
  · rw [h.mtu]
    exact small
  · rw [h.mtu, h.seq, wire]
    exact stream
  · rw [h.seq]
    exact low
  · rw [h.seq]
    exact high

theorem phase {ph : Phase} (hp : StreamPhase ph s) : StreamPhase ph s' := by
  have hseq := h.seq
  have hnext := h.next
  have hmtu := h.mtu
  cases ph with
  | beat => exact ⟨hseq ▸ h.packet hp.1, hseq ▸ hp.2⟩
  | flush => exact ⟨h.staged hp.1, hseq ▸ hp.2⟩
  | flushed => exact ⟨hnext ▸ hp.1, hseq ▸ hp.2⟩
  | fill =>
    obtain ⟨⟨recs, hp, hl⟩, room, below⟩ := hp
    exact ⟨⟨recs, hseq ▸ h.packet hp, hseq ▸ h.labelled hl⟩, by rw [hnext, hmtu]; exact room,
      hseq ▸ below⟩
  | staged => exact ⟨h.staged hp.1, hseq ▸ hp.2⟩
  | failing | dead | quitting | telling => exact h.abandoned hp
  | _ => exact ⟨h.closed hp.1, hseq ▸ hp.2⟩

end SameStream

theorem StreamInv.same {ph : Phase} {s s' : Sender g} {w w' : World g} (h : StreamInv ph s w)
    (same : SameStream s s') (wire : w'.wire = w.wire) : StreamInv ph s' w' :=
  ⟨same.core h.1 wire, same.phase h.2⟩

section Steps

variable {s : Sender g} {w : World g}

theorem Staged.abandoned (core : StreamCore s w) (h : Staged s) : Abandoned s := by
  obtain ⟨recs, _, hp, hl⟩ := h
  have low := core.low
  have high := core.high
  unfold sequenceMax at high
  exact Or.inr ⟨s.nextSeq, recs, [], ⟨by omega, by omega⟩, by simp, hp, hl⟩

theorem Closed.abandoned (core : StreamCore s w) (h : Closed s) : Abandoned s := by
  rcases h with h | h
  · exact Or.inl h.1
  · exact h.abandoned core

/-- A failure abandons the packet as it is. -/
theorem StreamInv.abandoned {ph : Phase} (h : StreamInv ph s w) : Abandoned s := by
  obtain ⟨core, hp⟩ := h
  have low := core.low
  have high := core.high
  unfold sequenceMax at high
  cases ph with
  | beat => exact Or.inr ⟨-s.nextSeq, [], [],
      ⟨by omega, by omega⟩, by simp, hp.1, by simp [Labelled]⟩
  | flush => exact hp.1.abandoned core
  | flushed => exact Or.inl hp.1
  | fill =>
    obtain ⟨⟨recs, hp, hl⟩, _⟩ := hp
    exact Or.inr ⟨s.nextSeq, recs, _, ⟨by omega, by omega⟩, by simp, hp, hl⟩
  | staged => exact hp.1.abandoned core
  | failing | dead | quitting | telling => exact hp
  | _ => exact hp.1.abandoned core

theorem StreamInv.onFail {ph : Phase} (h : StreamInv ph s w) : StreamInv ph.onFail s w := by
  have ha := h.abandoned
  refine ⟨h.1, ?_⟩
  cases ph <;> exact ha

/-- The packet never outgrows its buffer. -/
theorem StreamInv.used_le {ph : Phase} (h : StreamInv ph s w) : s.pktNext ≤ s.mcastMtu := by
  have len := h.1.len
  rcases h.abandoned with empty | ⟨_, _, _, _, _, hp, _⟩
  · omega
  · have := hp.fits
    omega

theorem sizeSub_eq {a b : Nat} (le : b ≤ a) (small : a < 18446744073709551616) :
    sizeSub a b = a - b := by
  unfold sizeSub
  omega

/-- There is a packet when one is sent. -/
theorem StreamInv.sends {ph ph' : Phase} (h : StreamInv ph s w) (sends : ph.Sends ph')
    (due : ph = .rest → s.pktNext ≠ 0 ∨ s.mcastInsertTime ≠ 0) :
    s.nextSeq < sequenceMax ∧
    (Staged s ∧ ph ≠ .beat ∨ Packet s (-s.nextSeq) [] [] ∧ ph = .beat) := by
  obtain ⟨core, hp⟩ := h
  cases sends with
  | aged =>
    refine ⟨hp.2, Or.inl ⟨?_, nofun⟩⟩
    rcases hp.1 with ⟨empty, fresh⟩ | hs
    · rcases due rfl with hne | hne
      · exact absurd empty hne
      · exact absurd fresh hne
    · exact hs
  | beat => exact ⟨hp.2, Or.inr ⟨hp.1, rfl⟩⟩
  | flush => exact ⟨hp.2, Or.inl ⟨hp.1, nofun⟩⟩

theorem StreamInv.stamp {ph ph' : Phase} (h : StreamInv ph s w) (sends : ph.Sends ph')
    (due : ph = .rest → s.pktNext ≠ 0 ∨ s.mcastInsertTime ≠ 0) (now : Int) :
    StreamInv ph { s with pktBuf := stLong s.pktBuf 8 (htonll now) } w := by
  have hroom := h.1.roomy
  have hlen := h.1.len
  have core : StreamCore { s with pktBuf := stLong s.pktBuf 8 (htonll now) } w := by
    obtain ⟨len, roomy, small, stream, low, high⟩ := h.1
    exact ⟨(length_stLong (by omega)).trans len, roomy, small, stream, low, high⟩
  have staged : Staged s → Staged (g := g) { s with pktBuf := stLong s.pktBuf 8 (htonll now) } := by
    rintro ⟨recs, nonempty, hp, hl⟩
    exact ⟨recs, nonempty, hp.stamp now, hl⟩
  obtain ⟨below, hpkt⟩ := h.sends sends due
  refine ⟨core, ?_⟩
  rcases hpkt with ⟨hs, hne⟩ | ⟨hp, rfl⟩
  · cases sends with
    | aged => exact ⟨Or.inr (staged hs), below⟩
    | beat => exact absurd rfl hne
    | flush => exact ⟨staged hs, below⟩
  · exact ⟨hp.stamp now, below⟩

/-- A sent packet extends the stream and leaves an empty one. -/
theorem StreamInv.sent {ph ph' : Phase} (h : StreamInv ph s w) (sends : ph.Sends ph')
    (due : ph = .rest → s.pktNext ≠ 0 ∨ s.mcastInsertTime ≠ 0) :
    Stream g s.mcastMtu (if 0 ≤ ntohll (ldLong s.pktBuf 0) then s.nextSeq + 1 else s.nextSeq)
      (w.wire ++ [s.packet]) := by
  obtain ⟨below, hpkt⟩ := h.sends sends due
  have low := h.1.low
  unfold sequenceMax at below
  rcases hpkt with ⟨⟨recs, nonempty, hp, _⟩, _⟩ | ⟨hp, _⟩
  · have hsize := hp.size
    have hfits := hp.fits
    have hlen := h.1.len
    rw [hp.header ⟨by omega, by omega⟩, if_pos (by omega)]
    obtain ⟨stamp, len, hbytes⟩ := hp.bytes
    rw [hbytes, List.append_nil]
    simp only [List.length_nil] at hsize
    exact .data h.1.stream len nonempty (by omega)
  · rw [hp.header ⟨by omega, by omega⟩, if_neg (by omega)]
    obtain ⟨stamp, len, hbytes⟩ := hp.bytes
    rw [hbytes, List.append_nil]
    exact .beat h.1.stream len

/-- The identifier of the next record goes into a packet that has room. -/
theorem StreamInv.stageId (id : Int) (core : StreamCore s w) (below : s.nextSeq < sequenceMax)
    (closed : s.pktNext = 0 ∨ Staged s) (room : s.pktNext + (8 + g.valSize) ≤ s.mcastMtu)
    (q e : Nat) (sent : Bool) : StreamInv (.fill q e id sent) (s.stageId id s.pktNext) w := by
  obtain ⟨len, roomy, small, stream, low, high⟩ := core
  have hnext := stageId_pktNext s id s.pktNext
  have hroom : (s.stageId id s.pktNext).pktNext + g.valSize ≤ s.mcastMtu := by
    rw [hnext]
    split <;> omega
  have hlen : (s.stageId id s.pktNext).pktBuf.length = s.pktBuf.length :=
    length_stageId id (by omega)
  refine ⟨⟨?_, ?_, ?_, ?_, ?_, ?_⟩, ?_, ?_, ?_⟩
  · rw [hlen, stageId_mcastMtu, len]
  · simpa using roomy
  · simpa using small
  · simpa using stream
  · simpa using low
  · simpa using high
  · rw [stageId_nextSeq]
    rcases closed with empty | ⟨recs, _, hp, hl⟩
    · refine ⟨[], ?_, by simp [Labelled]⟩
      rw [empty]
      exact .stageId_empty s id empty (by omega)
    · refine ⟨recs, hp.stageId id (by omega), ?_⟩
      simpa only [Labelled, stageId_recordSeqs] using hl
  · simpa using hroom
  · simpa using below

/-- The value completes the record, and both carry the next sequence. -/
theorem StreamInv.stageValue {q e : Nat} {id : Int} {sent : Bool}
    (h : StreamInv (.fill q e id sent) s w) (known : g.Holds id) (r : Record g) :
    StreamInv (.staged q e sent) (s.stageValue id r) w := by
  obtain ⟨⟨len, roomy, small, stream, low, high⟩, ⟨recs, hp, hl⟩, room, below⟩ := h
  refine ⟨⟨?_, roomy, small, stream, low, high⟩, ⟨recs ++ [(id, r.val)], by simp, ?_, ?_⟩, below⟩
  · rw [Sender.stageValue]
    exact (length_poke (by simp; omega)).trans len
  · exact hp.stageValue r (by omega)
  · intro x hx
    simp only [Sender.stageValue]
    rcases List.mem_append.mp hx with hx | hx
    · refine ⟨(hl x hx).1, ?_⟩
      split
      · rfl
      · exact (hl x hx).2
    · simp only [List.mem_singleton] at hx
      subst hx
      simp [known]

end Steps

/-- Silent changes keep the stream. -/
theorem StreamInv.silent {ph ph' : Phase} {s s' : Sender g} {w : World g}
    (h : StreamInv ph s w) (step : Silent ph s ph' s') : StreamInv ph' s' w := by
  have stored : ∀ {q : Nat}, SameStream s { s with lastQIdx := q } :=
    ⟨rfl, rfl, rfl, rfl, rfl, rfl⟩
  cases step with
  | fail => exact h.onFail
  | settle => exact (show StreamInv .dead s w from h).same stored rfl
  | drained => exact (show StreamInv .rest s w from h).same stored rfl
  | blocked | broke =>
    exact (show StreamInv .rest s w from ⟨h.1, Or.inr h.2.1, h.2.2⟩).same stored rfl
  | goOn => exact ⟨h.1, Or.inr h.2.1, h.2.2⟩
  | beat empty =>
    obtain ⟨⟨len, roomy, small, stream, low, high⟩, _, below⟩ := h
    refine ⟨⟨?_, roomy, small, stream, low, high⟩, ?_, below⟩
    · exact (length_stLong (by omega)).trans len
    · exact .beat s (-s.nextSeq) empty (by omega)
  | full tight =>
    refine ⟨h.1, ?_, h.2.2⟩
    rcases h.2.1 with ⟨empty, _⟩ | hs
    · have roomy := h.1.roomy
      rw [sizeSub_eq h.used_le h.1.small] at tight
      omega
    · exact hs
  | room wide =>
    rw [sizeSub_eq h.used_le h.1.small] at wide
    have used := h.used_le
    exact .stageId _ h.1 h.2.2 (h.2.1.imp_left And.left) (by omega) _ _ _
  | @reopen q e id =>
    have roomy := h.1.roomy
    have empty := h.2.1
    have reopened := StreamInv.stageId id h.1 h.2.2 (Or.inl empty) (by omega) q e true
    rwa [empty] at reopened
  | aged =>
    obtain ⟨⟨len, roomy, small, stream, low, high⟩, ⟨recs, nonempty, hp, hl⟩, below⟩ := h
    exact ⟨⟨len, roomy, small, stream, low, high⟩, ⟨recs, nonempty, hp.congr rfl rfl, hl⟩, below⟩
  | _ => exact h.same ⟨rfl, rfl, rfl, rfl, rfl, rfl⟩ rfl

/-- So do the answers of calls. -/
theorem StreamInv.answered {E : Env g} {e : Event} {call : Call} {ph ph' : Phase} {s s' : Sender g}
    {w w' : World g} (h : StreamInv ph s w) (step : Answer E e call ph s w ph' s' w') :
    StreamInv ph' s' w' := by
  cases step with
  | stamp now sends due => exact h.stamp sends due now
  | send sends due below =>
    have stream := h.sent sends due
    have next := (h.sends sends due).1
    obtain ⟨len, roomy, small, _, low, high⟩ := h.1
    have counted : 1 ≤ (if 0 ≤ ntohll (ldLong s.pktBuf 0) then s.nextSeq + 1 else s.nextSeq) ∧
        (if 0 ≤ ntohll (ldLong s.pktBuf 0) then s.nextSeq + 1 else s.nextSeq) < sequenceMax := by
      unfold sequenceMax at *
      split
      · rename_i hseq
        have := below hseq
        omega
      · omega
    generalize (if 0 ≤ ntohll (ldLong s.pktBuf 0) then s.nextSeq + 1 else s.nextSeq) = n
      at stream counted ⊢
    refine ⟨⟨len, roomy, small, stream, counted.1, le_of_lt counted.2⟩, ?_⟩
    cases sends with
    | aged => exact ⟨Or.inl ⟨rfl, rfl⟩, counted.2⟩
    | beat => exact ⟨Or.inl ⟨rfl, rfl⟩, counted.2⟩
    | flush => exact ⟨rfl, counted.2⟩
  | overflow sends due data limit =>
    have stream := h.sent sends due
    rw [if_pos data] at stream
    have left := h.abandoned
    obtain ⟨len, roomy, small, _, low, high⟩ := h.1
    have kept : Abandoned (g := g) { s with nextSeq := s.nextSeq + 1 } := by
      rcases left with empty | ⟨seq, recs, tail, hlong, hlen, hp, hl⟩
      · exact Or.inl empty
      · exact Or.inr ⟨seq, recs, tail, hlong, hlen, hp.congr rfl rfl, hl⟩
    refine ⟨⟨len, roomy, small, stream, ?_, le_of_eq limit⟩, ?_⟩
    · dsimp only
      omega
    · cases sends <;> exact kept
  | copy known free => exact h.stageValue known _
  | _ => exact h.same ⟨rfl, rfl, rfl, rfl, rfl, rfl⟩ rfl

/-! ## The staged records -/

theorem Staged.records {s : Sender g} (h : Staged s) :
    Packet s s.nextSeq s.staged [] ∧ Labelled s s.nextSeq s.staged ∧ s.staged ≠ [] := by
  obtain ⟨recs, nonempty, hp, hl⟩ := h
  have same := hp.staged (fun r hr => (hl r hr).1) (by simp)
  rw [same]
  exact ⟨hp, hl, nonempty⟩

namespace StreamInv

variable {ph ph' : Phase} {s s' : Sender g} {w : World g}

/-- The packet while a record is being staged. -/
theorem filling {q e : Nat} {id : Int} {sent : Bool} (h : StreamInv (.fill q e id sent) s w) :
    Packet s s.nextSeq s.staged (netLong id) ∧ Labelled s s.nextSeq s.staged := by
  obtain ⟨recs, hp, hl⟩ := h.2.1
  have same := hp.staged (fun r hr => (hl r hr).1) (by simp)
  rw [same]
  exact ⟨hp, hl⟩

/-- Without the answer of a call no record is added to the packet, and none is removed. -/
theorem staged_silent (h : StreamInv ph s w) (step : Silent ph s ph' s') :
    s'.staged = s.staged := by
  cases step with
  | beat empty =>
    have room := h.1.roomy
    have len := h.1.len
    rw [staged_empty empty]
    exact (Packet.beat s (-s.nextSeq) empty (by omega)).staged (by simp) (by simp)
  | @room q e id _ wide =>
    have roomy := h.1.roomy
    have len := h.1.len
    rcases h.2.1 with ⟨empty, _⟩ | hs
    · rw [staged_empty empty, empty]
      exact (Packet.stageId_empty s id empty (by omega)).staged (by simp) (by simp)
    · rw [sizeSub_eq h.used_le h.1.small] at wide
      have used := h.used_le
      obtain ⟨hp, hl, _⟩ := hs.records
      exact (hp.stageId id (by omega)).staged (fun r hr => (hl r hr).1) (by simp)
  | @reopen q e id =>
    have roomy := h.1.roomy
    have len := h.1.len
    rw [staged_empty h.2.1]
    exact (Packet.stageId_empty s id h.2.1 (by omega)).staged (by simp) (by simp)
  | _ => rfl

/-- The time stamp is no part of the records. -/
theorem staged_stamp (h : StreamInv ph s w) (sends : ph.Sends ph')
    (due : ph = .rest → s.pktNext ≠ 0 ∨ s.mcastInsertTime ≠ 0) (now : Int) :
    Sender.staged (g := g) { s with pktBuf := stLong s.pktBuf 8 (htonll now) } = s.staged := by
  rcases (h.sends sends due).2 with ⟨hs, _⟩ | ⟨hp, _⟩
  · obtain ⟨hp, hl, _⟩ := hs.records
    exact (hp.stamp now).staged (fun r hr => (hl r hr).1) (by simp)
  · rw [hp.staged (by simp) (by simp)]
    exact (hp.stamp now).staged (by simp) (by simp)

theorem staged_copy {q e : Nat} {id : Int} {sent : Bool} (h : StreamInv (.fill q e id sent) s w)
    (known : g.Holds id) (r : Record g) :
    (s.stageValue id r).staged = s.staged ++ [(id, r.val)] := by
  obtain ⟨hp, hl⟩ := h.filling
  have room := h.2.2.1
  have len := h.1.len
  refine (hp.stageValue r (by omega)).staged ?_ (by simp)
  intro x hx
  rcases List.mem_append.mp hx with hx | hx
  · exact (hl x hx).1
  · obtain rfl := List.mem_singleton.mp hx
    exact known

end StreamInv

/-- The stream is kept wherever only the sender puts datagrams on the wire. -/
theorem streamKept {E : Env g} (quiet : ∀ m w w', E.move m w = some w' → w'.wire = w.wire) :
    Kept E (fun _ _ _ => True) (fun _ _ _ => True) (fun _ _ _ => True) StreamInv where
  moved := fun h _ _ hm => h.same ⟨rfl, rfl, rfl, rfl, rfl, rfl⟩ (quiet _ _ _ hm)
  silent := fun h step => h.silent step
  answered := fun h _ step => h.answered step
  quits := fun h _ _ _ => ⟨h.1, h.abandoned⟩

theorem openMove_wire (m : OpenMove g) (w w' : World g) (h : World.openMove m w = some w') :
    w'.wire = w.wire := by
  cases m <;> simp only [World.openMove] at h
  case queue =>
    obtain rfl := Option.some.inj h
    rfl
  all_goals
    split at h
    · obtain rfl := Option.some.inj h
      rfl
    · cases h

theorem streamInv_empty {mtu : Nat} {buf : List UInt8} {ignoreOverrun : Bool}
    {heartbeatUsec maxPktAgeUsec now : Int} {store : Storage g} {peers : Nat → Peer g}
    (roomy : 24 + g.valSize ≤ mtu) (small : mtu < 18446744073709551616) (len : buf.length = mtu) :
    StreamInv .rest (Sender.init (g := g) mtu buf ignoreOverrun heartbeatUsec maxPktAgeUsec now)
      (World.start store peers) := by
  have below : (1 : Int) < sequenceMax := by decide
  exact ⟨⟨len, roomy, small, .nil, le_refl _, le_of_lt below⟩, Or.inl ⟨rfl, rfl⟩, below⟩

/-- A sender that could be created starts with an empty stream. -/
theorem streamInv_init {ifaceMtu mtu : Nat} {buf : List UInt8} {ignoreOverrun : Bool}
    {heartbeatUsec maxPktAgeUsec now : Int} {store : Storage g} {peers : Nat → Peer g}
    (enough : 28 ≤ ifaceMtu) (size : ifaceMtu < 18446744073709551616)
    (created : initMtu g ifaceMtu = .ok mtu) (len : buf.length = mtu) :
    StreamInv .rest (Sender.init (g := g) mtu buf ignoreOverrun heartbeatUsec maxPktAgeUsec now)
      (World.start store peers) := by
  have hval := g.valSize_lt
  have hmtu : sizeSub ifaceMtu (20 + 8) = ifaceMtu - 28 := sizeSub_eq enough size
  simp only [initMtu, hmtu] at created
  split at created
  · cases created
  · rename_i fits
    have hm : ifaceMtu - 28 = mtu := by injection created
    exact streamInv_empty (by omega) (by omega) len

/-! ## What a stream looks like -/

def dataSeqs (wire : List (List UInt8)) : List Int :=
  (wire.filter fun d => 0 ≤ seqOf d).map seqOf

theorem dataSeqs_append (as bs : List (List UInt8)) :
    dataSeqs (as ++ bs) = dataSeqs as ++ dataSeqs bs := by
  simp [dataSeqs]

namespace Stream

variable {mtu : Nat} {n : Int} {wire : List (List UInt8)}

theorem one_le (h : Stream g mtu n wire) : 1 ≤ n := by
  induction h with
  | nil => exact le_refl _
  | data _ _ _ _ ih => omega
  | beat _ _ ih => exact ih

theorem seqOf_data {stamp : List UInt8} {recs : List (Int × Value g)} (low : 1 ≤ n)
    (high : n ≤ sequenceMax) : seqOf (datagram n stamp recs) = n := by
  unfold sequenceMax at high
  have h : seqOf (datagram n stamp recs ++ []) = n :=
    seqOf_datagram ⟨by omega, by omega⟩ stamp recs []
  rwa [List.append_nil] at h

theorem seqOf_beat {stamp : List UInt8} (low : 1 ≤ n) (high : n ≤ sequenceMax) :
    seqOf (datagram (g := g) (-n) stamp []) = -n := by
  unfold sequenceMax at high
  have h : seqOf (datagram (g := g) (-n) stamp [] ++ []) = -n :=
    seqOf_datagram ⟨by omega, by omega⟩ stamp [] []
  rwa [List.append_nil] at h

/-- Data is numbered from one without a gap. -/
theorem dataSeqs_eq (h : Stream g mtu n wire) (high : n ≤ sequenceMax) :
    dataSeqs wire = (List.range (n - 1).toNat).map fun i : Nat => (i : Int) + 1 := by
  induction h with
  | nil => rfl
  | data before len nonempty fits ih =>
    rename_i n wire stamp recs
    have low := before.one_le
    have hcount : (n + 1 - 1).toNat = (n - 1).toNat + 1 := by omega
    have hlast : (((n - 1).toNat : Nat) : Int) + 1 = n := by omega
    rw [dataSeqs_append, ih (by omega), hcount, List.range_succ, List.map_append]
    simp only [dataSeqs, List.filter_cons, seqOf_data low (show n ≤ sequenceMax by omega),
      show 0 ≤ n by omega, decide_true, ↓reduceIte, List.filter_nil, List.map_cons, List.map_nil,
      hlast]
  | beat before len ih =>
    rename_i n wire stamp
    have low := before.one_le
    rw [dataSeqs_append, ih high]
    simp only [dataSeqs, List.filter_cons, seqOf_beat low high, show ¬ 0 ≤ -n by omega,
      decide_false, Bool.false_eq_true, ↓reduceIte, List.filter_nil, List.map_nil,
      List.append_nil]

theorem length_dataSeqs (h : Stream g mtu n wire) (high : n ≤ sequenceMax) :
    ((dataSeqs wire).length : Int) = n - 1 := by
  have low := h.one_le
  rw [h.dataSeqs_eq high, List.length_map, List.length_range]
  omega

/-- A heartbeat announces the next data sequence and holds no record. -/
theorem beats (h : Stream g mtu n wire) (high : n ≤ sequenceMax) {pre post : List (List UInt8)}
    {d : List UInt8} (here : wire = pre ++ d :: post) (neg : seqOf d < 0) :
    seqOf d = -(((dataSeqs pre).length : Int) + 1) ∧ d.length = 16 := by
  induction h generalizing post with
  | nil => simp at here
  | data before len nonempty fits ih =>
    rename_i n wire stamp recs
    have low := before.one_le
    rcases List.eq_nil_or_concat post with rfl | ⟨post', last, rfl⟩
    · obtain ⟨_, hd⟩ := List.append_inj' here rfl
      obtain rfl : datagram n stamp recs = d := by simpa using hd
      rw [seqOf_data low (by omega)] at neg
      omega
    · have here' : wire ++ [datagram n stamp recs] = (pre ++ d :: post') ++ [last] := by
        simpa using here
      exact ih (by omega) (List.append_inj' here' rfl).1
  | beat before len ih =>
    rename_i n wire stamp
    have low := before.one_le
    rcases List.eq_nil_or_concat post with rfl | ⟨post', last, rfl⟩
    · obtain ⟨hpre, hd⟩ := List.append_inj' here rfl
      obtain rfl : datagram (g := g) (-n) stamp [] = d := by simpa using hd
      subst hpre
      rw [seqOf_beat low high, length_datagram len, before.length_dataSeqs high]
      simp
    · have here' : wire ++ [datagram (g := g) (-n) stamp []] = (pre ++ d :: post') ++ [last] := by
        simpa using here
      exact ih high (List.append_inj' here' rfl).1

/-- The lengths of data and heartbeats. -/
theorem lengths (h : Stream g mtu n wire) (high : n ≤ sequenceMax) (header : 16 ≤ mtu)
    {d : List UInt8} (hd : d ∈ wire) :
    ∃ k, d.length = 16 + k * (8 + g.valSize) ∧ d.length ≤ mtu ∧ (0 ≤ seqOf d → 1 ≤ k) ∧
      (seqOf d < 0 → k = 0) := by
  induction h with
  | nil => simp at hd
  | data before len nonempty fits ih =>
    rename_i n wire stamp recs
    have low := before.one_le
    rcases List.mem_append.mp hd with hd | hd
    · exact ih (by omega) hd
    · obtain rfl : d = datagram n stamp recs := by simpa using hd
      rw [length_datagram len, seqOf_data low (by omega)]
      refine ⟨recs.length, rfl, fits, fun _ => ?_, fun neg => by omega⟩
      exact List.length_pos_iff.mpr nonempty
  | beat before len ih =>
    rename_i n wire stamp
    have low := before.one_le
    rcases List.mem_append.mp hd with hd | hd
    · exact ih high hd
    · obtain rfl : d = datagram (g := g) (-n) stamp [] := by simpa using hd
      rw [length_datagram len, seqOf_beat low high]
      exact ⟨0, by simp, by simpa using header, fun pos => by omega, fun _ => rfl⟩

end Stream

/-! ## Runs -/

/-- The whole records of the packet carry its sequence. -/
theorem Abandoned.labels {s : Sender g} (h : Abandoned s) {k : Nat}
    (hk : k < recordCount g s.packet) :
    g.Holds (idAt g s.packet k) ∧
      s.recordSeqs (idAt g s.packet k - g.baseId) = seqOf s.packet := by
  rcases h with empty | ⟨seq, recs, tail, hlong, hlen, hp, hl⟩
  · simp [recordCount, packet, empty] at hk
  obtain ⟨stamp, len, hbytes⟩ := hp.bytes
  rw [hbytes] at hk ⊢
  rw [recordCount_datagram len hlen] at hk
  rw [idAt_datagram len (fun r hr => (hl r hr).1) tail k hk, seqOf_datagram hlong]
  exact hl _ (List.getElem_mem _)

/-- A datagram on the wire was the packet at the moment it was sent. -/
theorem wire_packet {E : Env g} (quiet : ∀ m w w', E.move m w = some w' → w'.wire = w.wire)
    {s₀ : Sender g} {w₀ : World g} (init : StreamInv .rest s₀ w₀) (empty : w₀.wire = [])
    {x : Conf E.host} (run : E.host.Reachable (E.idleConf s₀ w₀) x) {d : List UInt8}
    (hd : d ∈ x.world.wire) :
    ∃ y, E.host.Reachable (E.idleConf s₀ w₀) y ∧ E.host.Reachable y x ∧ y.state.packet = d := by
  induction run with
  | refl =>
    rw [show (E.idleConf s₀ w₀).world.wire = [] from empty] at hd
    cases hd
  | @step x z ch before next _ ih =>
    have last : E.host.Reachable x z := .step ch .refl next trivial
    have earlier : d ∈ x.world.wire → ∃ y, E.host.Reachable (E.idleConf s₀ w₀) y ∧
        E.host.Reachable y z ∧ y.state.packet = d := by
      intro hd
      obtain ⟨y, hy, hyx, hp⟩ := ih hd
      exact ⟨y, hy, Host.Reach.trans _ hyx last, hp⟩
    rcases E.host.next_cases next with ⟨m, w, _, hm, rfl⟩ | ⟨s, c, k, a, w, ht, hr, rfl⟩ |
      ⟨e, a, t, _, ht, hst, rfl⟩
    · exact earlier (quiet m _ _ hm ▸ hd)
    · rcases reply_wire hr with same | ⟨data, hc, hw⟩
      · exact earlier (same ▸ hd)
      · rw [show ({ x with task := k a, world := w } : Conf E.host).world.wire = w.wire from rfl,
          hw] at hd
        rcases List.mem_append.mp hd with hd | hd
        · exact earlier hd
        · refine ⟨x, before, last, ?_⟩
          obtain rfl : d = data := by simpa using hd
          rcases (streamKept quiet).reaches (fun _ _ _ _ _ => trivial) (fun _ _ _ _ _ => trivial)
            (fun _ _ _ _ _ _ => trivial) init trivial before with
          ⟨_, ht', _⟩ | ⟨s', c', k', ht', ph, _, hshow⟩
          · rw [ht'] at ht
            cases ht
          · rw [ht'] at ht
            cases ht
            simp only [Conf.state, ht']
            exact (hshow _ hc).1.symm
    · exact earlier hd

/-- The multicast stream of every run: data is numbered from one without gap or
repetition, a heartbeat announces the next number, every datagram is whole and fits,
the room left in the packet is never negative, and the records of the packet carry its
sequence from the moment they are staged until it is sent. -/
theorem stream_wellFormed {ifaceMtu mtu : Nat} {buf : List UInt8} {ignoreOverrun : Bool}
    {heartbeatUsec maxPktAgeUsec now : Int} {store : Storage g} (enough : 28 ≤ ifaceMtu)
    (size : ifaceMtu < 18446744073709551616) (created : initMtu g ifaceMtu = .ok mtu)
    (len : buf.length = mtu) {x : Conf (openEnv g).host}
    (run : (openEnv g).host.Reachable ((openEnv g).idleConf
      (Sender.init mtu buf ignoreOverrun heartbeatUsec maxPktAgeUsec now) (World.init store)) x) :
    dataSeqs x.world.wire =
      (List.range (dataSeqs x.world.wire).length).map (fun i : Nat => (i : Int) + 1) ∧
    (∀ pre d post, x.world.wire = pre ++ d :: post → seqOf d < 0 →
      seqOf d = -(((dataSeqs pre).length : Int) + 1) ∧ d.length = 16) ∧
    (∀ d ∈ x.world.wire, ∃ k, d.length = 16 + k * (8 + g.valSize) ∧
      d.length ≤ x.state.mcastMtu ∧ (0 ≤ seqOf d → 1 ≤ k) ∧ (seqOf d < 0 → k = 0)) ∧
    sizeSub x.state.mcastMtu x.state.pktNext + x.state.pktNext = x.state.mcastMtu ∧
    (∀ k < recordCount g x.state.packet, g.Holds (idAt g x.state.packet k) ∧
      x.state.recordSeqs (idAt g x.state.packet k - g.baseId) = seqOf x.state.packet) ∧
    (∀ d ∈ x.world.wire, ∃ y, (openEnv g).host.Reachable ((openEnv g).idleConf
        (Sender.init mtu buf ignoreOverrun heartbeatUsec maxPktAgeUsec now) (World.init store)) y ∧
      (openEnv g).host.Reachable y x ∧ y.state.packet = d ∧
      ∀ k < recordCount g d, y.state.recordSeqs (idAt g d k - g.baseId) = seqOf d) := by
  have init : StreamInv .rest
      (Sender.init (g := g) mtu buf ignoreOverrun heartbeatUsec maxPktAgeUsec now)
      (World.init store) := streamInv_init enough size created len
  have shows : ∀ {x}, (openEnv g).host.Reachable ((openEnv g).idleConf _ _) x →
      ∃ ph, StreamInv ph x.state x.world := fun run =>
    (streamKept openMove_wire).holds (fun _ _ _ _ _ => trivial) (fun _ _ _ _ _ => trivial)
      (fun _ _ _ _ _ _ => trivial) init trivial run
  obtain ⟨ph, h⟩ := shows run
  have high := h.1.high
  have roomy := h.1.roomy
  have used := h.used_le
  refine ⟨?_, ?_, ?_, ?_, ?_, ?_⟩
  · rw [h.1.stream.dataSeqs_eq high, List.length_map, List.length_range]
  · intro pre d post here neg
    exact h.1.stream.beats high here neg
  · intro d hd
    exact h.1.stream.lengths high (by omega) hd
  · rw [sizeSub_eq used h.1.small]
    omega
  · intro k hk
    exact h.abandoned.labels hk
  · intro d hd
    obtain ⟨y, hy, hyx, hp⟩ := wire_packet openMove_wire init rfl run hd
    obtain ⟨ph', h'⟩ := shows hy
    refine ⟨y, hy, hyx, hp, ?_⟩
    intro k hk
    rw [← hp] at hk ⊢
    exact (h'.abandoned.labels hk).2

/-- One record is staged and sent, and a heartbeat follows. -/
def stageAndSend : List (Choice (openEnv small).host) :=
  [.move (OpenMove.commit 0 ⟨1, 0, smallValue 7⟩), .move (OpenMove.queue 1 fun _ => 0),
   .start Event.mcast, .reply .storageGetQueueHead (1 : Nat),
   .reply (.storageReadQueue 0) (.ok (0 : Int)), .reply (.recordReadLock 0) (.ok (1 : Int)),
   .reply (.recordCopy 0) (.ok ⟨1, 0, smallValue 7⟩), .reply .clockTime (.ok (5 : Int)),
   .reply (.latencyOnSample 5) (.ok ()),
   .start Event.mcast, .reply .storageGetQueueHead (1 : Nat), .reply .clockTime (.ok (100 : Int)),
   .reply .clockTime (.ok (100 : Int)),
   .reply (.sockSendto (datagram 1 (netLong 100) [(0, smallValue 7)])) (.ok (25 : Nat)),
   .reply .lockStats (.ok ()),
   .start Event.mcast, .reply .storageGetQueueHead (1 : Nat), .reply .clockTime (.ok (200 : Int)),
   .reply .clockTime (.ok (200 : Int)),
   .reply (.sockSendto (datagram (g := small) (-2) (netLong 200) [])) (.ok (16 : Nat)),
   .reply .lockStats (.ok ())]

theorem stream_wellFormed_small : ∃ x, (openEnv small).host.Reachable
      ((openEnv small).idleConf smallSender (World.init smallStore)) x ∧
    x.world.wire.length = 2 ∧
    dataSeqs x.world.wire =
      (List.range (dataSeqs x.world.wire).length).map (fun i : Nat => (i : Int) + 1) := by
  have ends : ((openEnv small).host.run stageAndSend ((openEnv small).idleConf smallSender
      (World.init smallStore))).any (fun x => x.world.wire.length == 2) = true := by decide +kernel
  obtain ⟨x, run, two⟩ := Host.reach_of_any _ stageAndSend (fun _ _ _ _ _ => trivial) ends
  refine ⟨x, run, by simpa using two, ?_⟩
  exact (stream_wellFormed (by decide : 28 ≤ 53) (by decide) (by rfl) (by rfl) run).1

end Lancaster
