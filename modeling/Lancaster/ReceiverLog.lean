import Lancaster.Coherence
import Lancaster.FrameBounds

/-!
# The storage of a receiver is the log of its updates

A receiver writes its storage like any other writer: each call of `update_record` leaves the next
revision of one record and one entry of the change queue. Whatever datagrams and bytes arrive,
and however its calls fail, the revisions count the calls, the values are those of the last calls,
and the queue lists the calls in order.
-/

namespace Lancaster

open Bytes
open Receiver (McastInput TcpReadInput Segment RecvEvent)

variable {g : Geometry}

namespace Storage

/-- `update_record` on the storage alone. -/
def update (cap : Nat) (now : Int) (st : Storage g) (id : Int) (val : Value g) : Storage g :=
  let st := st.setRecord id ⟨nextRev (st.record id).rev, now, val⟩
  if 0 < cap then
    { st with
      changeQ := fun j => if j = slot cap st.qHead then id else st.changeQ j
      qHead := st.qHead + 1 }
  else st

/-- Updates one after the other, at one time. -/
def replay (cap : Nat) (now : Int) (st : Storage g) (ups : List (Int × Int × Value g)) :
    Storage g :=
  ups.foldl (fun st u => st.update cap now u.2.1 u.2.2) st

end Storage

def relabel (seqs : Int → Int) (ups : List (Int × Int × Value g)) : Int → Int :=
  ups.foldl (fun seqs u i => if i = u.2.1 - g.baseId then u.1 else seqs i) seqs

/-- What happened to the storage and to the sequences is what the calls of `update_record` did. -/
structure Logs (now : Int) (r r' : Receiver g) : Prop where
  cap : r'.qCapacity = r.qCapacity
  ups : ∃ ups, updates r'.acts = updates r.acts ++ ups ∧
    r'.store = r.store.replay r.qCapacity now ups ∧ r'.recordSeqs = relabel r.recordSeqs ups ∧
    ∀ u ∈ ups, g.Holds u.2.1

namespace Logs

variable {now : Int} {r r' r'' : Receiver g}

theorem of_same (store : r'.store = r.store) (seqs : r'.recordSeqs = r.recordSeqs)
    (ups : updates r'.acts = updates r.acts) (cap : r'.qCapacity = r.qCapacity) : Logs now r r' :=
  ⟨cap, [], by rw [ups, List.append_nil], store, seqs, List.forall_mem_nil _⟩

theorem refl (r : Receiver g) : Logs now r r := of_same rfl rfl rfl rfl

theorem trans (h : Logs now r r') (h' : Logs now r' r'') : Logs now r r'' := by
  obtain ⟨cap, ups, acts, store, seqs, known⟩ := h
  obtain ⟨cap', ups', acts', store', seqs', known'⟩ := h'
  refine ⟨cap'.trans cap, ups ++ ups', ?_, ?_, ?_, ?_⟩
  · rw [acts', acts, List.append_assoc]
  · rw [store', store, cap, Storage.replay, Storage.replay, Storage.replay, List.foldl_append]
  · rw [seqs', seqs, relabel, relabel, relabel, List.foldl_append]
  · exact fun u here => (List.mem_append.mp here).elim (known u) (known' u)

theorem after (h : Logs now r' r'') (store : r'.store = r.store)
    (seqs : r'.recordSeqs = r.recordSeqs) (ups : updates r'.acts = updates r.acts)
    (cap : r'.qCapacity = r.qCapacity) : Logs now r r'' :=
  (of_same store seqs ups cap).trans h

end Logs

/-! ## The handlers -/

namespace Receiver

theorem updateRecord_logs (r : Receiver g) (lock : Except Failure Unit) (seq id : Int)
    (val : Value g) (now : Int) : Logs now r (updateRecord r lock seq id val now).2 := by
  unfold updateRecord
  split
  · rename_i known
    cases lock with
    | error st => exact .refl r
    | ok _ =>
      have one : ∀ u ∈ [(seq, id, val)], g.Holds u.2.1 := List.forall_mem_singleton.mpr known
      dsimp only
      split
      · rename_i queue
        have unqueued : ¬ r.qCapacity = 0 := by omega
        simp only [Storage.storageWriteQueue, unqueued, ↓reduceIte]
        refine ⟨rfl, [(seq, id, val)], by simp [updates], ?_, rfl, one⟩
        simp [Storage.replay, Storage.update, queue]
      · rename_i unqueued
        refine ⟨rfl, [(seq, id, val)], by simp [updates], ?_, rfl, one⟩
        simp [Storage.replay, Storage.update, unqueued]
  · exact .refl r

theorem applyRecords_logs (lock : Int → Except Failure Unit) (seq : Int) (buf : List UInt8)
    (last : Nat) (now : Int) (fuel p : Nat) (r : Receiver g) :
    Logs now r (applyRecords lock seq buf last now fuel p r).2 :=
  applyRecords_keeps .refl (fun _ _ _ => .trans)
    (fun r id val => updateRecord_logs r (lock id) seq id val now) buf last fuel p r

theorem requestGap_logs (now : Int) (r : Receiver g) (setEvent lockStats : Except Failure Unit)
    (low high : Int) : Logs now r (requestGap r setEvent lockStats low high).2 := by
  have ups : updates (r.acts ++ [.gap ⟨low, high⟩]) = updates r.acts := by simp [updates]
  unfold requestGap
  cases setEvent with
  | error st => exact .of_same rfl rfl ups rfl
  | ok _ => cases lockStats <;> exact .of_same rfl rfl ups rfl

theorem advance_logs (now : Int) (r : Receiver g) (inp : McastInput) (seq : Int) (isHb : Bool) :
    Logs now r (advance r inp seq isHb).2 := by
  rcases advance_cases r inp seq isHb with ⟨_, eq⟩ | ⟨_, st, r', hr, outcome⟩
  · rw [eq]
    cases isHb <;> exact .of_same rfl rfl rfl rfl
  · have asked := requestGap_logs now r inp.setEvent inp.lockStats r.nextSeq seq
    rw [hr] at asked
    rcases outcome with ⟨_, eq⟩ | ⟨_, eq⟩
    · rw [eq]
      exact asked
    · rw [eq]
      exact asked.trans (.of_same rfl rfl rfl rfl)

theorem mcastOnRead_logs (r : Receiver g) (inp : McastInput) :
    ∃ now, Logs now r (mcastOnRead r inp).2 := by
  rcases mcastOnRead_cases r inp with ⟨time, bytes, eq, _⟩ | ⟨data, now, bytes, _, _, _, eq⟩
  · rw [eq]
    exact ⟨0, .of_same rfl rfl rfl rfl⟩
  · rw [eq]
    refine ⟨now, ?_⟩
    suffices packet : ∀ r : Receiver g, Logs now r (mcastOnPacket r inp data now).2 from
      (packet _).after rfl rfl rfl rfl
    intro r
    rw [mcastOnPacket]
    dsimp only
    split
    · exact advance_logs now r inp _ true
    · split
      · exact .refl r
      · generalize ntohll (ldLong (data ++ inp.junk) 0) = seq
        have taken := applyRecords_logs inp.lock seq (data ++ inp.junk) data.length now data.length 16 r
        split
        · exact taken
        · refine taken.trans ((advance_logs now _ inp seq false).after rfl rfl ?_ rfl)
          simp [updates]

theorem tcpReadLoop_logs (now : Int) (fuel : Nat) (st : Int) (recvSz : Nat) (r : Receiver g)
    (segs : List Segment) : Logs now r (tcpReadLoop fuel st recvSz r segs).2.2.1 := by
  induction fuel generalizing st recvSz r segs with
  | zero => exact .refl r
  | succ fuel ih =>
    rw [tcpReadLoop]
    split
    · exact .refl r
    · split
      · exact .refl r
      · exact (ih _ _ _ _).after rfl rfl rfl rfl

theorem tcpReadBuf_logs (now : Int) (r : Receiver g) (inp : TcpReadInput) :
    Logs now r (tcpReadBuf r inp).2.1 := by
  have loop := tcpReadLoop_logs now (inp.segs.length + 1) Status.ok 0 r inp.segs
  rw [tcpReadBuf]
  dsimp only
  split
  · split
    · exact loop
    · split
      · exact loop.trans (.of_same rfl rfl rfl rfl)
      · exact loop.trans (.of_same rfl rfl rfl rfl)
  · exact loop

theorem tcpOnFrame_logs (r : Receiver g) (inp : TcpReadInput) (st : Int) :
    ∃ now, Logs now r (tcpOnFrame r inp st).2 := by
  rw [tcpOnFrame]
  by_cases head : r.inNext = 8
  · rw [if_pos head]
    dsimp only
    refine ⟨0, ?_⟩
    split
    · exact .of_same rfl rfl rfl rfl
    · split <;> exact .of_same rfl rfl rfl rfl
  · rw [if_neg head]
    dsimp only
    generalize ntohll (ldLong r.inBuf 8) = id
    generalize stLong r.inBuf 8 id = buf
    generalize ldLong buf 0 = seq
    generalize Value.load g buf 16 = val
    by_cases newer : r.recordSeqs (id - g.baseId) < seq
    · rw [if_pos newer]
      cases inp.clockUpdate with
      | error e => exact ⟨0, .of_same rfl rfl rfl rfl⟩
      | ok now =>
        have taken := (updateRecord_logs { r with inBuf := buf } (inp.lock id) seq id val now).after
          (r := r) rfl rfl rfl rfl
        refine ⟨now, ?_⟩
        dsimp only
        generalize updateRecord { r with inBuf := buf } (inp.lock id) seq id val now = u at taken ⊢
        split
        · exact taken
        · exact taken.trans (.of_same rfl rfl rfl rfl)
    · rw [if_neg newer]
      exact ⟨0, .of_same rfl rfl rfl rfl⟩

theorem tcpOnRead_logs (r : Receiver g) (inp : TcpReadInput) :
    ∃ now, Logs now r (tcpOnRead r inp).2.1 := by
  rw [tcpOnRead]
  dsimp only
  split
  · exact ⟨0, tcpReadBuf_logs 0 r inp⟩
  · generalize (if (tcpReadBuf r inp).1 = Status.blocked then Status.ok else (tcpReadBuf r inp).1) =
      st
    split
    · obtain ⟨now, frame⟩ := tcpOnFrame_logs (tcpReadBuf r inp).2.1 inp st
      exact ⟨now, (tcpReadBuf_logs now r inp).trans frame⟩
    · exact ⟨0, tcpReadBuf_logs 0 r inp⟩

theorem tcpWriteBuf_logs (now : Int) (r : Receiver g) (results : List (Except Failure Nat)) :
    Logs now r (tcpWriteBuf r results).2.1 := by
  induction results generalizing r with
  | nil =>
    rw [tcpWriteBuf]
    split <;> exact .refl r
  | cons result rest ih =>
    cases result with
    | error st =>
      rw [tcpWriteBuf]
      split <;> exact .refl r
    | ok n =>
      rw [tcpWriteBuf]
      split
      · exact .refl r
      · exact (ih _).after rfl rfl rfl rfl

theorem tcpOnWrite_logs (now : Int) (r : Receiver g) (results : List (Except Failure Nat))
    (setEvent : Except Failure Unit) : Logs now r (tcpOnWrite r results setEvent).2.1 := by
  have loop := tcpWriteBuf_logs now r results
  rw [tcpOnWrite]
  dsimp only
  split
  · cases setEvent with
    | error st => exact loop
    | ok _ => exact loop.trans (.of_same rfl rfl rfl rfl)
  · exact loop

theorem eventFunc_logs (r : Receiver g) (pollin pollout : Bool) (inp : TcpReadInput)
    (results : List (Except Failure Nat)) (setEvent : Except Failure Unit) :
    ∃ now, Logs now r (eventFunc r pollin pollout inp results setEvent).2.1 := by
  obtain ⟨now, read⟩ := tcpOnRead_logs r inp
  refine ⟨now, ?_⟩
  rw [eventFunc]
  dsimp only
  split
  · exact read
  · split
    · exact read.trans (tcpOnWrite_logs ..)
    · exact read

end Receiver

/-! ## Runs -/

def valuesOf (id : Int) (ups : List (Int × Int × Value g)) : List (Value g) :=
  (ups.filter fun u => u.2.1 = id).map fun u => u.2.2

/-- Storage `st'`, with a queue of `cap` entries, is what `ups` made of `st`: the revision of a
record counts the updates of it, its value is that of the last one, and the queue lists the updates
in order. -/
structure Tells (cap : Nat) (st : Storage g) (ups : List (Int × Int × Value g)) (st' : Storage g) :
    Prop where
  revs : ∀ id, (st'.record id).rev =
    ((st.record id).rev + (valuesOf id ups).length) % 9223372036854775808
  vals : ∀ id, (st'.record id).val = (valuesOf id ups).getLastD (st.record id).val
  head : 0 < cap → st'.qHead = st.qHead + ups.length
  ring : 0 < cap → ∀ p u, ups[p]? = some u → ups.length ≤ p + cap →
    st'.changeQ (Storage.slot cap (st.qHead + p)) = u.2.1

/-- The sequences under which updates came for record `id`, in order. -/
def seqsOf (id : Int) (ups : List (Int × Int × Value g)) : List Int :=
  (ups.filter fun u => u.2.1 = id).map fun u => u.1

/-- A record has the sequence of its last update. -/
theorem relabel_last (id : Int) (seqs : Int → Int) (ups : List (Int × Int × Value g)) :
    relabel seqs ups (id - g.baseId) = (seqsOf id ups).getLastD (seqs (id - g.baseId)) := by
  induction ups generalizing seqs with
  | nil => rfl
  | cons u rest ih =>
    rw [relabel, List.foldl_cons]
    refine (ih _).trans ?_
    by_cases hi : u.2.1 = id
    · have first : seqsOf id (u :: rest) = u.1 :: seqsOf id rest := by simp [seqsOf, hi]
      rw [first, List.getLastD_cons, hi, if_pos rfl]
    · have first : seqsOf id (u :: rest) = seqsOf id rest := by simp [seqsOf, hi]
      rw [first, if_neg (by omega)]

namespace Storage

variable {cap : Nat} {now : Int}

theorem update_record (cap : Nat) (now : Int) (st : Storage g) (id : Int)
    (val : Value g) (i : Int) :
    (st.update cap now id val).record i =
      if i = id then ⟨nextRev (st.record id).rev, now, val⟩ else st.record i := by
  rw [update]
  split <;> rfl

theorem update_head (queue : 0 < cap) (st : Storage g) (id : Int) (val : Value g) :
    (st.update cap now id val).qHead = st.qHead + 1 := by
  rw [update, if_pos queue]
  rfl

theorem update_changeQ (queue : 0 < cap) (st : Storage g) (id : Int) (val : Value g) (j : Nat) :
    (st.update cap now id val).changeQ j = if j = slot cap st.qHead then id else st.changeQ j := by
  rw [update, if_pos queue]
  rfl

end Storage

namespace Tells

variable {cap : Nat} {now : Int} {st st' : Storage g} {ups : List (Int × Int × Value g)}

theorem start (revs : ∀ id, 0 ≤ (st.record id).rev ∧ (st.record id).rev ≤ spinMax) :
    Tells cap st [] st := by
  refine ⟨fun id => ?_, fun _ => rfl, fun _ => rfl, by simp⟩
  obtain ⟨low, high⟩ := revs id
  unfold spinMax at high
  simp only [valuesOf, List.filter_nil, List.map_nil, List.length_nil]
  omega

/-- One more update. -/
theorem update (h : Tells cap st ups st') (seq id : Int) (val : Value g) :
    Tells cap st (ups ++ [(seq, id, val)]) (st'.update cap now id val) := by
  have here : valuesOf id (ups ++ [(seq, id, val)]) = valuesOf id ups ++ [val] := by
    simp [valuesOf]
  have other : ∀ i, i ≠ id → valuesOf i (ups ++ [(seq, id, val)]) = valuesOf i ups := by
    intro i hi
    simp [valuesOf, Ne.symm hi]
  have record := Storage.update_record cap now st' id val
  refine ⟨?_, ?_, ?_, ?_⟩
  · intro i
    rw [record]
    by_cases hi : i = id
    · rw [if_pos hi, hi, here, List.length_append, List.length_singleton, h.revs id]
      simp only [nextRev]
      omega
    · rw [if_neg hi, other i hi]
      exact h.revs i
  · intro i
    rw [record]
    by_cases hi : i = id
    · rw [if_pos hi, hi, here, List.getLastD_concat]
    · rw [if_neg hi, other i hi]
      exact h.vals i
  · intro queue
    rw [Storage.update_head queue, h.head queue, List.length_append]
    rfl
  · intro queue p u there near
    rw [Storage.update_changeQ queue, h.head queue]
    rw [List.length_append, List.length_singleton] at near
    by_cases last : p = ups.length
    · rw [last, List.getElem?_concat_length] at there
      rw [if_pos (by rw [last]), ← Option.some.inj there]
    · have bound := (List.getElem?_eq_some_iff.mp there).1
      rw [List.length_append, List.length_singleton] at bound
      rw [List.getElem?_append_left (by omega)] at there
      rw [if_neg (Storage.slot_ne (by omega) (by omega))]
      exact h.ring queue p u there (by omega)

theorem replay (h : Tells cap st ups st') (now : Int) (more : List (Int × Int × Value g)) :
    Tells cap st (ups ++ more) (st'.replay cap now more) := by
  induction more generalizing ups st' with
  | nil => simpa [Storage.replay] using h
  | cons u rest ih =>
    rw [Storage.replay, List.foldl_cons, List.append_cons]
    exact ih (h.update u.1 u.2.1 u.2.2)

end Tells

/-- Receiver `r` has written its storage, `st` at first, by its calls of `update_record`. -/
structure Recounts (st : Storage g) (cap : Nat) (r : Receiver g) : Prop where
  queue : r.qCapacity = cap
  known : ∀ u ∈ updates r.acts, g.Holds u.2.1
  seqs : ∀ id, r.recordSeqs (id - g.baseId) = (seqsOf id (updates r.acts)).getLastD (-1)
  tells : Tells cap st (updates r.acts) r.store

theorem Recounts.logs {st : Storage g} {cap : Nat} {now : Int} {r r' : Receiver g}
    (h : Recounts st cap r) (logs : Logs now r r') : Recounts st cap r' := by
  obtain ⟨same, ups, acts, store, seqs, known⟩ := logs
  refine ⟨same.trans h.queue, ?_, ?_, ?_⟩
  · rw [acts]
    exact fun u here => (List.mem_append.mp here).elim (h.known u) (known u)
  · intro id
    rw [seqs, relabel_last, acts, h.seqs, seqsOf, seqsOf, seqsOf, List.filter_append,
      List.map_append]
    generalize List.map _ (List.filter _ (updates r.acts)) = old
    generalize List.map _ (List.filter _ ups) = new
    cases new using List.reverseRecOn with
    | nil => simp
    | append_singleton new last => rw [← List.append_assoc, List.getLastD_concat,
        List.getLastD_concat]
  · rw [acts, store, h.queue]
    exact h.tells.replay now ups

namespace Receiver

def handle (r : Receiver g) : RecvEvent → Receiver g
  | .mcast inp => (mcastOnRead r inp).2
  | .tcp pollin pollout inp results setEvent =>
    (eventFunc r pollin pollout inp results setEvent).2.1

theorem handle_logs (r : Receiver g) (e : RecvEvent) : ∃ now, Logs now r (r.handle e) := by
  cases e with
  | mcast inp => exact mcastOnRead_logs r inp
  | tcp pollin pollout inp results setEvent => exact eventFunc_logs ..

/-- Whatever a receiver is sent, in whatever order its events come and whichever of its calls fail:
every identifier that it updates is one of the storage, and its storage is what its calls of
`update_record` made of the one it began with. -/
theorem storage_told (store : Storage g) (qCapacity : Nat) (inBuf outBuf : List UInt8) (now : Int)
    (revs : ∀ id, 0 ≤ (store.record id).rev ∧ (store.record id).rev ≤ spinMax)
    (events : List RecvEvent) :
    Recounts store qCapacity (events.foldl handle (.init store qCapacity inBuf outBuf now)) := by
  have start : Recounts store qCapacity (.init store qCapacity inBuf outBuf now) :=
    ⟨rfl, List.forall_mem_nil _, fun _ => rfl, .start revs⟩
  generalize Receiver.init store qCapacity inBuf outBuf now = r at start
  induction events generalizing r with
  | nil => exact start
  | cons e rest ih =>
    obtain ⟨now, logs⟩ := handle_logs r e
    exact ih _ (start.logs logs)

/-- Two packets update record 0, and the second one comes twice. -/
theorem storage_told_small : ∃ r : Receiver small, r.store.qHead = 2 ∧
    (r.store.record 0).rev = 2 ∧ Recounts smallStore 2 r := by
  have revs : ∀ id, 0 ≤ (smallStore.record id).rev ∧ (smallStore.record id).rev ≤ spinMax :=
    fun _ => ⟨le_refl _, Int.zero_le_ofNat _⟩
  refine ⟨_, ?_, ?_, storage_told smallStore 2 (List.replicate 17 0) (List.replicate 16 0) 0 revs
    ([datagram 0 (netLong 0) [(0, smallValue 7)], datagram 1 (netLong 0) [(0, smallValue 9)],
      datagram 1 (netLong 0) [(0, smallValue 9)]].map fun d => .mcast (.ofDatagram d 0))⟩ <;>
    decide +kernel

end Receiver

end Lancaster
