import Lancaster.TcpFrames

/-!
# Answers to gap requests

A range that a client asks for is merged into `union_range`, which waits until the scan
for `reply_range` is over. The scan goes through all records, one frame at a time, while
records are staged under new sequences. A `union_range` that lies below `min_seq` is
dropped: no record has a sequence that low.
-/

namespace Lancaster

open Bytes Interleaving Sender

variable {g : Geometry}

/-- The range in the `j`-th sixteen bytes that a client sent. -/
def rangeAt (bytes : List UInt8) (j : Nat) : SequenceRange :=
  ⟨ntohll (ldLong bytes (16 * j)), ntohll (ldLong bytes (16 * j + 8))⟩

theorem rangeAt_append {bytes more : List UInt8} {j : Nat} (whole : 16 * (j + 1) ≤ bytes.length) :
    rangeAt (bytes ++ more) j = rangeAt bytes j := by
  simp only [rangeAt, ldLong]
  rw [peek_append_left (by omega), peek_append_left (by omega)]

/-- The in buffer holds the bytes behind the last whole range. -/
structure Incoming (clnt : TcpClient) (recd : List UInt8) : Prop where
  len : clnt.inBuf.length = 16
  split : clnt.inNext + clnt.inRemain = 16
  more : 0 < clnt.inRemain
  chunks : ∃ m, recd.length = 16 * m + clnt.inNext ∧
    clnt.inBuf.take clnt.inNext = recd.drop (16 * m)

namespace Incoming

variable {clnt : TcpClient} {recd data : List UInt8}

theorem congr (h : Incoming clnt recd) {clnt' : TcpClient} (buf : clnt'.inBuf = clnt.inBuf)
    (next : clnt'.inNext = clnt.inNext) (remain : clnt'.inRemain = clnt.inRemain) :
    Incoming clnt' recd := by
  obtain ⟨len, split, more, chunks⟩ := h
  exact ⟨by rwa [buf], by rwa [next, remain], by rwa [remain], by rwa [buf, next]⟩

/-- A read that does not complete the range. -/
theorem fed (h : Incoming clnt recd) (short : data.length < clnt.inRemain) :
    Incoming (clnt.fed data) (recd ++ data) := by
  obtain ⟨len, split, more, m, hlen, hbuf⟩ := h
  simp only [TcpClient.fed]
  refine ⟨?_, ?_, ?_, m, ?_, ?_⟩
  · simp only
    rw [length_poke (by omega), len]
  · simp only
    omega
  · simp only
    omega
  · simp only [List.length_append]
    omega
  · simp only
    rw [take_poke_append (by omega), hbuf, List.drop_append_of_le_length (by omega)]

/-- A read that completes the range: the buffer holds the last sixteen bytes. -/
theorem fed_last (h : Incoming clnt recd) (full : data.length = clnt.inRemain) :
    ∃ m, (recd ++ data).length = 16 * (m + 1) ∧
      (clnt.fed data).inRange = rangeAt (recd ++ data) m ∧ (clnt.fed data).inBuf.length = 16 := by
  obtain ⟨len, split, more, m, hlen, hbuf⟩ := h
  have whole : poke clnt.inBuf clnt.inNext data = (recd ++ data).drop (16 * m) := by
    rw [poke, hbuf, List.drop_of_length_le (by omega : clnt.inBuf.length ≤ _), List.append_nil,
      List.drop_append_of_le_length (by omega)]
  refine ⟨m, ?_, ?_, ?_⟩
  · simp only [List.length_append]
    omega
  · simp only [TcpClient.inRange, TcpClient.fed, rangeAt, ldLong, whole, peek_drop, Nat.add_zero]
  · simp only [TcpClient.fed]
    rw [length_poke (by omega), len]

theorem merged (h : Incoming clnt recd) (full : data.length = clnt.inRemain) :
    Incoming (clnt.fed data).merged (recd ++ data) := by
  obtain ⟨m, hlen, _, hbuf⟩ := h.fed_last full
  refine ⟨?_, rfl, Nat.succ_pos 15, m + 1, ?_, ?_⟩
  · simp only [TcpClient.merged]
    have first : (stLong (clnt.fed data).inBuf 0 (clnt.fed data).inRange.low).length = 16 :=
      (length_stLong (by omega)).trans hbuf
    rw [length_stLong (by omega), first]
  · simp only [TcpClient.merged]
    omega
  · simp only [TcpClient.merged, List.take_zero]
    rw [List.drop_of_length_le (by omega)]

theorem new (inBuf outBuf : List UInt8) (now : Int) (len : inBuf.length = 16) :
    Incoming (newClient inBuf outBuf now) [] :=
  ⟨len, rfl, Nat.succ_pos 15, 0, rfl, rfl⟩

end Incoming

/-! ## Sequences and scans -/

theorem invalid_range : ¬ SequenceRange.invalid.IsValid := by decide

/-- What every state keeps of the sequences, the scans and the incoming bytes. -/
structure GapCore (ph : Phase) (s : Sender g) (w : World g) : Prop where
  seqs : ∀ i, s.recordSeqs i ≤ s.nextSeq
  least : ∀ id, g.Holds id → s.minSeq ≤ s.recordSeqs (id - g.baseId)
  scans : ∀ c clnt, s.clients c = some clnt → clnt.replyRange.IsValid →
    g.baseId ≤ clnt.replyId ∧ ∀ id, g.Holds id → id < clnt.replyId →
      clnt.minSeqFound ≤ s.recordSeqs (id - g.baseId)
  incoming : ∀ c clnt, s.clients c = some clnt → Incoming clnt (w.recd c)
  bufs : ∀ c clnt, s.clients c = some clnt → clnt.outBuf.length = pktSize g
  new : ∀ c, w.accepted c = false → s.clients c = none ∧ w.recd c = []
  joining : ∀ c, ph = .accepting c → s.clients c = none ∧ w.recd c = [] ∧ w.accepted c

namespace GapCore

variable {ph ph' : Phase} {s s' : Sender g} {w w' : World g}

/-- Steps that change no client and no connection, and raise sequences at most. -/
theorem same (h : GapCore ph s w) (clients : s'.clients = s.clients)
    (seqs : ∀ i, s'.recordSeqs i ≤ s'.nextSeq) (minSeq : s'.minSeq = s.minSeq)
    (raised : ∀ i, s.recordSeqs i ≤ s'.recordSeqs i) (recd : w'.recd = w.recd)
    (accepted : w'.accepted = w.accepted) (other : ∀ c, ph' = .accepting c → ph = .accepting c) :
    GapCore ph' s' w' := by
  refine ⟨seqs, ?_, ?_, ?_, ?_, ?_, ?_⟩
  · intro id known
    rw [minSeq]
    exact (h.least id known).trans (raised _)
  · intro c clnt here valid
    rw [clients] at here
    obtain ⟨low, scanned⟩ := h.scans c clnt here valid
    exact ⟨low, fun id known before => (scanned id known before).trans (raised _)⟩
  · rw [clients, recd]
    exact h.incoming
  · rw [clients]
    exact h.bufs
  · rw [clients, recd, accepted]
    exact h.new
  · intro c hc
    rw [clients, recd, accepted]
    exact h.joining c (other c hc)

/-- A change of client `c`, and of what was read from it. -/
theorem setClient (h : GapCore ph s w) {c : Nat} {clnt clnt' : TcpClient}
    (here : s.clients c = some clnt)
    (scan : clnt'.replyRange.IsValid → g.baseId ≤ clnt'.replyId ∧ ∀ id, g.Holds id →
      id < clnt'.replyId → clnt'.minSeqFound ≤ s.recordSeqs (id - g.baseId))
    (incoming : Incoming clnt' (w'.recd c)) (buf : clnt'.outBuf.length = pktSize g)
    (accepted : w'.accepted = w.accepted) (others : ∀ i, i ≠ c → w'.recd i = w.recd i)
    (plain : ∀ c, ph' ≠ .accepting c) : GapCore ph' (s.setClient c clnt') w' := by
  refine ⟨h.seqs, h.least, ?_, ?_, ?_, ?_, fun i hi => absurd hi (plain i)⟩
  · intro i x hx valid
    by_cases hi : i = c
    · subst hi
      rw [setClient_clients_same] at hx
      obtain rfl := Option.some.inj hx
      exact scan valid
    · rw [setClient_clients_other _ _ hi] at hx
      exact h.scans i x hx valid
  · intro i x hx
    by_cases hi : i = c
    · subst hi
      rw [setClient_clients_same] at hx
      obtain rfl := Option.some.inj hx
      exact incoming
    · rw [setClient_clients_other _ _ hi] at hx
      rw [others i hi]
      exact h.incoming i x hx
  · intro i x hx
    by_cases hi : i = c
    · subst hi
      rw [setClient_clients_same] at hx
      obtain rfl := Option.some.inj hx
      exact buf
    · rw [setClient_clients_other _ _ hi] at hx
      exact h.bufs i x hx
  · intro i hi
    rw [accepted] at hi
    have hne : i ≠ c := by
      rintro rfl
      rw [(h.new i hi).1] at here
      cases here
    rw [setClient_clients_other _ _ hne, others i hne]
    exact h.new i hi

/-- A change of client `c` that leaves its buffers and its connection alone. -/
theorem touch (h : GapCore ph s w) {c : Nat} {clnt clnt' : TcpClient}
    (here : s.clients c = some clnt) (plain : ∀ c, ph ≠ .accepting c)
    (scan : clnt'.replyRange.IsValid → g.baseId ≤ clnt'.replyId ∧ ∀ id, g.Holds id →
      id < clnt'.replyId → clnt'.minSeqFound ≤ s.recordSeqs (id - g.baseId))
    (inBuf : clnt'.inBuf = clnt.inBuf) (inNext : clnt'.inNext = clnt.inNext)
    (inRemain : clnt'.inRemain = clnt.inRemain) (outBuf : clnt'.outBuf = clnt.outBuf) :
    GapCore ph (s.setClient c clnt') w := by
  have len : clnt'.outBuf.length = pktSize g := by
    rw [outBuf]
    exact h.bufs c clnt here
  exact h.setClient here scan ((h.incoming c clnt here).congr inBuf inNext inRemain) len rfl
    (fun _ _ => rfl) plain

theorem drop (h : GapCore .rest s w) (c : Nat) : GapCore .rest (s.dropClient c) w := by
  have gone : ∀ i x, (s.dropClient c).clients i = some x → s.clients i = some x := by
    intro i x hx
    simp only [dropClient] at hx
    split at hx
    · cases hx
    · exact hx
  refine ⟨h.seqs, h.least, fun i x hx => h.scans i x (gone i x hx),
    fun i x hx => h.incoming i x (gone i x hx), fun i x hx => h.bufs i x (gone i x hx), ?_, by simp⟩
  intro i hi
  refine ⟨?_, (h.new i hi).2⟩
  simp only [dropClient]
  split
  · rfl
  · exact (h.new i hi).1

theorem join {c : Nat} (h : GapCore (.accepting c) s w) {inBuf outBuf : List UInt8} {now : Int}
    (inLen : inBuf.length = 16) (outLen : outBuf.length = pktSize g) :
    GapCore (.joined c) (s.setClient c (newClient inBuf outBuf now)) w := by
  obtain ⟨_, nothing, accepted⟩ := h.joining c rfl
  refine ⟨h.seqs, h.least, ?_, ?_, ?_, ?_, nofun⟩
  · intro i x hx valid
    by_cases hi : i = c
    · subst hi
      rw [setClient_clients_same] at hx
      obtain rfl := Option.some.inj hx
      cases valid
    · rw [setClient_clients_other _ _ hi] at hx
      exact h.scans i x hx valid
  · intro i x hx
    by_cases hi : i = c
    · subst hi
      rw [setClient_clients_same] at hx
      obtain rfl := Option.some.inj hx
      rw [nothing]
      exact .new _ _ _ inLen
    · rw [setClient_clients_other _ _ hi] at hx
      exact h.incoming i x hx
  · intro i x hx
    by_cases hi : i = c
    · subst hi
      rw [setClient_clients_same] at hx
      obtain rfl := Option.some.inj hx
      exact outLen
    · rw [setClient_clients_other _ _ hi] at hx
      exact h.bufs i x hx
  · intro i hi
    have hne : i ≠ c := by
      rintro rfl
      rw [accepted] at hi
      cases hi
    rw [setClient_clients_other _ _ hne]
    exact h.new i hi

theorem not_full (h : GapCore ph s w) {c : Nat} {clnt : TcpClient}
    (here : s.clients c = some clnt) : clnt.inRemain ≠ 0 := by
  have := (h.incoming c clnt here).more
  omega

/-- The scan after record `reply_id`, which was found. -/
theorem scan_next (h : GapCore ph s w) {c : Nat} {clnt : TcpClient}
    (here : s.clients c = some clnt) (busy : clnt.replyRange.IsValid)
    (found : clnt.minSeqFound ≤ s.recordSeqs (clnt.replyId - g.baseId)) :
    g.baseId ≤ clnt.replyId + 1 ∧ ∀ id, g.Holds id → id < clnt.replyId + 1 →
      clnt.minSeqFound ≤ s.recordSeqs (id - g.baseId) := by
  obtain ⟨low, scanned⟩ := h.scans c clnt here busy
  constructor
  · omega
  · intro id known before
    by_cases last : id = clnt.replyId
    · rw [last]
      exact found
    · exact scanned id known (by omega)

theorem silent (h : GapCore ph s w) (step : Silent ph s ph' s') : GapCore ph' s' w := by
  -- what a step without a client does to the sequences: nothing
  have keep : ∀ (s' : Sender g) ph', s'.clients = s.clients → s'.recordSeqs = s.recordSeqs →
      s'.nextSeq = s.nextSeq → s'.minSeq = s.minSeq →
      (∀ c, ph' = .accepting c → ph = .accepting c) → GapCore ph' s' w := by
    intro s' ph' clients seqs next minSeq other
    refine h.same clients ?_ minSeq ?_ rfl rfl other
    · rw [seqs, next]
      exact h.seqs
    · rw [seqs]
      exact fun _ => le_refl _
  cases step with
  | tally => exact keep _ _ rfl rfl rfl rfl fun _ hc => hc
  | fail => exact keep _ _ rfl rfl rfl rfl fun c hc => by cases ph <;> cases hc
  | room | reopen => refine keep _ _ ?_ ?_ ?_ ?_ (by simp) <;> simp
  | join inBuf outBuf now inLen outLen => exact h.join inLen outLen
  | drop c => exact h.drop c
  | sendTime now writing here =>
    have scan := h.scans _ _ here
    refine h.touch here ?_ scan rfl rfl rfl rfl
    rintro i rfl
    rcases writing with hp | hp <;> cases hp
  | merge here whole => exact absurd whole (h.not_full here)
  | forget here =>
    have scan := h.scans _ _ here
    exact h.touch here (by simp) scan rfl rfl rfl rfl
  | promote here =>
    refine h.touch here (by simp) (fun _ => ⟨le_refl _, ?_⟩) rfl rfl rfl rfl
    intro id known before
    exact absurd known.1 (not_le.mpr before)
  | @find _ c clnt here idle busy more =>
    refine h.touch here (by simp) (fun valid => ?_) rfl rfl rfl rfl
    obtain ⟨low, scanned⟩ := h.scans c clnt here busy
    refine ⟨low, fun id known before => ?_⟩
    have := scanned id known before
    simp only
    split <;> omega
  | @pass _ c clnt here idle busy more found outside =>
    exact h.touch here (by simp) (fun _ => h.scan_next here busy found) rfl rfl rfl rfl
  | @finish _ c clnt here idle busy past =>
    obtain ⟨_, scanned⟩ := h.scans c clnt here busy
    have touched : GapCore .rest (s.setClient c { clnt with replyRange := .invalid }) w := by
      refine h.touch here (by simp) (fun valid => ?_) rfl rfl rfl rfl
      exact absurd valid invalid_range
    exact ⟨touched.seqs, fun id known => scanned id known (lt_of_lt_of_le known.2 past),
      touched.scans, touched.incoming, touched.bufs, touched.new, touched.joining⟩
  | heartbeat here | tell here =>
    have len := h.bufs _ _ here
    have eight : 8 ≤ pktSize g := by
      rw [pktSize]
      omega
    have scan := h.scans _ _ here
    have incoming := h.incoming _ _ here
    refine h.setClient here scan (incoming.congr rfl rfl rfl) ?_ rfl (fun _ _ => rfl) (by simp)
    exact (length_stLong (by omega)).trans len
  | _ => exact keep _ _ rfl rfl rfl rfl (by simp)

/-- What is read from client `c` concerns no other client. -/
theorem read_other (w : World g) {c i : Nat} (data : List UInt8) (hi : i ≠ c) :
    (w.read c data).recd i = w.recd i := by
  simp [World.read, hi]

theorem read_same (w : World g) (c : Nat) (data : List UInt8) :
    (w.read c data).recd c = w.recd c ++ data := by
  simp [World.read]

/-- Answers of calls; a record that is staged takes the next sequence. -/
theorem answered {E : Env g} {e : Event} {call : Call} (h : GapCore ph s w)
    (step : Answer E e call ph s w ph' s' w') : GapCore ph' s' w' := by
  have raise : ∀ n ph', s.nextSeq ≤ n → (∀ c, ph' ≠ .accepting c) →
      GapCore ph' { s with nextSeq := n } w := by
    intro n ph' more plain
    refine h.same rfl (fun i => (h.seqs i).trans more) rfl (fun _ => le_refl _) rfl rfl ?_
    exact fun c hc => absurd hc (plain c)
  cases step with
  | idle | opens | overrun | readQueue | skip | changed | jump =>
    exact h.same rfl h.seqs rfl (fun _ => le_refl _) rfl rfl (by simp)
  | stamp now sends due =>
    refine h.same rfl h.seqs rfl (fun _ => le_refl _) rfl rfl ?_
    cases sends <;> simp
  | send sends due below =>
    have next : s.nextSeq ≤ (if 0 ≤ ntohll (ldLong s.pktBuf 0) then s.nextSeq + 1 else s.nextSeq) := by
      split <;> omega
    generalize (if 0 ≤ ntohll (ldLong s.pktBuf 0) then s.nextSeq + 1 else s.nextSeq) = n at next ⊢
    have raised := raise n .rest next (by simp)
    refine raised.same rfl raised.seqs rfl (fun _ => le_refl _) rfl rfl ?_
    cases sends <;> simp
  | overflow sends due data limit =>
    have raised := raise (s.nextSeq + 1) .rest (by omega) (by simp)
    refine raised.same rfl raised.seqs rfl (fun _ => le_refl _) rfl rfl ?_
    cases sends <;> simp [Phase.onFail]
  | copy known free =>
    refine h.same rfl ?_ rfl ?_ rfl rfl (by simp)
    · intro i
      simp only [stageValue]
      split
      · exact le_refl _
      · exact h.seqs i
    · intro i
      simp only [stageValue]
      split
      · exact h.seqs i
      · exact le_refl _
  | @accept c _ _ _ _ new admitted =>
    obtain ⟨absent, nothing⟩ := h.new c new
    refine ⟨h.seqs, h.least, h.scans, h.incoming, h.bufs, ?_, ?_⟩
    · intro i hi
      refine h.new i ?_
      simp only at hi
      split at hi
      · cases hi
      · exact hi
    · intro i hi
      obtain rfl := Phase.accepting.inj hi
      exact ⟨absent, nothing, by simp⟩
  | @read _ _ _ c clnt data here nonempty fits =>
    have scan := h.scans _ _ here
    refine h.setClient here scan ?_ (h.bufs c clnt here) rfl (fun _ => read_other w data) (by simp)
    rw [read_same]
    exact (h.incoming c clnt here).fed fits
  | @readLast _ _ _ c clnt data here nonempty full =>
    have scan := h.scans _ _ here
    refine h.setClient here scan ?_ (h.bufs c clnt here) rfl (fun _ => read_other w data) (by simp)
    rw [read_same]
    exact (h.incoming c clnt here).merged full
  | @readBad _ _ _ c clnt data here =>
    have dropped := h.drop c
    have other : ∀ i, i ≠ c → (w.read c data).recd i = w.recd i := fun _ => read_other w data
    refine ⟨h.seqs, h.least, dropped.scans, ?_, dropped.bufs, ?_, by simp⟩
    · intro i x hx
      have hi : i ≠ c := by
        rintro rfl
        simp [dropClient] at hx
      rw [other i hi]
      exact dropped.incoming i x hx
    · intro i hi
      have hne : i ≠ c := by
        rintro rfl
        rw [(h.new i hi).1] at here
        cases here
      rw [other i hne]
      exact dropped.new i hi
  | write count writing here =>
    have scan := h.scans _ _ here
    have incoming := h.incoming _ _ here
    have len := h.bufs _ _ here
    refine h.setClient here scan (incoming.congr rfl rfl rfl) len rfl (fun _ _ => rfl) ?_
    rcases writing with rfl | rfl <;> simp
  | @reply _ _ _ c clnt here idle busy known found within used =>
    have incoming := h.incoming _ _ here
    refine h.setClient here (fun _ => h.scan_next here busy found) (incoming.congr rfl rfl rfl) ?_
      rfl (fun _ _ => rfl) (by simp)
    rw [frameBuf_eq (h.bufs c clnt here)]
    exact length_record_encode _ _ _
  | unused here idle busy known found =>
    exact h.touch here (by simp) (fun _ => h.scan_next here busy found) rfl rfl rfl rfl

end GapCore

/-! ## A range that waits -/

namespace SequenceRange

def Covers (u r : SequenceRange) : Prop := u.low ≤ r.low ∧ r.high ≤ u.high

theorem Covers.hull {u r : SequenceRange} (h : u.Covers r) (t : SequenceRange) :
    (u.hull t).Covers r := by
  obtain ⟨low, high⟩ := h
  constructor <;> simp only [SequenceRange.hull] <;> split <;> omega

theorem hull_covers (u r : SequenceRange) : (u.hull r).Covers r := by
  constructor <;> simp only [SequenceRange.hull] <;> split <;> omega

theorem Covers.within {u r : SequenceRange} {n : Int} (h : u.Covers r) (hn : r.IsWithin n) :
    u.IsWithin n := by
  obtain ⟨low, high⟩ := h
  obtain ⟨hl, hh⟩ := hn
  constructor <;> omega

theorem IsWithin.valid {r : SequenceRange} {n : Int} (h : r.IsWithin n) : r.IsValid := by
  obtain ⟨low, high⟩ := h
  exact lt_of_le_of_lt low high

end SequenceRange

def Received (c j : Nat) (w : World g) : Prop := 16 * (j + 1) ≤ (w.recd c).length

instance (c j : Nat) (w : World g) : Decidable (Received c j w) :=
  inferInstanceAs (Decidable (_ ≤ _))

/-- The scan for client `c` has just put record `id` into a frame, with its sequence and
the value it has now. -/
def Framed (c : Nat) (id : Int) (s : Sender g) (w : World g) : Prop :=
  ∃ clnt, s.clients c = some clnt ∧ clnt.replyRange.IsValid ∧ clnt.outNext = 0 ∧
    clnt.outRemain = pktSize g ∧ 0 < (w.store.record id).rev ∧
    clnt.outBuf =
      (Frame.record (s.recordSeqs (id - g.baseId)) id (w.store.record id).val).encode

/-- The range `r` is still to be answered with record `id`. -/
def Waits (clnt : TcpClient) (r : SequenceRange) (id : Int) : Prop :=
  clnt.unionRange.Covers r ∨ (clnt.replyRange.Covers r ∧ clnt.replyId ≤ id)

def Phase.Calm (ph : Phase) : Prop := ph ≠ .quitting ∧ ∀ c, ph ≠ .telling c

/-- What becomes of a range that client `c` asked for, as far as record `id` goes. -/
inductive Covered (c : Nat) (r : SequenceRange) (id : Int) (ph : Phase) (s : Sender g)
    (w : World g) : Prop where
  | outside (h : ¬ r.IsWithin (s.recordSeqs (id - g.baseId)))
  | gone (h : s.clients c = none)
  | framed (h : Framed c id s w) (calm : ph.Calm)
  | waits (clnt : TcpClient) (here : s.clients c = some clnt) (h : Waits clnt r id)

namespace Covered

variable {c : Nat} {r : SequenceRange} {id : Int} {ph ph' : Phase} {s s' : Sender g}
  {w : World g}

/-- Client `c`, the sequences and the storage are left alone. -/
theorem same (h : Covered c r id ph s w) (client : s'.clients c = s.clients c)
    (seqs : s'.recordSeqs = s.recordSeqs) (calm : ph.Calm → ph'.Calm) :
    Covered c r id ph' s' w := by
  cases h with
  | outside h => exact .outside (by rwa [seqs])
  | gone h => exact .gone (by rwa [client])
  | framed h was =>
    refine .framed ?_ (calm was)
    rw [Framed, client, seqs]
    exact h
  | waits clnt here h => exact .waits clnt (by rwa [client]) h

/-- Another client, or this one between two frames. -/
theorem setClient (h : Covered c r id ph s w) {i : Nat} {clnt clnt' : TcpClient}
    (here : s.clients i = some clnt) (calm : ph.Calm → ph'.Calm)
    (out : i = c → 0 < clnt.outRemain → ph.Calm → clnt.replyRange.IsValid →
      clnt'.outBuf = clnt.outBuf ∧ clnt'.outNext = clnt.outNext ∧
      clnt'.outRemain = clnt.outRemain ∧ clnt'.replyRange.IsValid)
    (keep : i = c → r.IsWithin (s.recordSeqs (id - g.baseId)) → Waits clnt r id →
      Waits clnt' r id) : Covered c r id ph' (s.setClient i clnt') w := by
  by_cases hi : i = c
  · subst hi
    by_cases within : r.IsWithin (s.recordSeqs (id - g.baseId))
    · cases h with
      | outside h => exact absurd within h
      | gone h =>
        rw [h] at here
        cases here
      | framed h was =>
        obtain ⟨clnt₁, here₁, valid, next, remain, used, buf⟩ := h
        rw [here] at here₁
        obtain rfl := Option.some.inj here₁
        have positive : 0 < clnt.outRemain := by
          rw [remain, pktSize]
          omega
        obtain ⟨buf', next', remain', valid'⟩ := out rfl positive was valid
        refine .framed ⟨clnt', setClient_clients_same .., valid', ?_, ?_, used, ?_⟩ (calm was)
        · rw [next', next]
        · rw [remain', remain]
        · rw [buf', buf]
          rfl
      | waits clnt₁ here₁ h =>
        rw [here] at here₁
        obtain rfl := Option.some.inj here₁
        exact .waits clnt' (setClient_clients_same ..) (keep rfl within h)
    · exact .outside within
  · exact h.same (setClient_clients_other _ _ (Ne.symm hi)) rfl calm

end Covered

/-- The sequences and scans, and what becomes of the `j`-th range of client `c`. -/
structure GapInv (c j : Nat) (id : Int) (ph : Phase) (s : Sender g) (w : World g) : Prop where
  core : GapCore ph s w
  covered : Received c j w → Covered c (rangeAt (w.recd c) j) id ph s w

/-- Record `id` is in use and asked for, and has not been framed. -/
def Asked (c j : Nat) (id : Int) (s : Sender g) (w : World g) : Prop :=
  Received c j w → (w.store.record id).rev ≠ 0 ∧
    (rangeAt (w.recd c) j).IsWithin (s.recordSeqs (id - g.baseId)) ∧ ¬ Framed c id s w

namespace GapInv

variable {c j : Nat} {id : Int} {ph ph' : Phase} {s s' : Sender g} {w w' : World g}

theorem silent (h : GapInv c j id ph s w) (known : g.Holds id) (step : Silent ph s ph' s') :
    GapInv c j id ph' s' w := by
  refine ⟨h.core.silent step, fun rec => ?_⟩
  have now := h.covered rec
  cases step with
  | tally => exact now.same rfl rfl fun calm => calm
  | fail =>
    refine now.same rfl rfl ?_
    cases ph <;> first
      | exact fun calm => calm
      | exact fun _ => ⟨by simp [Phase.onFail], by simp [Phase.onFail]⟩
  | room | reopen => exact now.same (by simp) (by simp) fun _ => ⟨by simp, by simp⟩
  | @join i _ inBuf outBuf time inLen outLen =>
    have hi : c ≠ i := by
      rintro rfl
      have nothing := (h.core.joining c rfl).2.1
      rw [Received, nothing, List.length_nil] at rec
      omega
    exact now.same (setClient_clients_other _ _ hi) rfl fun _ => ⟨by simp, by simp⟩
  | drop i =>
    by_cases hi : c = i
    · subst hi
      exact .gone (by simp [dropClient])
    · exact now.same (by simp [dropClient, hi]) rfl fun calm => calm
  | sendTime time writing here =>
    exact now.setClient here (fun calm => calm) (fun _ _ _ valid => ⟨rfl, rfl, rfl, valid⟩)
      fun _ _ waits => waits
  | merge here whole => exact absurd whole (h.core.not_full here)
  | @forget _ i clnt here whole old =>
    refine now.setClient here (fun calm => calm) (fun _ _ _ valid => ⟨rfl, rfl, rfl, valid⟩) ?_
    rintro rfl within (union | reply)
    · -- no record has a sequence below `min_seq`
      have least := h.core.least id known
      have high := (union.within within).2
      omega
    · exact Or.inr reply
  | @promote _ i clnt here whole new free =>
    refine now.setClient here (fun calm => calm) (fun _ _ _ valid => absurd valid free) ?_
    rintro rfl within (union | reply)
    · exact Or.inr ⟨union, known.1⟩
    · exact absurd (reply.1.within within).valid free
  | find here idle =>
    exact now.setClient here (fun calm => calm) (fun _ busy => by omega) fun _ _ waits => waits
  | @pass _ i clnt here idle busy more found outside =>
    refine now.setClient here (fun calm => calm) (fun _ busy => by omega) ?_
    rintro rfl within (union | ⟨covers, before⟩)
    · exact Or.inl union
    · have hne : clnt.replyId ≠ id := by
        rintro rfl
        exact outside (covers.within within)
      exact Or.inr ⟨covers, by simp only; omega⟩
  | @finish _ i clnt here idle busy past =>
    have closed : Covered c (rangeAt (w.recd c) j) id .rest
        (s.setClient i { clnt with replyRange := .invalid }) w := by
      refine now.setClient here (fun calm => calm) (fun _ busy => by omega) ?_
      rintro rfl within (union | ⟨covers, before⟩)
      · exact Or.inl union
      · have high := known.2
        omega
    exact closed.same rfl rfl fun calm => calm
  | heartbeat here idle =>
    exact now.setClient here (fun calm => calm) (fun _ busy => by omega) fun _ _ waits => waits
  | tell here =>
    exact now.setClient here (fun calm => absurd rfl calm.1) (fun _ _ calm => absurd rfl calm.1)
      fun _ _ waits => waits
  | told here done => exact now.same rfl rfl fun calm => absurd rfl (calm.2 _)
  | _ => exact now.same rfl rfl fun _ => ⟨by simp, by simp⟩

/-- A record that is asked for and not framed yet waits, unless the client has gone. -/
theorem waiting (h : GapInv c j id ph s w) (asked : Asked c j id s w) (rec : Received c j w) :
    s.clients c = none ∨ ∃ clnt, s.clients c = some clnt ∧
      Waits clnt (rangeAt (w.recd c) j) id := by
  obtain ⟨_, within, unframed⟩ := asked rec
  cases h.covered rec with
  | outside h => exact absurd within h
  | gone h => exact Or.inl h
  | framed h => exact absurd h unframed
  | waits clnt here h => exact Or.inr ⟨clnt, here, h⟩

/-- The client waits, whatever happens to the sequences and the storage. -/
theorem keep (h : GapInv c j id ph s w) (asked : Asked c j id s w)
    (client : s'.clients c = s.clients c) (recd : w'.recd c = w.recd c) (rec : Received c j w') :
    Covered c (rangeAt (w'.recd c) j) id ph' s' w' := by
  rw [Received, recd] at rec
  rw [recd]
  rcases h.waiting asked rec with gone | ⟨clnt, here, waits⟩
  · exact .gone (by rwa [client])
  · exact .waits clnt (by rwa [client]) waits

/-- The ranges of client `c` that wait are still there afterwards. -/
theorem keepClient (h : GapInv c j id ph s w) (asked : Asked c j id s w) {i : Nat}
    {clnt clnt' : TcpClient} (here : s.clients i = some clnt) (recd : w'.recd = w.recd)
    (waits : i = c → Received c j w → Waits clnt (rangeAt (w.recd c) j) id →
      Waits clnt' (rangeAt (w.recd c) j) id) (rec : Received c j w') :
    Covered c (rangeAt (w'.recd c) j) id ph' (s.setClient i clnt') w' := by
  by_cases hi : i = c
  · subst hi
    rw [Received, recd] at rec
    rw [recd]
    rcases h.waiting asked rec with gone | ⟨clnt₁, here₁, wait⟩
    · rw [gone] at here
      cases here
    · rw [here] at here₁
      obtain rfl := Option.some.inj here₁
      exact .waits clnt' (setClient_clients_same ..) (waits rfl rec wait)
  · exact h.keep asked (setClient_clients_other _ _ (Ne.symm hi)) (by rw [recd]) rec

/-- Bytes of client `c` that complete no range leave its ranges as they were. -/
theorem fed (h : GapInv c j id ph s w) (asked : Asked c j id s w) {i : Nat} {clnt : TcpClient}
    {data : List UInt8} (here : s.clients i = some clnt) (short : data.length < clnt.inRemain)
    (rec : Received c j (w.read i data)) :
    Covered c (rangeAt ((w.read i data).recd c) j) id ph' (s.setClient i (clnt.fed data))
      (w.read i data) := by
  by_cases hi : i = c
  · subst hi
    obtain ⟨_, split, _, m, hlen, _⟩ := h.core.incoming i clnt here
    rw [Received, GapCore.read_same, List.length_append] at rec
    have before : Received i j w := by
      rw [Received]
      omega
    rw [GapCore.read_same, rangeAt_append before]
    rcases h.waiting asked before with gone | ⟨clnt₁, here₁, waits⟩
    · rw [gone] at here
      cases here
    · rw [here] at here₁
      obtain rfl := Option.some.inj here₁
      exact .waits _ (setClient_clients_same ..) waits
  · exact h.keep asked (setClient_clients_other _ _ (Ne.symm hi))
      (GapCore.read_other w data (Ne.symm hi)) rec

/-- A range that is complete is merged with the others. -/
theorem merged (h : GapInv c j id ph s w) (asked : Asked c j id s w) {i : Nat} {clnt : TcpClient}
    {data : List UInt8} (here : s.clients i = some clnt) (full : data.length = clnt.inRemain)
    (rec : Received c j (w.read i data)) :
    Covered c (rangeAt ((w.read i data).recd c) j) id ph' (s.setClient i (clnt.fed data).merged)
      (w.read i data) := by
  by_cases hi : i = c
  · subst hi
    have incoming := h.core.incoming i clnt here
    obtain ⟨m, total, range, _⟩ := incoming.fed_last full
    have split := incoming.split
    rw [Received, GapCore.read_same, total] at rec
    rw [GapCore.read_same]
    by_cases last : j = m
    · subst last
      refine .waits _ (setClient_clients_same ..) (Or.inl ?_)
      rw [← range]
      exact SequenceRange.hull_covers _ _
    · have before : Received i j w := by
        rw [List.length_append] at total
        rw [Received]
        omega
      rw [rangeAt_append before]
      rcases h.waiting asked before with gone | ⟨clnt₁, here₁, waits⟩
      · rw [gone] at here
        cases here
      · rw [here] at here₁
        obtain rfl := Option.some.inj here₁
        refine .waits _ (setClient_clients_same ..) ?_
        rcases waits with union | reply
        · exact Or.inl (union.hull _)
        · exact Or.inr reply
  · exact h.keep asked (setClient_clients_other _ _ (Ne.symm hi))
      (GapCore.read_other w data (Ne.symm hi)) rec

/-- Answers of calls; the only way out of waiting is a frame. -/
theorem answered {E : Env g} {e : Event} {call : Call} (h : GapInv c j id ph s w)
    (asked : Asked c j id s w)
    (step : Answer E e call ph s w ph' s' w') : GapInv c j id ph' s' w' := by
  refine ⟨h.core.answered step, fun rec => ?_⟩
  cases step with
  | read data here nonempty fits => exact h.fed asked here fits rec
  | readLast data here nonempty full => exact h.merged asked here full rec
  | @readBad _ _ _ i clnt data here =>
    by_cases hi : c = i
    · subst hi
      exact .gone (by simp [dropClient])
    · exact h.keep asked (by simp [dropClient, hi]) (GapCore.read_other w data hi) rec
  | write count writing here => exact h.keepClient asked here rfl (fun _ _ waits => waits) rec
  | @reply _ _ _ i clnt here idle busy known found within used =>
    by_cases same : i = c ∧ clnt.replyId = id
    · obtain ⟨rfl, rfl⟩ := same
      refine .framed ⟨_, setClient_clients_same .., busy, rfl, rfl, used, ?_⟩ ⟨by simp, by simp⟩
      exact frameBuf_eq (h.core.bufs i clnt here) _ _
    · refine h.keepClient asked here rfl ?_ rec
      rintro rfl _ (union | ⟨covers, before⟩)
      · exact Or.inl union
      · exact Or.inr ⟨covers, by simp only; grind⟩
  | @unused _ _ _ i clnt here idle busy known found zero =>
    refine h.keepClient asked here rfl ?_ rec
    rintro rfl before (union | ⟨covers, scanned⟩)
    · exact Or.inl union
    · have hne : clnt.replyId ≠ id := by
        rintro rfl
        exact (asked before).1 zero
      exact Or.inr ⟨covers, by simp only; omega⟩
  | _ => exact h.keep asked rfl rfl rec

end GapInv

theorem gapCore_init (s : Sender g) (store : Storage g) (peers : Nat → Peer g)
    (seqs : ∀ i, s.recordSeqs i ≤ s.nextSeq) (least : ∀ i, s.minSeq ≤ s.recordSeqs i)
    (nobody : ∀ c, s.clients c = none) : GapCore .rest s (World.start store peers) where
  seqs := seqs
  least := fun id _ => least _
  scans := fun c clnt hc => by rw [nobody c] at hc; cases hc
  incoming := fun c clnt hc => by rw [nobody c] at hc; cases hc
  bufs := fun c clnt hc => by rw [nobody c] at hc; cases hc
  new := fun c _ => ⟨nobody c, rfl⟩
  joining := nofun

end Lancaster
