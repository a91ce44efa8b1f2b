import Lancaster.Copying
import Lancaster.Packet
import Lancaster.Transitions

/-!
# The sender's TCP stream

What a client is sent after the hello is a sequence of frames: heartbeats, the last
word before quitting, and records. The out buffer holds one frame at a time, and it is
refilled when the frame before it is out. Only the shutdown refills it without looking,
so a client that has received part of a frame by then is sent something else. And a record
that gets back its revision while it is copied may leave a mixture of two values in a frame.
-/

namespace Lancaster

open Bytes Interleaving Sender

variable {g : Geometry}

inductive Frame (g : Geometry) where
  | heartbeat
  | willQuit
  | record (seq id : Int) (val : Value g)

def Frame.encode : Frame g → List UInt8
  | .heartbeat => netLong heartbeatSeq
  | .willQuit => netLong willQuitSeq
  | .record seq id val => netLong seq ++ (netLong id ++ val.toList)

def encodeFrames (frames : List (Frame g)) : List UInt8 := frames.flatMap Frame.encode

@[simp] theorem encodeFrames_nil : encodeFrames ([] : List (Frame g)) = [] := rfl

theorem encodeFrames_append (as bs : List (Frame g)) :
    encodeFrames (as ++ bs) = encodeFrames as ++ encodeFrames bs := by
  simp [encodeFrames]

theorem encodeFrames_eq_nil {frames : List (Frame g)} (h : encodeFrames frames = []) :
    frames = [] := by
  cases frames with
  | nil => rfl
  | cons fr rest =>
    have empty := (List.append_eq_nil_iff.mp h).1
    have len := congrArg List.length empty
    cases fr <;> simp [Frame.encode] at len

theorem encodeFrames_concat (frames : List (Frame g)) (fr : Frame g) :
    encodeFrames (frames ++ [fr]) = encodeFrames frames ++ fr.encode := by
  simp [encodeFrames]

/-- The frames handed to a client so far, against what it was sent: all of them are out,
or the last one is in the out buffer and some of its bytes are out. -/
inductive Outgoing (clnt : TcpClient) (sent : List UInt8) : List (Frame g) → Prop where
  | idle {done} (empty : clnt.outRemain = 0) (out : sent = encodeFrames done) :
      Outgoing clnt sent done
  | busy {done fr} (left : 0 < clnt.outRemain)
      (fits : clnt.outNext + clnt.outRemain ≤ clnt.outBuf.length)
      (holds : clnt.outBuf.take (clnt.outNext + clnt.outRemain) = fr.encode)
      (out : sent = encodeFrames done ++ clnt.outBuf.take clnt.outNext) :
      Outgoing clnt sent (done ++ [fr])

namespace Outgoing

variable {clnt : TcpClient} {sent : List UInt8} {frames : List (Frame g)}

/-- What is out and what is pending make up the frames. -/
theorem stream (h : Outgoing clnt sent frames) : sent ++ clnt.pending = encodeFrames frames := by
  cases h with
  | idle empty out => simp [TcpClient.pending, peek, empty, out]
  | busy left fits holds out =>
    rw [out, encodeFrames_concat, ← holds, TcpClient.pending, peek, List.append_assoc,
      List.take_add]

/-- Nothing of the frame in the buffer is out. -/
theorem untouched (h : Outgoing clnt sent frames) (clean : clnt.outRemain = 0 ∨ clnt.outNext = 0) :
    ∃ done, done <+: frames ∧ sent = encodeFrames done := by
  cases h with
  | idle empty out => exact ⟨frames, List.prefix_rfl, out⟩
  | @busy done fr left fits holds out =>
    have start : clnt.outNext = 0 := by omega
    refine ⟨done, List.prefix_append _ _, ?_⟩
    rw [out, start, List.take_zero, List.append_nil]

theorem all_sent (h : Outgoing clnt sent frames) (empty : clnt.outRemain = 0) :
    sent = encodeFrames frames := by
  cases h with
  | idle _ out => exact out
  | busy left => omega

/-- Bytes that go out are the next ones of the frame. -/
theorem write (h : Outgoing clnt sent frames) {count : Nat} (positive : 0 < count)
    (fits : count ≤ clnt.pending.length) :
    Outgoing { clnt with outNext := clnt.outNext + count, outRemain := clnt.outRemain - count }
      (sent ++ clnt.pending.take count) frames := by
  have hle : count ≤ clnt.outRemain := by
    simp only [TcpClient.pending, peek, List.length_take] at fits
    omega
  cases h with
  | idle empty out => omega
  | @busy done fr left hfits holds out =>
    have htake : clnt.outBuf.take clnt.outNext ++ clnt.pending.take count =
        clnt.outBuf.take (clnt.outNext + count) := by
      rw [TcpClient.pending, peek, List.take_take, Nat.min_eq_left hle, List.take_add]
    by_cases last : count = clnt.outRemain
    · refine .idle (by simp only; omega) ?_
      rw [out, List.append_assoc, htake, last, holds, encodeFrames_concat]
    · refine .busy (by simp only; omega) (by simp only; omega) ?_ ?_
      · rw [← holds]
        congr 1
        simp only
        omega
      · rw [out, List.append_assoc, htake]

/-- A frame put into the idle buffer. -/
theorem put (h : Outgoing clnt sent frames) (empty : clnt.outRemain = 0) (fr : Frame g)
    {buf : List UInt8} {n : Nat} (positive : 0 < n) (fits : n ≤ buf.length)
    (holds : buf.take n = fr.encode) (clnt' : TcpClient) (hbuf : clnt'.outBuf = buf)
    (hnext : clnt'.outNext = 0) (hremain : clnt'.outRemain = n) :
    Outgoing clnt' sent (frames ++ [fr]) := by
  have out := h.all_sent empty
  refine .busy ?_ ?_ ?_ ?_
  · omega
  · rw [hbuf, hnext, hremain]
    omega
  · rw [hbuf, hnext, hremain, Nat.zero_add]
    exact holds
  · rw [hnext, List.take_zero, List.append_nil, out]

theorem congr (h : Outgoing clnt sent frames) {clnt' : TcpClient}
    (buf : clnt'.outBuf = clnt.outBuf) (next : clnt'.outNext = clnt.outNext)
    (remain : clnt'.outRemain = clnt.outRemain) : Outgoing clnt' sent frames := by
  cases h with
  | idle empty out => exact .idle (remain ▸ empty) out
  | busy left fits holds out =>
    refine .busy ?_ ?_ ?_ ?_
    · rwa [remain]
    · rwa [buf, next, remain]
    · rwa [buf, next, remain]
    · rwa [buf, next]

end Outgoing

/-- The out buffer after a record frame has been put into it. -/
theorem frameBuf_eq {clnt : TcpClient} (len : clnt.outBuf.length = pktSize g) (seq : Int)
    (r : Record g) :
    frameBuf clnt seq r = (Frame.record seq clnt.replyId r.val).encode := by
  unfold pktSize at len
  obtain ⟨a, b, v, hbuf, ha, hb, hv⟩ : ∃ a b v : List UInt8, clnt.outBuf = a ++ (b ++ v) ∧
      a.length = 8 ∧ b.length = 8 ∧ v.length = g.valSize := by
    refine ⟨clnt.outBuf.take 8, (clnt.outBuf.drop 8).take 8, (clnt.outBuf.drop 8).drop 8, ?_, ?_,
      ?_, ?_⟩
    · rw [List.take_append_drop, List.take_append_drop]
    all_goals
      simp only [List.length_take, List.length_drop]
      omega
  have value : poke clnt.outBuf 16 r.val.toList = a ++ (b ++ r.val.toList) := by
    have h : poke ((a ++ b) ++ (v ++ [])) (a ++ b).length r.val.toList =
        (a ++ b) ++ (r.val.toList ++ []) := poke_append (by simp [hv])
    simpa [hbuf, ha, hb] using h
  have first : poke (a ++ (b ++ r.val.toList)) 0 (netLong seq) =
      netLong seq ++ (b ++ r.val.toList) := by
    have h : poke ([] ++ (a ++ (b ++ r.val.toList))) ([] : List UInt8).length (netLong seq) =
        [] ++ (netLong seq ++ (b ++ r.val.toList)) := poke_append (by simp [ha])
    simpa using h
  have second : poke (netLong seq ++ (b ++ r.val.toList)) 8 (netLong clnt.replyId) =
      netLong seq ++ (netLong clnt.replyId ++ r.val.toList) := by
    have h : poke (netLong seq ++ (b ++ r.val.toList)) (netLong seq).length
        (netLong clnt.replyId) = netLong seq ++ (netLong clnt.replyId ++ r.val.toList) :=
      poke_append (by simp [hb])
    simpa using h
  rw [frameBuf, stLong_htonll, stLong_htonll, value, first, second, Frame.encode]

theorem length_record_encode (seq id : Int) (val : Value g) :
    (Frame.record seq id val).encode.length = pktSize g := by
  simp only [Frame.encode, List.length_append, length_netLong, Vector.length_toList, pktSize]
  omega

/-- The first long of a buffer is replaced by a whole frame. -/
theorem take_stLong {buf : List UInt8} (x : Int) :
    (stLong buf 0 (htonll x)).take 8 = netLong x := by
  simp [stLong_htonll, poke]

/-! ## The invariant -/

/-- A record frame carries a value that was committed to its record. -/
def Committed (w : World g) : Frame g → Prop
  | .record seq id val => 0 ≤ seq ∧ g.Holds id ∧ ∃ r ∈ w.commits id, r.val = val
  | _ => True

/-- Nothing of the frame in the out buffer has been written. -/
def CleanFrame (clnt : TcpClient) : Prop := clnt.outRemain = 0 ∨ clnt.outNext = 0

/-- What is owed to the clients in the phases that treat them one by one. -/
def FramesPhase : Phase → Sender g → World g → Prop
  | .accepting c, s, w => s.clients c = none ∧ w.sent c = [] ∧ w.accepted c
  | .quitting, s, _ => ∀ c clnt, s.clients c = some clnt → CleanFrame clnt
  | .telling c, s, _ => ∀ i clnt, i ≠ c → s.clients i = some clnt → CleanFrame clnt
  | _, _, _ => True

structure FramesInv (ph : Phase) (s : Sender g) (w : World g) : Prop where
  stored : ∀ id, 0 ≤ (w.store.record id).rev → w.store.record id ∈ w.commits id
  next : 0 ≤ s.nextSeq
  seqs : ∀ i, 0 ≤ s.recordSeqs i
  buffered : ∀ c clnt, s.clients c = some clnt → clnt.outBuf.length = pktSize g ∧
    ∃ frames, Outgoing clnt (w.sent c) frames ∧ ∀ fr ∈ frames, Committed w fr
  all : ∀ c, ∃ frames, w.sent c <+: encodeFrames frames ∧ ∀ fr ∈ frames, Committed w fr
  new : ∀ c, w.accepted c = false → s.clients c = none ∧ w.sent c = []
  phase : FramesPhase ph s w

namespace FramesInv

variable {ph ph' : Phase} {s s' : Sender g} {w w' : World g}

/-- Steps that change no client and no connection. -/
theorem same (h : FramesInv ph s w) (clients : s'.clients = s.clients) (next : 0 ≤ s'.nextSeq)
    (seqs : ∀ i, 0 ≤ s'.recordSeqs i) (phase : FramesPhase ph' s' w) : FramesInv ph' s' w := by
  refine ⟨h.stored, next, seqs, ?_, h.all, ?_, phase⟩
  · rw [clients]
    exact h.buffered
  · rw [clients]
    exact h.new

/-- A change of client `c`, and of what it was sent. -/
theorem setClient (h : FramesInv ph s w) {c : Nat} {clnt clnt' : TcpClient}
    (here : s.clients c = some clnt) (len : clnt'.outBuf.length = pktSize g)
    (frames : ∃ frames, Outgoing clnt' (w'.sent c) frames ∧ ∀ fr ∈ frames, Committed w fr)
    (phase : FramesPhase ph' (s.setClient c clnt') w')
    (hw : w' = { w with sent := w'.sent, recd := w'.recd })
    (others : ∀ i, i ≠ c → w'.sent i = w.sent i) : FramesInv ph' (s.setClient c clnt') w' := by
  have store : w'.store = w.store := by rw [hw]
  have commits : w'.commits = w.commits := by rw [hw]
  have accepted : w'.accepted = w.accepted := by rw [hw]
  have carry : ∀ fr, Committed w fr → Committed w' fr := by
    intro fr hf
    cases fr with
    | record seq id val => simpa only [Committed, commits] using hf
    | _ => trivial
  obtain ⟨frames, outgoing, committed⟩ := frames
  refine ⟨?_, h.next, h.seqs, ?_, ?_, ?_, phase⟩
  · rw [store, commits]
    exact h.stored
  · intro i x hx
    by_cases hi : i = c
    · subst hi
      rw [setClient_clients_same] at hx
      obtain rfl := Option.some.inj hx
      exact ⟨len, frames, outgoing, fun fr hf => carry fr (committed fr hf)⟩
    · rw [setClient_clients_other _ _ hi] at hx
      obtain ⟨hlen, frames, hout, hall⟩ := h.buffered i x hx
      exact ⟨hlen, frames, others i hi ▸ hout, fun fr hf => carry fr (hall fr hf)⟩
  · intro i
    by_cases hi : i = c
    · subst hi
      refine ⟨frames, ?_, fun fr hf => carry fr (committed fr hf)⟩
      rw [← outgoing.stream]
      exact List.prefix_append _ _
    · obtain ⟨frames, hp, hall⟩ := h.all i
      exact ⟨frames, others i hi ▸ hp, fun fr hf => carry fr (hall fr hf)⟩
  · intro i hi
    rw [accepted] at hi
    have hne : i ≠ c := by
      rintro rfl
      rw [(h.new i hi).1] at here
      cases here
    rw [setClient_clients_other _ _ hne, others i hne]
    exact h.new i hi

/-- A change of client `c` that leaves its out buffer alone. -/
theorem touch (h : FramesInv ph s w) {c : Nat} {clnt clnt' : TcpClient}
    (here : s.clients c = some clnt) (buf : clnt'.outBuf = clnt.outBuf)
    (next : clnt'.outNext = clnt.outNext) (remain : clnt'.outRemain = clnt.outRemain) :
    FramesInv ph (s.setClient c clnt') w := by
  obtain ⟨len, frames, out, all⟩ := h.buffered c clnt here
  refine h.setClient here (buf ▸ len) ⟨frames, out.congr buf next remain, all⟩ ?_ rfl
    (fun _ _ => rfl)
  have clean : CleanFrame clnt → CleanFrame clnt' := by
    rintro (hc | hc)
    · exact Or.inl (remain ▸ hc)
    · exact Or.inr (next ▸ hc)
  have hp := h.phase
  cases ph with
  | accepting i =>
    refine ⟨?_, hp.2⟩
    have hne : i ≠ c := by
      rintro rfl
      rw [hp.1] at here
      cases here
    rw [setClient_clients_other _ _ hne]
    exact hp.1
  | quitting =>
    intro i x hx
    by_cases hi : i = c
    · subst hi
      rw [setClient_clients_same] at hx
      obtain rfl := Option.some.inj hx
      exact clean (hp i clnt here)
    · rw [setClient_clients_other _ _ hi] at hx
      exact hp i x hx
  | telling j =>
    intro i x hj hx
    by_cases hi : i = c
    · subst hi
      rw [setClient_clients_same] at hx
      obtain rfl := Option.some.inj hx
      exact clean (hp i clnt hj here)
    · rw [setClient_clients_other _ _ hi] at hx
      exact hp i x hj hx
  | _ => trivial

/-- A frame is put into the idle out buffer of client `c`. -/
theorem put (h : FramesInv .rest s w) {c : Nat} {clnt clnt' : TcpClient} {n : Nat} (fr : Frame g)
    (here : s.clients c = some clnt) (empty : clnt.outRemain = 0) (positive : 0 < n)
    (fits : n ≤ pktSize g) (len : clnt'.outBuf.length = pktSize g)
    (holds : clnt'.outBuf.take n = fr.encode) (next : clnt'.outNext = 0)
    (remain : clnt'.outRemain = n) (committed : Committed w fr) :
    FramesInv .rest (s.setClient c clnt') w := by
  obtain ⟨_, frames, out, all⟩ := h.buffered c clnt here
  refine h.setClient here len ⟨frames ++ [fr], ?_, ?_⟩ trivial rfl (fun _ _ => rfl)
  · exact out.put empty fr positive (len ▸ fits) holds clnt' rfl next remain
  · intro x hx
    rcases List.mem_append.mp hx with hx | hx
    · exact all x hx
    · obtain rfl : x = fr := by simpa using hx
      exact committed

theorem fail (h : FramesInv ph s w) : FramesInv ph.onFail s w := by
  refine ⟨h.stored, h.next, h.seqs, h.buffered, h.all, h.new, ?_⟩
  cases ph <;> trivial

/-- A client that is told to quit has its out buffer overwritten. -/
theorem tell (h : FramesInv .quitting s w) {c : Nat} {clnt : TcpClient}
    (here : s.clients c = some clnt) :
    FramesInv (.telling c) (s.setClient c { clnt with
      outBuf := stLong clnt.outBuf 0 (htonll willQuitSeq), outNext := 0, outRemain := 8 }) w := by
  obtain ⟨len, frames, out, all⟩ := h.buffered c clnt here
  obtain ⟨done, before, sent⟩ := out.untouched (h.phase c clnt here)
  have hlen : 8 ≤ clnt.outBuf.length := by
    rw [len, pktSize]
    omega
  have idle : Outgoing (g := g) { clnt with outRemain := 0 } (w.sent c) done := .idle rfl sent
  have told := idle.put rfl .willQuit (by omega : 0 < 8)
    (by rw [length_stLong (by omega)]; exact hlen) (take_stLong willQuitSeq)
    { clnt with outBuf := stLong clnt.outBuf 0 (htonll willQuitSeq), outNext := 0, outRemain := 8 }
    rfl rfl rfl
  refine h.setClient here ?_ ⟨_, told, ?_⟩ ?_ rfl (fun _ _ => rfl)
  · exact (length_stLong (by omega)).trans len
  · intro fr hf
    rcases List.mem_append.mp hf with hf | hf
    · exact all fr (before.subset hf)
    · obtain rfl : fr = .willQuit := by simpa using hf
      trivial
  · intro i x hi hx
    rw [setClient_clients_other _ _ hi] at hx
    exact h.phase i x hx

/-- A new client has received nothing. -/
theorem join {c : Nat} (h : FramesInv (.accepting c) s w) {inBuf outBuf : List UInt8} {now : Int}
    (outLen : outBuf.length = pktSize g) :
    FramesInv (.joined c) (s.setClient c (newClient inBuf outBuf now)) w := by
  obtain ⟨_, nothing, accepted⟩ := h.phase
  refine ⟨h.stored, h.next, h.seqs, ?_, h.all, ?_, trivial⟩
  · intro i x hx
    by_cases hi : i = c
    · subst hi
      rw [setClient_clients_same] at hx
      obtain rfl := Option.some.inj hx
      exact ⟨outLen, [], .idle rfl nothing, by simp⟩
    · rw [setClient_clients_other _ _ hi] at hx
      exact h.buffered i x hx
  · intro i hi
    have hne : i ≠ c := by
      rintro rfl
      rw [accepted] at hi
      cases hi
    rw [setClient_clients_other _ _ hne]
    exact h.new i hi

theorem drop (h : FramesInv .rest s w) (c : Nat) : FramesInv .rest (s.dropClient c) w := by
  have gone : ∀ i x, (s.dropClient c).clients i = some x → s.clients i = some x := by
    intro i x hx
    simp only [dropClient] at hx
    split at hx
    · cases hx
    · exact hx
  refine ⟨h.stored, h.next, h.seqs, fun i x hx => h.buffered i x (gone i x hx), h.all, ?_, trivial⟩
  intro i hi
  refine ⟨?_, (h.new i hi).2⟩
  simp only [dropClient]
  split
  · rfl
  · exact (h.new i hi).1

theorem silent (h : FramesInv ph s w) (step : Silent ph s ph' s') : FramesInv ph' s' w := by
  cases step with
  | tally =>
    refine h.same rfl h.next h.seqs ?_
    have := h.phase
    cases ph <;> exact this
  | fail => exact h.fail
  | room | reopen =>
    refine h.same ?_ ?_ ?_ trivial
    · simp
    · simpa using h.next
    · simpa using h.seqs
  | join inBuf outBuf now inLen outLen => exact h.join outLen
  | drop c => exact h.drop c
  | sendTime now writing here => exact h.touch here rfl rfl rfl
  | merge here | forget here | promote here | find here | pass here =>
    exact h.touch here rfl rfl rfl
  | @finish _ c clnt here =>
    have touched : FramesInv .rest (s.setClient c { clnt with replyRange := .invalid }) w :=
      h.touch here rfl rfl rfl
    exact touched.same rfl h.next h.seqs trivial
  | heartbeat here idle free =>
    have len := (h.buffered _ _ here).1
    have hlen : 8 ≤ pktSize g := by
      rw [pktSize]
      omega
    refine h.put .heartbeat here idle (by omega : 0 < 8) hlen ?_ (take_stLong heartbeatSeq) rfl
      rfl trivial
    exact (length_stLong (by omega)).trans len
  | tell here => exact h.tell here
  | @told _ c clnt here done =>
    refine ⟨h.stored, h.next, h.seqs, h.buffered, h.all, h.new, ?_⟩
    intro i x hx
    by_cases hi : i = c
    · subst hi
      rw [here] at hx
      obtain rfl := Option.some.inj hx
      exact Or.inl done
    · exact h.phase i x hi hx
  | _ => exact h.same rfl h.next h.seqs trivial

/-- Answers of calls keep the frames whole. -/
theorem answered {E : Env g} {e : Event} {call : Call} (h : FramesInv ph s w)
    (step : Answer E e call ph s w ph' s' w') : FramesInv ph' s' w' := by
  cases step with
  | stamp now sends due => cases sends <;> exact h.same rfl h.next h.seqs trivial
  | send sends due below =>
    have next : 0 ≤ (if 0 ≤ ntohll (ldLong s.pktBuf 0) then s.nextSeq + 1 else s.nextSeq) := by
      have := h.next
      split <;> omega
    generalize (if 0 ≤ ntohll (ldLong s.pktBuf 0) then s.nextSeq + 1 else s.nextSeq) = n at next ⊢
    refine ⟨h.stored, next, h.seqs, h.buffered, h.all, h.new, ?_⟩
    cases sends <;> trivial
  | overflow sends due data limit =>
    have next : 0 ≤ s.nextSeq + 1 := by
      have := h.next
      omega
    refine ⟨h.stored, next, h.seqs, h.buffered, h.all, h.new, ?_⟩
    cases sends <;> trivial
  | copy known free =>
    refine h.same rfl h.next ?_ trivial
    intro i
    simp only [stageValue]
    split
    · exact h.next
    · exact h.seqs i
  | @accept c _ _ _ _ new admitted =>
    obtain ⟨absent, nothing⟩ := h.new c new
    refine ⟨h.stored, h.next, h.seqs, h.buffered, h.all, ?_, absent, nothing, by simp⟩
    intro i hi
    refine h.new i ?_
    simp only at hi
    split at hi
    · cases hi
    · exact hi
  | read data here | readLast data here =>
    obtain ⟨len, frames, out, all⟩ := h.buffered _ _ here
    exact h.setClient here len ⟨frames, out.congr rfl rfl rfl, all⟩ trivial rfl (fun _ _ => rfl)
  | @readBad _ _ _ c clnt data here =>
    have dropped := h.drop c
    exact ⟨h.stored, h.next, h.seqs, dropped.buffered, h.all, dropped.new, trivial⟩
  | @write _ _ _ _ c clnt count writing here least fits =>
    obtain ⟨len, frames, out, all⟩ := h.buffered c clnt here
    refine h.setClient here len ⟨frames, ?_, all⟩ ?_ rfl ?_
    · have written := out.write least fits
      simpa using written
    · rcases writing with rfl | rfl
      · trivial
      · intro i x hi hx
        rw [setClient_clients_other _ _ hi] at hx
        exact h.phase i x hi hx
    · intro i hi
      simp [hi]
  | @reply _ _ _ c clnt here idle busy known found within used =>
    obtain ⟨len, _⟩ := h.buffered c clnt here
    have framed := frameBuf_eq len (s.recordSeqs (clnt.replyId - g.baseId))
      (w.store.record clnt.replyId)
    have hlen := length_record_encode (s.recordSeqs (clnt.replyId - g.baseId)) clnt.replyId
      (w.store.record clnt.replyId).val
    have positive : 0 < pktSize g := by
      unfold pktSize
      omega
    refine h.put (.record (s.recordSeqs (clnt.replyId - g.baseId)) clnt.replyId
      (w.store.record clnt.replyId).val) here idle positive (le_refl _) ?_ ?_ rfl rfl ?_
    · rw [framed, hlen]
    · rw [framed, ← hlen, List.take_length]
    · exact ⟨h.seqs _, known, _, h.stored _ (le_of_lt used), rfl⟩
  | unused here => exact h.touch here rfl rfl rfl
  | _ => exact h.same rfl h.next h.seqs trivial

end FramesInv

/-- Others may commit, hold locks and use the queue; commits are never taken back. -/
theorem FramesInv.moved {ph : Phase} {s : Sender g} {w w' : World g} {m : OpenMove g}
    (h : FramesInv ph s w) (hm : World.openMove m w = some w') : FramesInv ph s w' := by
  -- what others do to the storage, with commits only added
  have carry : ∀ w' : World g, w'.sent = w.sent → w'.accepted = w.accepted →
      (∀ id, w.commits id ⊆ w'.commits id) →
      (∀ id, 0 ≤ (w'.store.record id).rev → w'.store.record id ∈ w'.commits id) →
      FramesInv ph s w' := by
    intro w' sent accepted grown stored
    have committed : ∀ fr, Committed w fr → Committed w' fr := by
      intro fr hf
      cases fr with
      | record seq id val =>
        obtain ⟨hseq, known, r, hr, hv⟩ := hf
        exact ⟨hseq, known, r, grown id hr, hv⟩
      | _ => trivial
    refine ⟨stored, h.next, h.seqs, ?_, ?_, ?_, ?_⟩
    · intro c clnt hc
      obtain ⟨len, frames, out, all⟩ := h.buffered c clnt hc
      exact ⟨len, frames, sent ▸ out, fun fr hf => committed fr (all fr hf)⟩
    · intro c
      obtain ⟨frames, before, all⟩ := h.all c
      exact ⟨frames, sent ▸ before, fun fr hf => committed fr (all fr hf)⟩
    · rw [accepted, sent]
      exact h.new
    · have hp := h.phase
      cases ph with
      | accepting c =>
        rw [FramesPhase, sent, accepted]
        exact hp
      | _ => exact hp
  cases m with
  | commit id r =>
    simp only [World.openMove] at hm
    split at hm
    · obtain rfl := Option.some.inj hm
      refine carry _ rfl rfl ?_ ?_
      · intro i r' hr
        simp only [World.commit]
        split
        · exact List.mem_append_left _ hr
        · exact hr
      · intro i
        by_cases hi : i = id
        · subst hi
          simp [World.commit]
        · simpa [World.commit, Storage.setRecord, hi] using h.stored i
    · cases hm
  | hold id r =>
    simp only [World.openMove] at hm
    split at hm
    · rename_i locked
      obtain rfl := Option.some.inj hm
      refine carry _ rfl rfl (fun _ => List.Subset.refl _) ?_
      intro i
      by_cases hi : i = id
      · subst hi
        simp only [Storage.setRecord_same]
        intro free
        omega
      · simpa [Storage.setRecord, hi] using h.stored i
    · cases hm
  | queue head q =>
    obtain rfl := Option.some.inj hm
    exact carry _ rfl rfl (fun _ => List.Subset.refl _) h.stored

/-- The step that starts the shutdown finds every out buffer empty or untouched. -/
def QuitsClean (x : Conf (openEnv g).host) (ch : Choice (openEnv g).host)
    (_ : Conf (openEnv g).host) : Prop :=
  ∀ order rounds, ch = .start (Event.quit order rounds) →
    ∀ c clnt, x.state.clients c = some clnt → clnt.outRemain = 0 ∨ clnt.outNext = 0

theorem framesKept : Kept (openEnv g) (fun _ _ _ => True) (fun _ _ _ => True)
    (fun e s _ => isQuit e → ∀ c clnt, s.clients c = some clnt → CleanFrame clnt) FramesInv where
  moved := fun h _ _ hm => h.moved hm
  silent := fun h step => h.silent step
  answered := fun h _ step => h.answered step
  quits := fun h _ clean _ => ⟨h.stored, h.next, h.seqs, h.buffered, h.all, h.new, clean rfl⟩

theorem framesInv_init (s : Sender g) (store : Storage g) (next : 0 ≤ s.nextSeq)
    (seqs : ∀ i, 0 ≤ s.recordSeqs i) (nobody : ∀ c, s.clients c = none) :
    FramesInv .rest s (World.init store) where
  stored := fun id _ => by simp [World.start]
  next := next
  seqs := seqs
  buffered := fun c clnt hc => by rw [nobody c] at hc; cases hc
  all := fun c => ⟨[], by simp [World.start], by simp⟩
  new := fun c _ => ⟨nobody c, rfl⟩
  phase := trivial

/-- What is sent when every copy is made at once. -/
theorem sent_prefix {mtu : Nat} {buf : List UInt8} {ignoreOverrun : Bool}
    {heartbeatUsec maxPktAgeUsec now : Int} {store : Storage g} {x : Conf (openEnv g).host}
    (run : (openEnv g).host.Reach QuitsClean ((openEnv g).idleConf
      (Sender.init mtu buf ignoreOverrun heartbeatUsec maxPktAgeUsec now) (World.init store)) x)
    (c : Nat) :
    ∃ frames : List (Frame g), x.world.sent c <+: encodeFrames frames ∧
      ∀ fr ∈ frames, Committed x.world fr := by
  have begins : ∀ (x y : Conf (openEnv g).host) e a, x.task = .done a →
      QuitsClean x (.start e) y → isQuit e →
      ∀ c clnt, a.sndr.clients c = some clnt → CleanFrame clnt := by
    intro x y e a ht clean quit
    cases e with
    | quit order rounds =>
      have clean := clean order rounds rfl
      rw [Conf.state, ht] at clean
      exact clean
    | _ => cases quit
  obtain ⟨ph, h⟩ := framesKept.holds (fun _ _ _ _ _ => trivial) (fun _ _ _ _ _ => trivial) begins
    (framesInv_init _ store (by simp [Sender.init]) (by simp [Sender.init]) (by simp [Sender.init]))
    trivial run
  exact h.all c

/-- In every run that starts its shutdown between frames, and in which no record gets back, while it
is copied, the revision at which its copy began: what a client was sent is a prefix of whole frames,
and the records in them carry committed values. -/
theorem frames_whole {mtu : Nat} {buf : List UInt8} {ignoreOverrun : Bool}
    {heartbeatUsec maxPktAgeUsec now : Int} {store : Storage g} {x : Conf (openEnv g).copyHost}
    (run : (openEnv g).copyHost.Reach ((openEnv g).CopyKept QuitsClean) ((openEnv g).copyIdle
      (Sender.init mtu buf ignoreOverrun heartbeatUsec maxPktAgeUsec now) (World.init store)) x)
    (c : Nat) :
    ∃ frames : List (Frame g), x.world.world.sent c <+: encodeFrames frames ∧
      ∀ fr ∈ frames, Committed x.world.world fr :=
  sent_prefix (Env.copy_refines run) c

/-- A gap is answered, and the first three bytes of the answer go out. -/
def answerPartly : List (Choice (openEnv small).host) :=
  .move (OpenMove.commit 0 ⟨1, 0, smallValue 7⟩) ::
    (acceptFirst (openEnv small) 0 0 ++ askGap (openEnv small) 1) ++
  [.start (Event.client 0 ⟨false, false, true⟩), .reply (.recordCopy 0) (.ok ⟨1, 0, smallValue 7⟩),
   .start (Event.client 0 ⟨false, false, true⟩),
   .reply (.sockWrite 0 (Frame.record 0 0 (smallValue 7)).encode) (.ok (3 : Nat)),
   .reply (.sockWrite 0 ((Frame.record 0 0 (smallValue 7)).encode.drop 3)) (.error .blocked),
   .reply .clockTime (.ok (1 : Int)), .reply .lockStats (.ok ())]

/-- A session without a shutdown. -/
theorem frames_whole_small : ∃ x, (openEnv small).copyHost.Reach ((openEnv small).CopyKept QuitsClean)
      ((openEnv small).copyIdle smallSender (World.init smallStore)) x ∧
    x.world.world.sent 0 = [0, 0, 0] ∧ ∃ frames : List (Frame small),
      x.world.world.sent 0 <+: encodeFrames frames ∧ ∀ fr ∈ frames, Committed x.world.world fr := by
  have ends : ((openEnv small).host.run answerPartly ((openEnv small).idleConf smallSender
      (World.init smallStore))).any (fun x => x.world.sent 0 == [0, 0, 0]) = true := by
    decide +kernel
  have clean : ∀ x, ∀ ch ∈ answerPartly, ∀ y, (openEnv small).host.next ch x = some y →
      QuitsClean x ch y := by
    intro x ch hch y _ order rounds quit
    subst quit
    simp [answerPartly, acceptFirst, askGap] at hch
    rcases hch with hch | hch | hch <;> cases hch
  obtain ⟨x, run, sent⟩ := Host.reach_of_any _ answerPartly clean ends
  obtain ⟨y, copies, rfl, _⟩ := Env.copy_atOnce run
  exact ⟨y, copies, eq_of_beq sent, frames_whole copies 0⟩

/-- Quitting in the middle of a frame: the client is sent bytes that no frames begin with. -/
theorem frames_torn : ∃ x, (openEnv small).copyHost.Reachable
      ((openEnv small).copyIdle smallSender (World.init smallStore)) x ∧
    ¬ ∃ frames : List (Frame small),
      x.world.world.sent 0 <+: encodeFrames frames ∧ ∀ fr ∈ frames, Committed x.world.world fr := by
  have ends : ((openEnv small).host.run (answerPartly ++
      [.start (Event.quit [0] 1), .reply (.sockWrite 0 (netLong willQuitSeq)) (.ok (8 : Nat)),
       .reply .clockTime (.ok (2 : Int)), .reply .lockStats (.ok ())])
      ((openEnv small).idleConf smallSender (World.init smallStore))).any
      (fun x => x.world.sent 0 == [0, 0, 0, 255, 255, 255, 255, 255, 255, 255, 254]) = true := by
    decide +kernel
  obtain ⟨x, run, sent⟩ := Host.reach_of_any _ _ (fun _ _ _ _ _ => trivial) ends
  obtain ⟨y, copies, rfl, _⟩ := Env.copy_atOnce run
  refine ⟨y, copies.mono _ (fun _ _ _ _ => trivial), ?_⟩
  have sent : y.world.world.sent 0 = [0, 0, 0, 255, 255, 255, 255, 255, 255, 255, 254] :=
    eq_of_beq sent
  rw [sent]
  rintro ⟨frames, ⟨rest, before⟩, committed⟩
  cases frames with
  | nil => cases before
  | cons fr more =>
    have split : encodeFrames (fr :: more) = fr.encode ++ encodeFrames more := rfl
    rw [split] at before
    cases fr with
    | heartbeat =>
      rw [Frame.encode, show netLong heartbeatSeq = [255, 255, 255, 255, 255, 255, 255, 255] by
        decide] at before
      simp at before
    | willQuit =>
      rw [Frame.encode, show netLong willQuitSeq = [255, 255, 255, 255, 255, 255, 255, 254] by
        decide] at before
      simp at before
    | record seq id val =>
      -- the ninth byte would be the first of an identifier the storage holds
      obtain ⟨_, known, _⟩ := committed _ (List.mem_cons_self ..)
      have low : 0 ≤ id := known.1
      have high : id < 2 := known.2
      have behind := congrArg (List.drop (netLong seq).length) before
      rw [Frame.encode, List.append_assoc, List.drop_left, length_netLong] at behind
      obtain rfl | rfl : id = 0 ∨ id = 1 := by omega
      · rw [show netLong 0 = [0, 0, 0, 0, 0, 0, 0, 0] by decide] at behind
        simp at behind
      · rw [show netLong 1 = [0, 0, 0, 0, 0, 0, 0, 1] by decide] at behind
        simp at behind

end Lancaster
