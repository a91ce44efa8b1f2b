import Mathlib.Data.List.Chain
import Lancaster.Replication

/-!
# The steps of the system as steps of the broadcast

Each step of the sender, of the writer and of a receiver keeps the link between a
configuration and a state of the broadcast: a record that is copied into the packet is
staged, a packet that goes out is sent, a reply is a frame, an update of the writer is a
commit. All other steps of the sender leave the broadcast where it is.
-/

namespace Lancaster

open Bytes Interleaving Sender
open Broadcast (Update Ordered Recorded)

variable {g : Geometry}

/-! ## The writer -/

/-- A record that is free is the one of its last commit, and each commit has the revision
after the one before it. -/
structure Stored (w : World g) : Prop where
  last : ∀ id, 0 ≤ (w.store.record id).rev →
    (w.commits id).getLast? = some (w.store.record id)
  high : ∀ id, (w.store.record id).rev ≤ spinMax
  revs : ∀ id, (w.commits id).IsChain fun r r' => r'.rev = nextRev r.rev
  held : ∀ id r, w.writer = .locked id r →
    r.rev ≤ spinMax ∧ ∀ r' ∈ (w.commits id).getLast?, r.rev = nextRev r'.rev

theorem Stored.same {w w' : World g} (h : Stored w) (record : w'.store.record = w.store.record)
    (commits : w'.commits = w.commits) (writer : ∀ id r, w'.writer = .locked id r →
      w.writer = .locked id r) : Stored w' := by
  refine ⟨?_, ?_, ?_, ?_⟩
  · rw [record, commits]
    exact h.last
  · rw [record]
    exact h.high
  · rw [commits]
    exact h.revs
  · intro id r held
    rw [commits]
    exact h.held id r (writer id r held)

theorem nextRev_le (v : Int) : nextRev v ≤ spinMax := by
  unfold nextRev spinMax
  omega

theorem Stored.moved {w w' : World g} {m : WriterMove g} (h : Stored w)
    (hm : World.writerMove m w = some w') : Stored w' := by
  rcases writerMove_cases hm with ⟨id, ts, val, hw, _, free, rfl⟩ | ⟨id, r, hw, rfl⟩ |
    ⟨id, hw, _, rfl⟩ | ⟨id, hw, rfl⟩
  · have high := h.high id
    have locked : lockedWord (w.store.record id).rev < 0 := by
      unfold lockedWord
      unfold spinMax at high
      split <;> omega
    refine ⟨?_, ?_, h.revs, ?_⟩
    · intro i
      by_cases hi : i = id
      · subst hi
        rw [Storage.setRecord_same]
        intro low
        exact absurd locked (not_lt.mpr low)
      · rw [Storage.setRecord_other _ _ hi]
        exact h.last i
    · intro i
      by_cases hi : i = id
      · subst hi
        rw [Storage.setRecord_same]
        unfold spinMax
        exact le_trans (le_of_lt locked) (by decide)
      · rw [Storage.setRecord_other _ _ hi]
        exact h.high i
    · intro i r held
      cases held
      refine ⟨nextRev_le _, ?_⟩
      intro r' last
      rw [h.last id free] at last
      obtain rfl := Option.some.inj last
      rfl
  · refine ⟨?_, ?_, ?_, by simp⟩
    · intro i
      by_cases hi : i = id
      · subst hi
        simp [World.commit]
      · simpa [World.commit, hi, Storage.setRecord_other] using h.last i
    · intro i
      by_cases hi : i = id
      · subst hi
        simpa [World.commit] using (h.held i r hw).1
      · simpa [World.commit, hi, Storage.setRecord_other] using h.high i
    · intro i
      by_cases hi : i = id
      · subst hi
        simp only [World.commit, ↓reduceIte]
        refine List.isChain_append.mpr ⟨h.revs i, List.isChain_singleton _, ?_⟩
        intro r' last new here
        obtain rfl := Option.some.inj here
        exact (h.held i r hw).2 r' last
      · simpa [World.commit, hi] using h.revs i
  · exact h.same rfl rfl (by simp)
  · exact h.same rfl rfl (by simp)

/-! ## The sender -/

structure NetInv (ph : Phase) (s : Sender g) (w : World g) : Prop where
  stream : StreamInv ph s w
  gap : GapCore ph s w
  awake : ph.Awake
  stored : Stored w
  low : ∀ i, 0 ≤ s.recordSeqs i

section Steps

variable {c : Nat} {ph ph' : Phase} {s s' : Sender g} {w w' : World g} {a : Broadcast.State Int}

/-- A client that is there has been accepted. -/
theorem GapCore.not_novel (h : GapCore ph s w) {clnt : TcpClient} (here : s.clients c = some clnt)
    (other : ph' ≠ .accepting c) (accepted : w'.accepted c = w.accepted c) : ¬ Novel c ph' w' := by
  rintro (new | phase)
  · rw [accepted] at new
    rw [(h.new c new).1] at here
    cases here
  · exact other phase

/-- A client that is new after an accept was new before. -/
theorem Novel.accepted {i : Nat} (new : w.accepted i = false)
    (h : Novel c (.accepting i) { w with accepted := fun j => if j = i then true else w.accepted j }) :
    Novel c ph w := by
  rcases h with unseen | phase
  · left
    simp only at unseen
    split at unseen
    · cases unseen
    · exact unseen
  · obtain rfl := Phase.accepting.inj phase
    exact Or.inl new

theorem ConnLink.silent (h : ConnLink c ph s w a) (gap : GapCore ph s w) (awake : ph.Awake)
    (nonneg : 0 ≤ a.rnext) (step : Silent ph s ph' s') : ConnLink c ph' s' w a := by
  have low : SequenceRange.invalid.high ≤ a.rnext := by
    simp only [SequenceRange.invalid, sequenceMin]
    omega
  -- a step that does not concern this client
  have keep : ∀ {ph' : Phase} {s' : Sender g}, s'.clients c = s.clients c →
      (ph' = .accepting c → ph = .accepting c) → ConnLink c ph' s' w a := by
    intro ph' s' clients accepting
    exact h.same clients rfl rfl rfl (fun new => new.imp_right accepting)
      (fun _ => List.prefix_rfl) rfl rfl
  -- a step that touches the record of some client, but not its out buffer
  have touch : ∀ {ph' : Phase} {s₁ : Sender g} {i : Nat} {clnt clnt' : TcpClient},
      s.clients i = some clnt → s₁.clients = s.clients → clnt'.outBuf = clnt.outBuf →
      clnt'.outNext = clnt.outNext → clnt'.outRemain = clnt.outRemain →
      (i = c → clnt'.unionRange.high ≤ a.rnext ∧ clnt'.replyRange.high ≤ a.rnext) →
      (ph' = .accepting c → ph = .accepting c) → ConnLink c ph' (s₁.setClient i clnt') w a := by
    intro ph' s₁ i clnt clnt' here same buf next remain ranges accepting
    by_cases hi : i = c
    · subst hi
      obtain ⟨union, reply⟩ := ranges rfl
      exact h.touch here (setClient_clients_same ..) buf next remain union reply rfl
        rfl rfl h.arrived
    · refine keep ?_ accepting
      rw [setClient_clients_other _ _ (Ne.symm hi), same]
  cases step with
  | tally => exact keep rfl id
  | fail => exact keep rfl fun phase => by cases ph <;> cases phase
  | room | reopen => exact keep (by simp) (by simp)
  | @join i _ inBuf outBuf now =>
    by_cases hi : i = c
    · subst hi
      exact h.join (gap.joining i rfl).1 nonneg inBuf outBuf now
    · exact keep (setClient_clients_other _ _ (Ne.symm hi)) (by simp)
  | drop i =>
    by_cases hi : i = c
    · subst hi
      cases here : s.clients i with
      | none => exact keep (by simp [dropClient, here]) (by simp)
      | some clnt =>
        exact h.gone (by simp [dropClient]) rfl rfl rfl h.arrived (gap.not_novel here (by simp) rfl)
    · exact keep (by simp [dropClient, Ne.symm hi]) (by simp)
  | sendTime now writing here =>
    refine touch here rfl rfl rfl rfl ?_ id
    rintro rfl
    have ranges := h.client _ here
    exact ranges
  | merge here whole => exact absurd whole (gap.not_full here)
  | forget here =>
    refine touch here rfl rfl rfl rfl ?_ (by simp)
    rintro rfl
    exact ⟨low, (h.client _ here).2⟩
  | promote here =>
    refine touch here rfl rfl rfl rfl ?_ (by simp)
    rintro rfl
    exact ⟨low, (h.client _ here).1⟩
  | find here | pass here =>
    refine touch here rfl rfl rfl rfl ?_ (by simp)
    rintro rfl
    have ranges := h.client _ here
    exact ranges
  | finish here =>
    refine touch here rfl rfl rfl rfl ?_ (by simp)
    rintro rfl
    exact ⟨(h.client _ here).1, low⟩
  | @heartbeat _ i clnt here idle =>
    by_cases hi : i = c
    · subst hi
      have len := gap.bufs i clnt here
      have eight : 0 + 8 ≤ clnt.outBuf.length := by
        rw [len, pktSize]
        omega
      refine h.put here idle .heartbeat (Nat.succ_pos 7) ?_ (take_stLong _) rfl rfl rfl rfl rfl ?_
      · rw [length_stLong eight]
        omega
      · exact fun frames awaited => awaited.beat
    · exact keep (setClient_clients_other _ _ (Ne.symm hi)) (by simp)
  | tell => exact absurd rfl awake.1
  | told => exact absurd rfl (awake.2 _)
  | _ => exact keep rfl (by simp)

theorem Linked.silent (h : Linked c ph s w a) (net : NetInv ph s w) (step : Silent ph s ph' s') :
    Linked c ph' s' w a :=
  ⟨h.sender.silent net.stream net.awake step, h.rnext, h.nonneg, h.peer,
    h.conn.silent net.gap net.awake h.nonneg step⟩

theorem NetInv.silent (h : NetInv ph s w) (step : Silent ph s ph' s') : NetInv ph' s' w := by
  refine ⟨h.stream.silent step, h.gap.silent step, (step.awake h.awake).1, h.stored, ?_⟩
  rw [step.seqs.2]
  exact h.low

/-- An answer touches neither the records nor the receivers. -/
theorem Answer.same {E : Env g} {e : Event} {call : Call}
    (step : Answer E e call ph s w ph' s' w') :
    w'.store = w.store ∧ w'.commits = w.commits ∧ w'.writer = w.writer ∧ w'.peers = w.peers ∧
      w'.log = w.log := by
  cases step <;> exact ⟨rfl, rfl, rfl, rfl, rfl⟩

theorem NetInv.answered {E : Env g} {e : Event} {call : Call} (h : NetInv ph s w)
    (step : Answer E e call ph s w ph' s' w') : NetInv ph' s' w' := by
  obtain ⟨store, commits, writer, _, _⟩ := step.same
  refine ⟨h.stream.answered step, h.gap.answered step, ?_, ?_, ?_⟩
  · have awake := h.awake
    cases step with
    | stamp | write => exact awake
    | send sends => cases sends <;> exact ⟨nofun, nofun⟩
    | overflow sends => cases sends <;> exact ⟨nofun, nofun⟩
    | _ => exact ⟨nofun, nofun⟩
  · refine h.stored.same ?_ commits ?_
    · rw [store]
    · rw [writer]
      exact fun _ _ held => held
  · have low := h.low
    have next := h.stream.1.low
    cases step with
    | copy =>
      intro i
      simp only [stageValue]
      split
      · omega
      · exact low i
    | _ => exact low

/-- What the answer of a call does to the broadcast. A record that the sender goes on behind in
its answer to client `c` without a frame is unused. -/
inductive Effect (c : Nat) (call : Call) (ph : Phase) (s : Sender g) (w : World g) (s' : Sender g)
    (a : Broadcast.State Int) : Broadcast.State Int → Prop where
  | none (unstaged : ∀ q e id sent, ph ≠ .fill q e id sent) (begun : ph ≠ .first)
      (unframed : ∀ clnt clnt', s.clients c = some clnt → s'.clients c = some clnt' →
        clnt'.replyId = clnt.replyId ∨ (w.store.record clnt.replyId).rev = 0) :
      Effect c call ph s w s' a a
  | stage {q e : Nat} {id : Int} {sent : Bool} (phase : ph = .fill q e id sent) (known : g.Holds id) :
      Effect c call ph s w s' a (a.stage id)
  | send {data : List UInt8} (sends : call = .sockSendto data) : Effect c call ph s w s' a a.send
  | frame {clnt : TcpClient} (phase : ph = .rest) (here : s.clients c = some clnt)
      (known : g.Holds clnt.replyId) (passed : a.label clnt.replyId < a.rnext) :
      Effect c call ph s w s' a (a.frame clnt.replyId)
  | rebase (phase : ph = .first) : Effect c call ph s w s' a a.rebase

theorem Effect.ordered {call : Call} {a' : Broadcast.State Int} (h : Effect c call ph s w s' a a')
    (ord : Ordered a) : Ordered a' := by
  cases h with
  | none => exact ord
  | stage phase known => exact ord.stage _
  | send => exact ord.send
  | frame phase here known passed => exact ord.frame passed
  | rebase => exact ord.rebase

/-- A step that leaves the client where it is. -/
theorem Effect.still {call : Call} (unstaged : ∀ q e id sent, ph ≠ .fill q e id sent)
    (begun : ph ≠ .first) (clients : s'.clients c = s.clients c) : Effect c call ph s w s' a a := by
  refine .none unstaged begun fun clnt clnt' here here' => Or.inl ?_
  rw [clients, here] at here'
  rw [Option.some.inj here']

/-- A step that changes a client, but not the record it is at. -/
theorem Effect.touched {call : Call} {i : Nat} {clnt clnt' : TcpClient}
    (unstaged : ∀ q e id sent, ph ≠ .fill q e id sent) (begun : ph ≠ .first)
    (here : s.clients i = some clnt) (same : clnt'.replyId = clnt.replyId) :
    Effect c call ph s w (s.setClient i clnt') a a := by
  by_cases hi : c = i
  · subst hi
    refine .none unstaged begun fun x x' hx hx' => Or.inl ?_
    rw [here] at hx
    rw [setClient_clients_same] at hx'
    rw [← Option.some.inj hx, ← Option.some.inj hx', same]
  · exact .still unstaged begun (setClient_clients_other _ _ hi)

/-- The packet at hand goes out: it has records, or it is a heartbeat. -/
theorem SenderLink.sent {ph₁ : Phase} (h : SenderLink ph s w a) (stream : StreamInv ph s w)
    (sends : ph.Sends ph₁) (due : ph = .rest → s.pktNext ≠ 0 ∨ s.mcastInsertTime ≠ 0)
    (next : s'.nextSeq =
      if 0 ≤ ntohll (ldLong s.pktBuf 0) then s.nextSeq + 1 else s.nextSeq)
    (seqs : s'.recordSeqs = s.recordSeqs)
    (left : s'.pktNext = 0 ∨ ph'.Spent ∧ 0 ≤ ntohll (ldLong s.pktBuf 0)) :
    ∃ a', (a' = a ∨ a' = a.send) ∧
      SenderLink ph' s' { w with wire := w.wire ++ [s.packet] } a' := by
  have low := stream.1.low
  have high := stream.1.high
  have fresh : ¬ ph.Spent := by cases sends <;> exact id
  unfold sequenceMax at high
  rcases (stream.sends sends due).2 with ⟨staged, _⟩ | ⟨beat, _⟩
  · obtain ⟨packet, _, _⟩ := staged.records
    rw [packet.header ⟨by omega, by omega⟩, if_pos (by omega)] at next
    exact ⟨a.send, Or.inr rfl, h.publish stream.1 staged fresh next seqs
      (left.imp staged_empty fun past => past.1)⟩
  · rw [beat.header ⟨by omega, by omega⟩] at next left
    rw [if_neg (by omega)] at next
    rcases left with empty | ⟨_, data⟩
    · exact ⟨a, Or.inl rfl, h.announce stream.1 beat fresh next seqs (staged_empty empty)⟩
    · omega

/-- Bytes that the client sent are read. -/
theorem ConnLink.read {i : Nat} {clnt : TcpClient} {data : List UInt8}
    (h : ConnLink c .rest s w a) (gap : GapCore .rest s w) (bound : a.rnext ≤ sequenceMax)
    (here : s.clients i = some clnt) (admitted : (w.recd i ++ data).isPrefixOf (w.peers i).up) :
    ConnLink c .rest (s.setClient i (clnt.fed data)) (w.read i data) a ∧
      ConnLink c .rest (s.dropClient i) (w.read i data) a ∧
      (data.length = clnt.inRemain →
        ConnLink c .rest (s.setClient i (clnt.fed data).merged) (w.read i data) a) := by
  by_cases hi : i = c
  · subst hi
    have part : w.recd i ++ data <+: (w.peers i).up := List.isPrefixOf_iff_prefix.mp admitted
    have arrived : (w.read i data).recd i <+: ((w.read i data).peers i).up := by
      rw [GapCore.read_same]
      exact part
    obtain ⟨union, reply⟩ := h.client clnt here
    refine ⟨?_, ?_, ?_⟩
    · exact h.touch here (setClient_clients_same ..) rfl rfl rfl union reply rfl rfl rfl arrived
    · exact h.gone (by simp [dropClient]) rfl rfl rfl arrived (gap.not_novel here nofun rfl)
    · intro full
      -- the last sixteen bytes are a range that was asked for
      obtain ⟨m, len, range, _⟩ := (gap.incoming i clnt here).fed_last full
      have asked := (h.range_read bound part (j := m) (le_of_eq len.symm)).2.2
      refine h.touch here (setClient_clients_same ..) rfl rfl rfl ?_ reply rfl rfl rfl arrived
      simp only [TcpClient.merged, SequenceRange.hull, range]
      split
      · exact asked
      · exact union
  · have other : (w.read i data).recd c = w.recd c := GapCore.read_other w data (Ne.symm hi)
    have keep : ∀ {s' : Sender g}, s'.clients c = s.clients c →
        ConnLink c .rest s' (w.read i data) a := by
      intro s' clients
      exact h.same clients rfl other rfl id (fun _ => List.prefix_rfl) rfl rfl
    exact ⟨keep (setClient_clients_other _ _ (Ne.symm hi)),
      keep (by simp [dropClient, Ne.symm hi]),
      fun _ => keep (setClient_clients_other _ _ (Ne.symm hi))⟩

/-- A record goes into the out buffer of the client. -/
theorem ConnLink.reply {clnt : TcpClient} (h : ConnLink c .rest s w a) (gap : GapCore .rest s w)
    (here : s.clients c = some clnt) (idle : clnt.outRemain = 0) (known : g.Holds clnt.replyId)
    (label : a.label clnt.replyId = s.recordSeqs (clnt.replyId - g.baseId))
    (nonneg : 0 ≤ a.label clnt.replyId) (bound : a.label clnt.replyId ≤ sequenceMax)
    (had : w.Had clnt.replyId (a.ver clnt.replyId) (w.store.record clnt.replyId).val) :
    ConnLink c .rest (s.setClient c { clnt with
      outBuf := frameBuf clnt (s.recordSeqs (clnt.replyId - g.baseId)) (w.store.record clnt.replyId)
      outNext := 0
      outRemain := pktSize g
      replyId := clnt.replyId + 1 }) w (a.frame clnt.replyId) := by
  have framed := frameBuf_eq (gap.bufs c clnt here) (s.recordSeqs (clnt.replyId - g.baseId))
    (w.store.record clnt.replyId)
  rw [← label] at framed ⊢
  have len := length_record_encode (a.label clnt.replyId) clnt.replyId
    (w.store.record clnt.replyId).val
  have positive : 0 < pktSize g := by
    rw [pktSize]
    omega
  refine h.put here idle (.record (a.label clnt.replyId) clnt.replyId
    (w.store.record clnt.replyId).val) positive ?_ ?_ rfl rfl rfl rfl rfl ?_
  · simp only [framed, len]
    exact le_refl _
  · simp only [framed]
    rw [← len, List.take_length]
  · exact fun frames awaited => awaited.put nonneg bound known had

namespace Linked

/-- A step that leaves the connection alone. -/
theorem alone {a' : Broadcast.State Int} (h : Linked c ph s w a)
    (clients : s'.clients c = s.clients c)
    (commits : w'.commits = w.commits) (sent : w'.sent c = w.sent c) (recd : w'.recd c = w.recd c)
    (peers : w'.peers = w.peers) (novel : Novel c ph' w' → Novel c ph w)
    (rnext : a'.rnext = a.rnext) (frames : a'.frames = a.frames) : ConnLink c ph' s' w' a' := by
  refine h.conn.same clients sent recd (congrFun peers c) novel ?_ rnext frames
  exact fun id => (congrFun commits id).symm ▸ List.prefix_rfl

/-- A step that neither sends nor stages. -/
theorem still (h : Linked c ph s w a) (next : s'.nextSeq = s.nextSeq)
    (seqs : s'.recordSeqs = s.recordSeqs) (staged : s'.staged = s.staged)
    (spent : ph.Spent → ph'.Spent) (commits : w'.commits = w.commits) (wire : w'.wire = w.wire)
    (peers : w'.peers = w.peers) (conn : ConnLink c ph' s' w' a) : Linked c ph' s' w' a := by
  refine ⟨h.sender.same next seqs staged commits wire spent, ?_, h.nonneg, ?_, conn⟩
  · rw [peers]
    exact h.rnext
  · rw [peers]
    exact h.peer.mono fun id => (congrFun commits id).symm ▸ List.prefix_rfl

/-- The packet goes out. -/
theorem sent {ph₁ : Phase} (h : Linked c ph s w a) (net : NetInv ph s w) (sends : ph.Sends ph₁)
    (due : ph = .rest → s.pktNext ≠ 0 ∨ s.mcastInsertTime ≠ 0)
    (next : s'.nextSeq =
      if 0 ≤ ntohll (ldLong s.pktBuf 0) then s.nextSeq + 1 else s.nextSeq)
    (seqs : s'.recordSeqs = s.recordSeqs) (clients : s'.clients = s.clients)
    (left : s'.pktNext = 0 ∨ ph'.Spent ∧ 0 ≤ ntohll (ldLong s.pktBuf 0))
    (other : ph' ≠ .accepting c) :
    ∃ a', Effect c (.sockSendto s.packet) ph s w s' a a' ∧
      Linked c ph' s' { w with wire := w.wire ++ [s.packet] } a' := by
  obtain ⟨a', which, sender⟩ := h.sender.sent net.stream sends due next seqs left
  have novel : Novel c ph' { w with wire := w.wire ++ [s.packet] } → Novel c ph w :=
    fun new => new.imp_right fun phase => absurd phase other
  rcases which with rfl | rfl
  · refine ⟨_, .still ?_ ?_ (congrFun clients c), sender, h.rnext, h.nonneg,
      ⟨h.peer.label, h.peer.hist, h.peer.val⟩,
      h.alone (congrFun clients c) rfl rfl rfl rfl novel rfl rfl⟩ <;> cases sends <;> simp
  · exact ⟨_, .send rfl, sender, h.rnext, h.nonneg, ⟨h.peer.label, h.peer.hist, h.peer.val⟩,
      h.alone (congrFun clients c) rfl rfl rfl rfl novel rfl rfl⟩

theorem answered {e : Event} {call : Call} (h : Linked c ph s w a) (net : NetInv ph s w)
    (ord : Ordered a) (step : Answer (netEnv g) e call ph s w ph' s' w') :
    ∃ a', Effect c call ph s w s' a a' ∧ Linked c ph' s' w' a' := by
  have high : s.nextSeq ≤ sequenceMax := net.stream.1.high
  have bound : a.rnext ≤ sequenceMax := by
    have := ord.rnext_le
    have := h.sender.next
    omega
  cases step with
  | idle | opens | overrun | readQueue | skip | changed =>
    refine ⟨a, .still (by simp) (by simp) rfl, h.still rfl rfl rfl False.elim rfl rfl rfl ?_⟩
    exact h.alone rfl rfl rfl rfl rfl (fun new => new.imp_right nofun) rfl rfl
  | jump =>
    refine ⟨a.rebase, .rebase rfl, ?_, h.rnext, h.nonneg, ⟨h.peer.label, h.peer.hist, h.peer.val⟩,
      h.alone rfl rfl rfl rfl rfl (fun new => new.imp_right (by simp)) rfl rfl⟩
    have sender : SenderLink .rest { s with lastQIdx := w.store.qHead } w a :=
      h.sender.same rfl rfl rfl rfl rfl False.elim
    exact ⟨sender.next, sender.label, sender.ver, sender.pkt, sender.wire⟩
  | stamp now sends due =>
    refine ⟨a, .still ?_ ?_ rfl,
      h.still rfl rfl (net.stream.staged_stamp sends due now) id rfl rfl rfl ?_⟩
    · cases sends <;> simp
    · cases sends <;> simp
    · exact h.alone rfl rfl rfl rfl rfl id rfl rfl
  | send sends due below =>
    refine h.sent net sends due ?_ rfl rfl (Or.inl rfl) ?_
    · simp only
    · cases sends <;> exact nofun
  | overflow sends due data limit =>
    refine h.sent net sends due ?_ rfl rfl (Or.inr ⟨?_, data⟩) ?_
    · rw [if_pos data]
    · cases sends <;> trivial
    · cases sends <;> exact nofun
  | @copy q e id sent _ _ known free =>
    refine ⟨a.stage id, .stage rfl known, ?_, h.rnext, h.nonneg,
      ⟨h.peer.label, h.peer.hist, h.peer.val⟩, ?_⟩
    · exact h.sender.stage net.stream known (net.stored.last id free)
    · exact h.alone rfl rfl rfl rfl rfl (fun new => new.imp_right nofun) rfl rfl
  | @accept i _ _ _ _ new admitted =>
    refine ⟨a, .still (by simp) (by simp) rfl, h.still rfl rfl rfl False.elim rfl rfl rfl ?_⟩
    exact h.alone rfl rfl rfl rfl rfl (Novel.accepted new) rfl rfl
  | read data here nonempty fits admitted =>
    exact ⟨a, .touched (by simp) (by simp) here rfl, h.still rfl rfl rfl False.elim rfl rfl rfl
      (h.conn.read net.gap bound here admitted).1⟩
  | readLast data here nonempty full valid admitted =>
    exact ⟨a, .touched (by simp) (by simp) here rfl, h.still rfl rfl rfl False.elim rfl rfl rfl
      ((h.conn.read net.gap bound here admitted).2.2 full)⟩
  | @readBad _ _ _ i clnt data here nonempty full bad admitted =>
    refine ⟨a, ?_, h.still rfl rfl rfl False.elim rfl rfl rfl
      (h.conn.read net.gap bound here admitted).2.1⟩
    by_cases hi : c = i
    · exact .none (by simp) (by simp) fun _ _ _ gone => by simp [dropClient, hi] at gone
    · exact .still (by simp) (by simp) (by simp [dropClient, hi])
  | @write _ _ _ _ i clnt count writing here positive fits =>
    refine ⟨a, .touched ?_ ?_ here rfl, h.still rfl rfl rfl id rfl rfl rfl ?_⟩
    · rcases writing with rfl | rfl <;> simp
    · rcases writing with rfl | rfl <;> simp
    by_cases hi : i = c
    · subst hi
      exact h.conn.write here positive fits
    · exact h.alone (setClient_clients_other _ _ (Ne.symm hi)) rfl (if_neg (Ne.symm hi)) rfl rfl id
        rfl rfl
  | @reply _ _ _ i clnt here idle busy known found within used =>
    by_cases hi : i = c
    · subst hi
      have label := h.sender.label clnt.replyId
      have last := net.stored.last clnt.replyId (le_of_lt used)
      have passed : a.label clnt.replyId < a.rnext := by
        have := (h.conn.client clnt here).2
        have := within.2
        omega
      have low : 0 ≤ a.label clnt.replyId := by
        rw [label]
        exact net.low _
      refine ⟨a.frame clnt.replyId, .frame rfl here known passed, ?_, h.rnext, h.nonneg,
        ⟨h.peer.label, h.peer.hist, h.peer.val⟩, ?_⟩
      · exact ⟨h.sender.next, h.sender.label, h.sender.ver, h.sender.pkt, h.sender.wire⟩
      · exact h.conn.reply net.gap here idle known label low (by omega) (h.sender.had_last last)
    · refine ⟨a, .still (by simp) (by simp) (setClient_clients_other _ _ (Ne.symm hi)),
        h.still rfl rfl rfl False.elim rfl rfl rfl ?_⟩
      exact h.alone (setClient_clients_other _ _ (Ne.symm hi)) rfl rfl rfl rfl id rfl rfl
  | @unused _ _ _ i clnt here idle busy known found zero =>
    refine ⟨a, ?_, h.still rfl rfl rfl False.elim rfl rfl rfl ?_⟩
    · by_cases hi : c = i
      · subst hi
        refine .none (by simp) (by simp) fun x x' hx _ => Or.inr ?_
        rw [here] at hx
        rw [← Option.some.inj hx]
        exact zero
      · exact .still (by simp) (by simp) (setClient_clients_other _ _ hi)
    by_cases hi : i = c
    · subst hi
      obtain ⟨union, reply⟩ := h.conn.client clnt here
      exact h.conn.touch here (setClient_clients_same ..) rfl rfl rfl union reply rfl rfl rfl
        h.conn.arrived
    · exact h.alone (setClient_clients_other _ _ (Ne.symm hi)) rfl rfl rfl rfl id rfl rfl

end Linked

end Steps

/-! ## The receiver -/

/-- What a datagram does to the broadcast, and the ranges that are asked for. -/
inductive Arrival (a : Broadcast.State Int) : Broadcast.State Int → List SequenceRange → Prop where
  | none : Arrival a a []
  | skip {n : Int} (more : a.rnext < n) (bound : n ≤ a.next) : Arrival a (a.skipTo n) [⟨a.rnext, n⟩]
  | take {n : Int} {items : List (Int × Nat)} (here : (n, items) ∈ a.sent) (late : a.rnext ≤ n) :
      Arrival a ((a.take n items).skipTo (n + 1)) (if a.rnext < n then [⟨a.rnext, n⟩] else [])

namespace Arrival

variable {a a' : Broadcast.State Int} {gaps : List SequenceRange} (h : Arrival a a' gaps)

include h

theorem ordered (ord : Ordered a) : Ordered a' := by
  cases h with
  | none => exact ord
  | skip more bound => exact ord.skipTo (le_of_lt more) bound
  | take here late => exact ord.take here late

/-- Only the subscriber changes. -/
theorem same : ∃ rnext rlabel rver hist, a' = { a with
    rnext := rnext, rlabel := rlabel, rver := rver, hist := hist } := by
  cases h with
  | none => exact ⟨_, _, _, _, rfl⟩
  | skip => exact ⟨_, _, _, _, rfl⟩
  | @take n items here late =>
    obtain ⟨rlabel, rver, hist, eq⟩ := (Broadcast.taken n items a).same
    rw [eq]
    exact ⟨_, _, _, _, rfl⟩

theorem rnext_le : a.rnext ≤ a'.rnext := by
  cases h with
  | none => exact le_refl _
  | skip more bound => exact le_of_lt more
  | @take n items here late => exact le_trans late (Int.le_of_lt (Int.lt_succ n))

/-- What is asked for has been passed. -/
theorem gaps_passed {range : SequenceRange} (here : range ∈ gaps) :
    range.low = a.rnext ∧ range.low < range.high ∧ range.high ≤ a'.rnext := by
  cases h with
  | none => cases here
  | skip more bound =>
    obtain rfl := List.mem_singleton.mp here
    exact ⟨rfl, more, le_refl _⟩
  | @take n items sent late =>
    split at here
    · rename_i more
      obtain rfl := List.mem_singleton.mp here
      exact ⟨rfl, more, Int.le_of_lt (Int.lt_succ n)⟩
    · cases here

end Arrival

section Peers

variable {c : Nat} {ph : Phase} {s : Sender g} {w : World g} {a a' : Broadcast.State Int}

/-- The receiver has handled a datagram. -/
theorem ConnLink.heard {gaps : List SequenceRange} {r : Receiver g} {ended : Bool}
    (h : ConnLink c ph s w a) (arrival : Arrival a a' gaps) (nonneg : 0 ≤ a.rnext)
    (requests : Requests r (w.peers c).up) (same : SameIn (w.peers c).recv r)
    (asked : gapRanges r.acts = gapRanges (w.peers c).recv.acts ++ gaps) :
    ConnLink c ph s (w.setPeer c { w.peers c with recv := r, ended := ended }) a' := by
  obtain ⟨frames, handed, awaited⟩ := h.frames
  have here : (w.setPeer c { w.peers c with recv := r, ended := ended }).peers c =
      { w.peers c with recv := r, ended := ended } := if_pos rfl
  have more := arrival.rnext_le
  refine ⟨?_, ?_, ?_, ?_, frames, handed, ?_⟩
  · rw [here]
    exact requests
  · rw [here]
    exact h.arrived
  · rw [here]
    intro range hr
    simp only [asked] at hr
    rcases List.mem_append.mp hr with hr | hr
    · obtain ⟨low, valid, high⟩ := h.ranges range hr
      exact ⟨low, valid, high.trans more⟩
    · obtain ⟨low, valid, high⟩ := arrival.gaps_passed hr
      exact ⟨low ▸ nonneg, valid, high⟩
  · intro clnt hc
    obtain ⟨union, reply⟩ := h.client clnt hc
    exact ⟨union.trans more, reply.trans more⟩
  · obtain ⟨rnext, rlabel, rver, hist, rfl⟩ := arrival.same
    obtain ⟨done, rest, part, split, taken, reading, all⟩ := awaited.split
    rw [here]
    exact ⟨awaited.sound, awaited.within, done, rest, part, split, taken, reading.congr same, all⟩

/-- What a receiver has made of a datagram, as far as it got. -/
structure Heard (w : World g) (a a' : Broadcast.State Int) (st : Int) (r r' : Receiver g) :
    Prop where
  recorded : Recorded a'
  raised : ∀ i, a.rlabel i ≤ a'.rlabel i
  link : PeerLink w r' a'
  same : SameIn r r'
  fine : ¬ Status.Failed st → ∃ gaps, Arrival a a' gaps ∧ a'.rnext = r'.nextSeq ∧
    gapRanges r'.acts = gapRanges r.acts ++ gaps

/-- Moving on to a number that was announced. -/
theorem PeerLink.advance_beat {r : Receiver g} (h : PeerLink w r a) (ord : Ordered a)
    (level : a.rnext = r.nextSeq) (inp : Receiver.McastInput) {n : Int} (bound : n ≤ a.next) :
    ∃ a', Heard w a a' (r.advance inp n true).1 r (r.advance inp n true).2 := by
  obtain ⟨st, r', eq, quiet, same, fine⟩ := Receiver.advance_quiet r inp n true
  rw [eq]
  by_cases more : r.nextSeq < n
  · refine ⟨a.skipTo n, ⟨ord.recorded.sorted, ord.recorded.below⟩, fun _ => le_refl _, ?_, same, ?_⟩
    · have link := h.quiet quiet
      exact ⟨link.label, link.hist, link.val⟩
    · intro done
      obtain ⟨next, gaps⟩ := fine done
      rw [if_pos more, ← level] at gaps
      simp only [more, ↓reduceIte, Int.add_zero] at next
      exact ⟨_, .skip (by omega) bound, next.symm, gaps⟩
  · refine ⟨a, ord.recorded, fun _ => le_refl _, h.quiet quiet, same, ?_⟩
    intro done
    obtain ⟨next, gaps⟩ := fine done
    rw [if_neg more] at gaps
    simp only [more, ↓reduceIte, Int.add_zero] at next
    exact ⟨_, .none, level.trans next.symm, gaps⟩

/-- A data packet that is not late. -/
theorem PeerLink.advance_data {r r₁ : Receiver g} (h : PeerLink w r a) (ord : Ordered a)
    (level : a.rnext = r.nextSeq) (inp : Receiver.McastInput) {n : Int}
    {recs : List (Int × Value g)}
    {items : List (Int × Nat)} (sent : (n, items) ∈ a.sent) (late : a.rnext ≤ n)
    (all : List.Forall₂ (Carries w) items recs) (applied : Applied n recs r r₁) (same : SameIn r r₁)
    (updated : Updated r r₁) :
    Heard w a ((a.take n items).skipTo (n + 1))
      (Receiver.advance { r₁ with acts := r₁.acts ++ [.applied n] } inp n false).1 r
      (Receiver.advance { r₁ with acts := r₁.acts ++ [.applied n] } inp n false).2 := by
  obtain ⟨st, r', eq, quiet, same', fine⟩ :=
    Receiver.advance_quiet { r₁ with acts := r₁.acts ++ [.applied n] } inp n false
  have recorded := ord.take_recorded (List.mem_cons_of_mem _ sent) late List.prefix_rfl
  have marked : Quiet r₁ { r₁ with acts := r₁.acts ++ [.applied n] } := by
    refine ⟨rfl, fun _ => rfl, ?_⟩
    rw [updates_append]
    exact List.append_nil _
  have link := (h.applied applied all).quiet (marked.trans quiet)
  rw [eq]
  refine ⟨⟨recorded.sorted, recorded.below⟩, fun i => ord.take_raised items late i,
    ⟨link.label, link.hist, link.val⟩, ?_, ?_⟩
  · exact same.trans ⟨same'.buf, same'.next, same'.remain⟩
  · intro done
    obtain ⟨next, gaps⟩ := fine done
    obtain ⟨ups, acts, _, empty⟩ := updated.acts
    have first : Receiver.nextSeq { r₁ with acts := r₁.acts ++ [.applied n] } = a.rnext :=
      updated.next.trans level.symm
    have before : gapRanges (Receiver.acts { r₁ with acts := r₁.acts ++ [.applied n] }) =
        gapRanges r.acts := by
      rw [gapRanges_append, acts, gapRanges_append, empty, List.append_nil]
      exact List.append_nil _
    rw [first] at next gaps
    have reached : (if a.rnext < n then n else a.rnext) = n := by
      split <;> omega
    rw [before] at gaps
    rw [reached] at next
    exact ⟨_, .take sent late, next.symm, gaps⟩

/-- A datagram, as far as the receiver gets with it. -/
theorem PeerLink.heard {r : Receiver g} (h : PeerLink w r a) (ord : Ordered a)
    (sender : SenderLink ph s w a) (level : a.rnext = r.nextSeq) {inp : Receiver.McastInput}
    (carried : w.carries inp) : ∃ a', Heard w a a' (r.mcastOnRead inp).1 r (r.mcastOnRead inp).2 := by
  have touched : ∀ time bytes, PeerLink w { r with mcastRecvTime := time, mcastBytesRecv := bytes } a :=
    fun time bytes => h.quiet ⟨rfl, fun _ => rfl, rfl⟩
  rcases Receiver.mcastOnRead_cases r inp with
    ⟨time, bytes, eq, failed⟩ | ⟨data, now, bytes, got, _, source, eq⟩
  · refine ⟨a, ord.recorded, fun _ => le_refl _, ?_, ?_, fun fine => absurd failed fine⟩
    · rw [eq]
      exact touched time bytes
    · rw [eq]
      exact ⟨rfl, rfl, rfl⟩
  · have link := touched now bytes
    rw [eq]
    have sent : data ∈ w.wire := by
      simpa [World.carries, got, source] using carried
    rcases sender.wire data sent with
      ⟨n, stamp, recs, items, rfl, len, known, nonneg, bound, here, all⟩ |
      ⟨n, stamp, rfl, pos, bound, le⟩
    · rcases Receiver.mcastOnPacket_data { r with mcastRecvTime := now, mcastBytesRecv := bytes } inp
          now nonneg bound len known with
        ⟨_, eq⟩ | ⟨late, done, r₁, part, applied, same, updated, ⟨st, failed, _, eq⟩ | ⟨rfl, eq⟩⟩
      · rw [eq]
        exact ⟨a, ord.recorded, fun _ => le_refl _, link, ⟨rfl, rfl, rfl⟩,
          fun _ => ⟨[], .none, level, (List.append_nil _).symm⟩⟩
      · -- a part of the packet, and then the end
        obtain ⟨more, rfl⟩ := part
        have first := List.forall₂_take_append _ _ _ all
        have recorded := ord.take_recorded (List.mem_cons_of_mem _ here) (level.trans_le late)
          (List.take_prefix done.length items)
        rw [eq]
        exact ⟨_, recorded, fun i => ord.take_raised _ (level.trans_le late) i,
          link.applied applied first, ⟨same.buf, same.next, same.remain⟩,
          fun fine => absurd failed fine⟩
      · rw [eq]
        have heard := link.advance_data ord level inp here (level.trans_le late) all applied same updated
        exact ⟨_, heard.recorded, heard.raised, heard.link,
          ⟨heard.same.buf, heard.same.next, heard.same.remain⟩, heard.fine⟩
    · rw [Receiver.mcastOnPacket_beat _ inp now pos bound]
      obtain ⟨a', heard⟩ := link.advance_beat ord level inp le
      exact ⟨a', heard.recorded, heard.raised, heard.link,
        ⟨heard.same.buf, heard.same.next, heard.same.remain⟩, heard.fine⟩

/-- A running receiver handles a datagram. -/
theorem Linked.heard (h : Linked c ph s w a) (ord : Ordered a) {inp : Receiver.McastInput}
    (free : (w.peers c).recv.outRemain = 0) (carried : w.carries inp) :
    ∃ a', Recorded a' ∧ (∀ i, a.rlabel i ≤ a'.rlabel i) ∧
      PeerLink w ((w.peers c).heard inp).recv a' ∧
      (((w.peers c).heard inp).ended = false →
        ∃ gaps, Arrival a a' gaps ∧ Linked c ph s (w.setPeer c ((w.peers c).heard inp)) a' ∧
          gapRanges ((w.peers c).heard inp).recv.acts =
            gapRanges (w.peers c).recv.acts ++ gaps) := by
  obtain ⟨a', heard⟩ := h.peer.heard ord h.sender h.rnext carried
  refine ⟨a', heard.recorded, heard.raised, heard.link, ?_⟩
  intro running
  obtain ⟨gaps, arrival, next, asked⟩ := heard.fine (of_decide_eq_false running)
  have here : (w.setPeer c ((w.peers c).heard inp)).peers c = (w.peers c).heard inp := if_pos rfl
  have requests := h.conn.requests.mcastOnRead inp fun _ => free
  refine ⟨gaps, arrival, ⟨?_, ?_, ?_, ?_, ?_⟩, asked⟩
  · obtain ⟨rnext, rlabel, rver, hist, rfl⟩ := arrival.same
    exact ⟨h.sender.next, h.sender.label, h.sender.ver, h.sender.pkt, h.sender.wire⟩
  · rw [here]
    exact next
  · exact h.nonneg.trans arrival.rnext_le
  · rw [here]
    exact ⟨heard.link.label, heard.link.hist, heard.link.val⟩
  · exact h.conn.heard arrival h.nonneg requests heard.same asked

/-- What a TCP event of the receiver does to the broadcast. -/
inductive Delivered (a : Broadcast.State Int) : Broadcast.State Int → Prop where
  | none : Delivered a a
  | frame {e : Update Int} {rest : List (Update Int)} (front : a.frames = e :: rest) :
      Delivered a (a.deliver e rest)

theorem Delivered.ordered (h : Delivered a a') (ord : Ordered a) : Ordered a' := by
  cases h with
  | none => exact ord
  | frame front => exact ord.deliver front

theorem Delivered.raised (h : Delivered a a') (i : Int) : a.rlabel i ≤ a'.rlabel i := by
  cases h with
  | none => exact le_refl _
  | @frame e rest front =>
    unfold Broadcast.State.deliver
    split
    · rename_i newer
      simp only [Broadcast.State.update, Function.update_apply]
      split
      · rename_i hi
        rw [hi]
        exact le_of_lt newer
      · exact le_refl _
    · exact le_refl _

/-- Only the subscriber and the frames change. -/
theorem Delivered.same (h : Delivered a a') : ∃ frames rlabel rver hist, a' = { a with
    frames := frames, rlabel := rlabel, rver := rver, hist := hist } := by
  cases h with
  | none => exact ⟨_, _, _, _, rfl⟩
  | frame front =>
    unfold Broadcast.State.deliver
    split <;> exact ⟨_, _, _, _, rfl⟩

/-- A frame is used, or it is not newer than what is there. -/
theorem PeerLink.delivered {r r' : Receiver g} (h : PeerLink w r a) {e : Update Int}
    {seq id : Int} {val : Value g} (stands : Stands w e (seq, id, val))
    (took : Took r r' (.record seq id val)) (rest : List (Update Int)) :
    PeerLink w r' (a.deliver e rest) := by
  obtain ⟨label, i, v⟩ := e
  obtain ⟨rfl, rfl, had⟩ := stands
  have known := h.label i
  have cut : PeerLink w r { a with frames := rest } := ⟨h.label, h.hist, h.val⟩
  unfold Broadcast.State.deliver
  split
  · rename_i newer
    exact cut.wrote (took.1 (known ▸ newer)) had
  · rename_i older
    exact cut.quiet (took.2 (known ▸ older))

/-- Bytes are read from the connection. -/
theorem take_add_of_prefix {bytes data : List UInt8} {n : Nat} (next : data <+: bytes.drop n) :
    bytes.take (n + data.length) = bytes.take n ++ data := by
  rw [List.take_add, List.prefix_iff_eq_take.mp next]
  simp

/-- The receiver after a TCP event, with the frames that it has not finished. -/
theorem Linked.turned (h : Linked c ph s w a) (delivered : Delivered a a') {p : Peer g}
    (next : p.recv.nextSeq = (w.peers c).recv.nextSeq)
    (gaps : gapRanges p.recv.acts = gapRanges (w.peers c).recv.acts)
    (more : (w.peers c).up <+: p.up) (requests : Requests p.recv p.up) (link : PeerLink w p.recv a')
    {frames : List (Frame g)} (handed : Handed c ph s w frames)
    (awaited : Awaited (w.sent c) w p frames a') : Linked c ph s (w.setPeer c p) a' := by
  have here : (w.setPeer c p).peers c = p := if_pos rfl
  obtain ⟨list, rlabel, rver, hist, rfl⟩ := delivered.same
  refine ⟨?_, ?_, h.nonneg, ?_, ?_, ?_, ?_, h.conn.client, frames, handed, ?_⟩
  · exact ⟨h.sender.next, h.sender.label, h.sender.ver, h.sender.pkt, h.sender.wire⟩
  · rw [here, next]
    exact h.rnext
  · rw [here]
    exact ⟨link.label, link.hist, link.val⟩
  · rw [here]
    exact requests
  · rw [here]
    exact h.conn.arrived.trans more
  · rw [here, gaps]
    exact h.conn.ranges
  · rw [here]
    exact ⟨awaited.sound, awaited.within, awaited.split⟩

/-- A TCP event of a receiver whose clock and locks work. -/
theorem Linked.event (h : Linked c ph s w a) {pollin pollout : Bool} {inp : Receiver.TcpReadInput}
    {results : List (Except Failure Nat)} {setEvent : Except Failure Unit} {now : Int}
    (clock : inp.clockUpdate = .ok now) (lock : ∀ id, inp.lock id = .ok ())
    (next : Receiver.segmentBytes inp.segs <+: (w.sent c).drop (w.peers c).got) {st : Int}
    {r : Receiver g} {segs : List Receiver.Segment} {data : List UInt8}
    (event : (w.peers c).recv.eventFunc pollin pollout inp results setEvent = (st, r, segs, data))
    (ended : Bool) : gapRanges r.acts = gapRanges (w.peers c).recv.acts ∧
    ∃ a', Delivered a a' ∧ Linked c ph s (w.setPeer c {
      recv := r
      up := (w.peers c).up ++ data
      got := (w.peers c).got +
        ((Receiver.segmentBytes inp.segs).length - (Receiver.segmentBytes segs).length)
      ended := ended }) a' := by
  obtain ⟨frames, handed, awaited⟩ := h.conn.frames
  obtain ⟨done, rest, part, split, taken, reading, all⟩ := awaited.split
  -- what is still to come of the frames
  obtain ⟨tail, whole⟩ := handed.sent_prefix
  have bytes : encodeFrames rest = part ++ ((w.sent c).drop (w.peers c).got ++ tail) := by
    rw [split, encodeFrames_append, ← List.take_append_drop (w.peers c).got (w.sent c), taken,
      List.append_assoc, List.append_assoc] at whole
    simpa using (List.append_cancel_left whole).symm
  have sound : ∀ fr ∈ rest, fr.Sound := by
    intro fr hf
    refine awaited.sound fr ?_
    rw [split]
    exact List.mem_append_right _ hf
  obtain ⟨st', r', segs', out, read, eq, used, same, gaps, written, outcome⟩ :=
    Receiver.eventFunc_flow reading sound bytes pollin pollout inp results setEvent clock lock
      (next.trans (List.prefix_append _ _))
  rw [event] at eq
  cases eq
  refine ⟨gaps, ?_⟩
  -- the bytes that were read are the next ones
  have count : (Receiver.segmentBytes inp.segs).length - (Receiver.segmentBytes segs).length =
      read.length := by
    rw [used, List.length_append, Nat.add_sub_cancel]
  rw [count]
  have front : read <+: (w.sent c).drop (w.peers c).got := by
    refine List.IsPrefix.trans ?_ next
    rw [used]
    exact List.prefix_append _ _
  have longer := take_add_of_prefix front
  have within : (w.peers c).got + read.length ≤ (w.sent c).length := by
    have le := front.length_le
    have old := awaited.within
    rw [List.length_drop] at le
    omega
  rw [taken, List.append_assoc] at longer
  have turned : ∀ {a' : Broadcast.State Int}, Delivered a a' → PeerLink w r a' →
      Awaited (w.sent c) w ⟨r, (w.peers c).up ++ data, (w.peers c).got + read.length,
        ended⟩ frames a' →
      Linked c ph s (w.setPeer c
        ⟨r, (w.peers c).up ++ data, (w.peers c).got + read.length, ended⟩) a' :=
    fun delivered link awaited => h.turned delivered same gaps (List.prefix_append _ _)
      (written _ h.conn.requests) link handed awaited
  rcases outcome with ⟨reading, quiet⟩ | ⟨fr, rest', rfl, whole, reading, took⟩
  · refine ⟨a, .none, turned .none (h.peer.quiet quiet) ?_⟩
    exact ⟨awaited.sound, within, done, rest, _, split, longer, reading, all⟩
  · have leftOver : (w.sent c).take ((w.peers c).got + read.length) =
        encodeFrames (done ++ [fr]) ++ [] := by
      rw [longer, whole, encodeFrames_concat, List.append_nil]
    have split : frames = (done ++ [fr]) ++ rest' := by
      rw [split, List.append_assoc]
      rfl
    cases fr with
    | heartbeat =>
      refine ⟨a, .none, turned .none (h.peer.quiet took) ?_⟩
      exact ⟨awaited.sound, within, _, rest', [], split, leftOver, reading, all⟩
    | willQuit => exact absurd (sound _ (List.mem_cons_self ..)) id
    | record seq id val =>
      have all : List.Forall₂ (Stands w) a.frames ((seq, id, val) :: recordFrames rest') := all
      cases hf : a.frames with
      | nil =>
        rw [hf] at all
        cases all
      | cons e later =>
        rw [hf] at all
        obtain ⟨stands, all⟩ := List.forall₂_cons.mp all
        have delivered : Delivered a (a.deliver e later) := .frame hf
        refine ⟨_, delivered, turned delivered (h.peer.delivered stands took later) ?_⟩
        refine ⟨awaited.sound, within, _, rest', [], split, leftOver, reading, ?_⟩
        have left : (a.deliver e later).frames = later := by
          unfold Broadcast.State.deliver
          split <;> rfl
        rw [left]
        exact all

/-- A datagram from the publisher was sent. -/
theorem World.carries_wire {inp : Receiver.McastInput} {r : Receiver g} (carried : w.carries inp)
    (fine : ¬ Status.Failed (r.mcastOnRead inp).1) : w.wire ≠ [] := by
  rcases Receiver.mcastOnRead_cases r inp with ⟨_, _, _, failed⟩ | ⟨data, _, _, got, _, source, _⟩
  · exact absurd failed fine
  · have sent : data ∈ w.wire := by
      simpa [World.carries, got, source] using carried
    exact List.ne_nil_of_mem sent

/-- What a step of a running receiver does to the broadcast, and the ranges that it asks for. -/
inductive PeerEffect (w : World g) (c : Nat) (p : Peer g) (a a' : Broadcast.State Int) : Prop where
  | heard {gaps : List SequenceRange} (arrival : Arrival a a' gaps) (wire : w.wire ≠ [])
      (asked : gapRanges p.recv.acts = gapRanges (w.peers c).recv.acts ++ gaps)
  | turned (delivered : Delivered a a')
      (asked : gapRanges p.recv.acts = gapRanges (w.peers c).recv.acts)

theorem PeerEffect.ordered {p : Peer g} (h : PeerEffect w c p a a') (ord : Ordered a) :
    Ordered a' := by
  cases h with
  | heard arrival => exact arrival.ordered ord
  | turned delivered => exact delivered.ordered ord

/-- A step of a running receiver: its history stays in order even if the step fails. -/
theorem Linked.peerStep (h : Linked c ph s w a) (ord : Ordered a) {p : Peer g}
    (step : PeerStep w c p) :
    ∃ a', Recorded a' ∧ (∀ i, a.rlabel i ≤ a'.rlabel i) ∧ PeerLink w p.recv a' ∧
      (p.ended = false → PeerEffect w c p a a' ∧ Linked c ph s (w.setPeer c p) a') := by
  cases step with
  | datagram inp free carried =>
    obtain ⟨a', recorded, raised, link, fine⟩ := h.heard ord free carried
    refine ⟨a', recorded, raised, link, ?_⟩
    intro running
    obtain ⟨gaps, arrival, linked, asked⟩ := fine running
    exact ⟨.heard arrival (World.carries_wire carried (of_decide_eq_false running)) asked, linked⟩
  | @tcp pollin pollout segs clock lockStats clockUpdate lock results setEvent next able st r rest data
      event =>
    -- the event with a clock and a lock that work
    have works : ∀ now, (w.peers c).recv.eventFunc pollin pollout
          ⟨segs, clock, lockStats, .ok now,
            fun _ => .ok ()⟩ results setEvent = (st, r, rest, data) →
        ∃ a', Recorded a' ∧ (∀ i, a.rlabel i ≤ a'.rlabel i) ∧ PeerLink w r a' ∧
          (gapRanges r.acts = gapRanges (w.peers c).recv.acts ∧ Delivered a a' ∧
            Linked c ph s (w.setPeer c {
              recv := r
              up := (w.peers c).up ++ data
              got := (w.peers c).got +
                ((Receiver.segmentBytes segs).length - (Receiver.segmentBytes rest).length)
              ended := decide (Status.Failed st) }) a') := by
      intro now event
      obtain ⟨gaps, a', delivered, linked⟩ := h.event rfl (fun _ => rfl) next event
        (decide (Status.Failed st))
      have ord' := delivered.ordered ord
      have link := linked.peer
      simp only [World.setPeer, ↓reduceIte] at link
      exact ⟨a', ord'.recorded, delivered.raised, ⟨link.label, link.hist, link.val⟩,
        gaps, delivered, linked⟩
    cases pollin with
    | true =>
      have fits : (w.peers c).recv.inNext + (w.peers c).recv.inRemain ≤
          (w.peers c).recv.inBuf.length := by
        obtain ⟨_, _, awaited⟩ := h.conn.frames
        obtain ⟨_, _, _, _, _, reading, _⟩ := awaited.split
        exact reading.fits
      rcases Receiver.eventFunc_fails (w.peers c).recv pollout
          ⟨segs, clock, lockStats, clockUpdate, fun _ => lock⟩ results setEvent fits with
        ⟨failed, quiet⟩ | ⟨now, same⟩
      · rw [event] at failed quiet
        refine ⟨a, ord.recorded, fun _ => le_refl _, h.peer.quiet quiet, ?_⟩
        intro running
        exact absurd failed (of_decide_eq_false running)
      · rw [event] at same
        obtain ⟨a', recorded, raised, link, asked, delivered, linked⟩ := works now same.symm
        exact ⟨a', recorded, raised, link, fun _ => ⟨.turned delivered asked, linked⟩⟩
    | false =>
      rcases able with pollin | ⟨ticks, locks⟩
      · cases pollin
      · cases clockUpdate with
        | error st => cases ticks
        | ok now =>
          cases lock with
          | error st => cases locks
          | ok _ =>
            obtain ⟨a', recorded, raised, link, asked, delivered, linked⟩ := works now event
            exact ⟨a', recorded, raised, link, fun _ => ⟨.turned delivered asked, linked⟩⟩

/-! ## The others -/

/-- Nobody takes back a commit. -/
theorem writerMove_grows {m : WriterMove g} {w' : World g} (hm : World.writerMove m w = some w') :
    w.Grows w' := by
  intro i
  rcases writerMove_cases hm with ⟨_, _, _, _, _, _, rfl⟩ | ⟨id, r, _, rfl⟩ | ⟨_, _, _, rfl⟩ |
    ⟨_, _, rfl⟩
  · exact List.prefix_rfl
  · simp only [World.commit]
    split
    · exact List.prefix_append _ _
    · exact List.prefix_rfl
  · exact List.prefix_rfl
  · exact List.prefix_rfl

/-- A step of the writer is a commit, or nothing. -/
theorem Linked.written (h : Linked c ph s w a) {m : WriterMove g} {w' : World g}
    (hm : World.writerMove m w = some w') :
    ∃ a', ((a' = a ∧ w'.commits = w.commits) ∨ ∃ id r, w.writer = .locked id r ∧
        w' = { w.commit id r with writer := .unlocked id } ∧ a' = a.commit id) ∧
      Linked c ph s w' a' := by
  have grows := writerMove_grows hm
  obtain ⟨wire, sent, recd, accepted, peers⟩ := writerMove_same hm
  have novel : Novel c ph w' → Novel c ph w := by
    rw [Novel, accepted]
    exact id
  -- the receiver and its connection notice nothing
  have conn : ∀ {a' : Broadcast.State Int}, a'.rnext = a.rnext → a'.frames = a.frames →
      ConnLink c ph s w' a' :=
    h.conn.same rfl (congrFun sent c) (congrFun recd c) (congrFun peers c) novel grows
  have rnext : a.rnext = (w'.peers c).recv.nextSeq := by
    rw [peers]
    exact h.rnext
  have peer : PeerLink w' (w'.peers c).recv a := by
    rw [peers]
    exact h.peer.mono grows
  rcases writerMove_cases hm with ⟨_, _, _, _, _, _, rfl⟩ | ⟨id, r, held, rfl⟩ | ⟨_, _, _, rfl⟩ |
    ⟨_, _, rfl⟩
  · exact ⟨a, Or.inl ⟨rfl, rfl⟩, h.sender.same rfl rfl rfl rfl rfl id, rnext, h.nonneg, peer,
      conn rfl rfl⟩
  · exact ⟨a.commit id, Or.inr ⟨id, r, held, rfl, rfl⟩, h.sender.commit id r, rnext, h.nonneg,
      ⟨peer.label, peer.hist, peer.val⟩, conn rfl rfl⟩
  · exact ⟨a, Or.inl ⟨rfl, rfl⟩, h.sender.same rfl rfl rfl rfl rfl id, rnext, h.nonneg, peer,
      conn rfl rfl⟩
  · exact ⟨a, Or.inl ⟨rfl, rfl⟩, h.sender.same rfl rfl rfl rfl rfl id, rnext, h.nonneg, peer,
      conn rfl rfl⟩

/-- Another receiver's step. -/
theorem Linked.other (h : Linked c ph s w a) {i : Nat} (hi : i ≠ c) (p : Peer g) :
    Linked c ph s (w.setPeer i p) a := by
  have same : (w.setPeer i p).peers c = w.peers c := if_neg (Ne.symm hi)
  refine ⟨h.sender.same rfl rfl rfl rfl rfl id, ?_, h.nonneg, ?_, ?_⟩
  · rw [same]
    exact h.rnext
  · rw [same]
    exact ⟨h.peer.label, h.peer.hist, h.peer.val⟩
  · exact h.conn.same rfl rfl rfl same id (fun _ => List.prefix_rfl) rfl rfl

theorem NetInv.moved {m : NetMove g} {w' : World g} (h : NetInv ph s w)
    (hm : World.netMove m w = some w') : NetInv ph s w' := by
  rcases netMove_cases hm with ⟨m, hm⟩ | ⟨i, p, rfl, _⟩
  · obtain ⟨wire, sent, recd, accepted, peers⟩ := writerMove_same hm
    exact ⟨h.stream.same ⟨rfl, rfl, rfl, rfl, rfl, rfl⟩ wire,
      h.gap.same rfl h.gap.seqs rfl (fun _ => le_refl _) recd accepted fun _ phase => phase, h.awake,
      h.stored.moved hm, h.low⟩
  · exact ⟨h.stream.same ⟨rfl, rfl, rfl, rfl, rfl, rfl⟩ rfl,
      h.gap.same rfl h.gap.seqs rfl (fun _ => le_refl _) rfl rfl fun _ phase => phase, h.awake,
      h.stored.same rfl rfl fun _ _ held => held, h.low⟩

end Peers

end Lancaster
