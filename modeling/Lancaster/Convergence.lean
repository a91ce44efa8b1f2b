import Lancaster.Backlog
import Lancaster.Coherence
import Lancaster.Owed

/-!
# Convergence

An item of the broadcast that is up to date and passed has arrived, or a frame of it is on its
way, or it is owed. Every step of the sender, of the writer and of a receiver keeps this. So when
everything has been drained and answered, the receiver has the sender's value of every record
that is in use.
-/

namespace Lancaster

open Bytes Interleaving Sender
open Broadcast (Update Ordered Repaired)

variable {g : Geometry}

/-! ## Steps -/

def InUse (commits : Int → List (Record g)) (id : Int) : Prop :=
  g.Holds id ∧ ∃ r, (commits id).getLast? = some r ∧ r.rev ≠ 0

/-- What the broadcast of receiver `c` keeps beside its order. -/
structure Converging (c : Nat) (ph : Phase) (s : Sender g) (w : World g) (a : Broadcast.State Int) :
    Prop where
  repaired : Repaired (InUse w.commits) (Owed c ph s w) a
  caught : Caught ph s w a
  numbered : ∀ d ∈ a.sent, 0 < d.1
  unheard : w.wire = [] → a.rnext = 0

/-- What stands for updates with a sequence has a label. -/
theorem stands_low {w : World g} {frames : List (Update Int)} {ups : List (Int × Int × Value g)}
    (all : List.Forall₂ (Stands w) frames ups) (low : ∀ u ∈ ups, 0 ≤ u.1) :
    ∀ e ∈ frames, 0 ≤ e.label := by
  induction all with
  | nil => exact List.forall_mem_nil _
  | cons first _ ih =>
    obtain ⟨here, low⟩ := List.forall_mem_cons.mp low
    refine List.forall_mem_cons.mpr ⟨?_, ih low⟩
    rw [first.1]
    exact here

section Steps

variable {c : Nat} {ph ph' : Phase} {s s' : Sender g} {w w' : World g} {a a' : Broadcast.State Int}

/-- The frames on their way have sequences. -/
theorem Linked.frame_low (h : Linked c ph s w a) : ∀ e ∈ a.frames, 0 ≤ e.label := by
  obtain ⟨frames, _, awaited⟩ := h.conn.frames
  obtain ⟨done, rest, _, split, _, _, all⟩ := awaited.split
  refine stands_low all ?_
  intro u hu
  obtain ⟨fr, here, eq⟩ := List.mem_filterMap.mp hu
  have sound := awaited.sound fr (by rw [split]; exact List.mem_append_right _ here)
  cases fr with
  | record seq id val =>
    obtain rfl := Option.some.inj eq
    exact sound.1
  | _ => cases eq

/-- Before anything has been heard nothing has been framed. -/
theorem Linked.no_frames (h : Linked c ph s w a) (ord : Ordered a) (unheard : a.rnext = 0) :
    a.frames = [] := by
  refine List.eq_nil_iff_forall_not_mem.mpr fun e he => ?_
  have low := h.frame_low e he
  have high := (ord.frame_item e he).1
  omega

namespace Converging

theorem silent (h : Converging c ph s w a) (net : NetInv ph s w) (queue : CursorInv ph s w)
    (step : Silent ph s ph' s') : Converging c ph' s' w a :=
  ⟨h.repaired.mono fun _ _ live _ owed => owed.silent live.1 net step, h.caught.silent queue step,
    h.numbered, h.unheard⟩

/-- The answer of a call leaves nothing behind. -/
theorem repaired_answered {e : Event} {call : Call} (h : Converging c ph s w a) (ord : Ordered a)
    (link : Linked c ph s w a) (net : NetInv ph s w) (first : ph = .first → Pristine s w)
    (step : Answer (netEnv g) e call ph s w ph' s' w') (effect : Effect c call ph s w s' a a') :
    Repaired (InUse w.commits) (Owed c ph' s' w') a' := by
  have bound : a.rnext ≤ sequenceMax := by
    have := ord.rnext_le
    have := link.sender.next
    have := net.stream.1.high
    omega
  have repaired := h.repaired
  -- what is owed stays so for a record that is neither staged nor passed
  have owes : ∀ id, (∀ q e sent, ph = .fill q e id sent → call ≠ .recordCopy id) →
      (∀ clnt clnt', s.clients c = some clnt → s'.clients c = some clnt' →
        clnt'.replyId = clnt.replyId ∨ clnt.replyId ≠ id) →
      Owed c ph s w id → Owed c ph' s' w' id := by
    intro id unstaged unpassed owed
    refine owed.answered net.gap link.conn bound ?_ unpassed step
    rcases step.labels (id - g.baseId) with same | ⟨q, e, i, sent, phase, copies, eq⟩
    · exact same
    · obtain rfl : id = i := by omega
      exact absurd copies (unstaged q e sent phase)
  cases effect with
  | none unstaged begun unframed =>
    refine repaired.mono fun id _ live _ => owes id
      (fun q e sent phase => absurd phase (unstaged q e id sent)) ?_
    intro clnt clnt' here here'
    rcases unframed clnt clnt' here here' with same | zero
    · exact Or.inl same
    · right
      rintro rfl
      obtain ⟨r, last, used⟩ := live.2
      rw [net.stored.last _ (le_of_eq zero.symm)] at last
      rw [← Option.some.inj last] at used
      exact used zero
  | @stage q e id sent phase known =>
    refine (repaired.stage ord id).mono fun i _ _ passed => ?_
    have other : i ≠ id := by
      rintro rfl
      have label : (a.stage i).label i = a.next := by simp [Broadcast.State.stage]
      rw [label] at passed
      exact absurd ord.rnext_le (not_le.mpr passed)
    refine owes i ?_ fun clnt clnt' here here' => ?_
    · rw [phase]
      rintro q e sent same
      cases same
      exact absurd rfl other
    · rcases step.scan here here' with same | ⟨rest, _⟩
      · exact Or.inl same
      · rw [phase] at rest
        cases rest
  | send sends =>
    refine (repaired.send ord).mono fun i _ _ _ => owes i ?_ fun clnt clnt' here here' => ?_
    · rw [sends]
      exact fun _ _ _ _ => by simp
    · rcases step.scan here here' with same | ⟨_, copies⟩
      · exact Or.inl same
      · rw [sends] at copies
        cases copies
  | @frame clnt phase here known passed =>
    refine repaired.frame clnt.replyId fun i other => owes i ?_ fun x _ hx _ => Or.inr ?_
    · rw [phase]
      simp
    · rw [here] at hx
      rw [← Option.some.inj hx]
      exact Ne.symm other
  | rebase phase =>
    have fresh := first phase
    have unheard := h.unheard fresh.wire
    have label : ∀ i, a.label i = 0 := by
      intro i
      rw [link.sender.label]
      exact fresh.seqs _
    have far : ∀ i, a.rnext ≤ a.label i := by
      intro i
      rw [unheard, label]
    refine (repaired.rebase ?_ ?_ (link.no_frames ord unheard) far).mono ?_
    · intro d hd i
      rw [label]
      rcases List.mem_cons.mp hd with rfl | hd
      · have := link.sender.next
        have := net.stream.1.low
        simp only
        omega
      · exact ne_of_lt (h.numbered d hd)
    · intro i
      have := ord.rlabel_lt i
      have := far i
      omega
    · intro i _ _ passed
      exact absurd (far i) (not_le.mpr passed)

theorem answered {e : Event} {call : Call} (h : Converging c ph s w a) (ord : Ordered a)
    (link : Linked c ph s w a) (net : NetInv ph s w) (queue : CursorInv ph s w)
    (calm : undisturbed s w (some (e, call))) (first : ph = .first → Pristine s w)
    (step : Answer (netEnv g) e call ph s w ph' s' w') (effect : Effect c call ph s w s' a a') :
    Converging c ph' s' w' a' := by
  obtain ⟨_, commits, _, _, _⟩ := step.same
  refine ⟨?_, h.caught.answered net queue link.sender calm first step effect, ?_, ?_⟩
  · rw [commits]
    exact h.repaired_answered ord link net first step effect
  · cases effect with
    | send =>
      refine List.forall_mem_cons.mpr ⟨?_, h.numbered⟩
      have := link.sender.next
      have := net.stream.1.low
      simp only
      omega
    | _ => exact h.numbered
  · intro silence
    have before : w.wire = [] := by
      have kept := step.wire_prefix
      rw [silence] at kept
      exact List.prefix_nil.mp kept
    cases effect with
    | _ => exact h.unheard before

/-- A step of the writer. -/
theorem written (h : Converging c ph s w a) (queue : CursorInv ph s w) {m : WriterMove g}
    (hm : World.writerMove m w = some w')
    (which : (a' = a ∧ w'.commits = w.commits) ∨ ∃ id r, w.writer = .locked id r ∧
      w' = { w.commit id r with writer := .unlocked id } ∧ a' = a.commit id) :
    Converging c ph s w' a' := by
  obtain ⟨wire, _, recd, accepted, peers⟩ := writerMove_same hm
  have owes : ∀ id, Owed c ph s w id → Owed c ph s w' id := by
    intro id owed
    refine owed.same rfl rfl (unread_subset (congrFun peers c) (by rw [recd])) ?_
    rw [Novel, accepted]
    exact fun new => new
  rcases which with ⟨rfl, commits⟩ | ⟨id, r, _, rfl, rfl⟩
  · refine ⟨?_, h.caught.moved queue hm rfl, h.numbered, ?_⟩
    · rw [commits]
      exact h.repaired.mono fun id _ _ _ => owes id
    · rw [wire]
      exact h.unheard
  · refine ⟨?_, h.caught.moved queue hm rfl, h.numbered, h.unheard⟩
    have repaired := h.repaired.mono fun id _ _ _ => owes id
    refine repaired.commit id ?_
    intro j hj live
    simpa [InUse, World.commit, hj] using live

/-- A step of another receiver. -/
theorem other (h : Converging c ph s w a) {i : Nat} (hi : i ≠ c) (p : Peer g) :
    Converging c ph s (w.setPeer i p) a := by
  have same : (w.setPeer i p).peers c = w.peers c := if_neg (Ne.symm hi)
  have owes : ∀ id, Owed c ph s w id → Owed c ph s (w.setPeer i p) id := by
    intro id owed
    exact owed.same rfl rfl (unread_subset same rfl) fun new => new
  exact ⟨h.repaired.mono fun id _ _ _ => owes id,
    h.caught.same rfl rfl rfl fun id => le_of_eq (World.backlog_congr rfl rfl rfl _ id).symm,
    h.numbered, h.unheard⟩

/-- A step of the receiver: what it passes over it asks for. -/
theorem peerStep (h : Converging c ph s w a) (ord : Ordered a) (link : Linked c ph s w a)
    {p : Peer g} (effect : PeerEffect w c p a a') : Converging c ph s (w.setPeer c p) a' := by
  have here : (w.setPeer c p).peers c = p := if_pos rfl
  have caught : a'.base = a.base → Caught ph s (w.setPeer c p) a' := fun base =>
    h.caught.same rfl rfl base fun id => le_of_eq (World.backlog_congr rfl rfl rfl _ id).symm
  cases effect with
  | @heard gaps arrival wire asked =>
    have ranges : unread c (w.setPeer c p) = unread c w ++ gaps := by
      rw [unread, here, asked]
      exact List.drop_append_of_le_length link.conn.read_le
    have owes : ∀ id, Owed c ph s w id → Owed c ph s (w.setPeer c p) id := by
      intro id owed
      refine owed.same rfl rfl ?_ fun new => new
      rw [ranges]
      exact List.subset_append_left _ _
    -- a sequence that is passed over is asked for
    have missed : ∀ {n : Int}, (a.rnext < n → ⟨a.rnext, n⟩ ∈ gaps) → ∀ id, a.rnext ≤ a.label id →
        a.label id < n → Owed c ph s (w.setPeer c p) id := by
      intro n gap id low high
      have here : ⟨a.rnext, n⟩ ∈ unread c (w.setPeer c p) := by
        rw [ranges]
        exact List.mem_append_right _ (gap (lt_of_le_of_lt low high))
      rw [link.sender.label] at low high
      exact .asked here ⟨low, high⟩
    obtain ⟨rnext, rlabel, rver, hist, eq⟩ := arrival.same
    refine ⟨?_, ?_, ?_, fun silence => absurd silence wire⟩
    · cases arrival with
      | none => exact h.repaired.mono fun id _ _ _ => owes id
      | skip => exact h.repaired.skipTo owes (missed fun _ => List.mem_singleton_self _)
      | take sent late =>
        refine h.repaired.take ord sent late owes (missed fun more => ?_)
        rw [if_pos more]
        exact List.mem_singleton_self _
    · exact caught (by rw [eq])
    · rw [eq]
      exact h.numbered
  | turned delivered asked =>
    have ranges : unread c w ⊆ unread c (w.setPeer c p) := by
      rw [unread, unread, here, asked]
      exact List.Subset.refl _
    have owes : ∀ id, Owed c ph s w id → Owed c ph s (w.setPeer c p) id := by
      intro id owed
      exact owed.same rfl rfl ranges fun new => new
    obtain ⟨frames, rlabel, rver, hist, eq⟩ := delivered.same
    refine ⟨?_, ?_, ?_, ?_⟩
    · have repaired := h.repaired.mono fun id _ _ _ => owes id
      cases delivered with
      | none => exact repaired
      | frame front => exact repaired.deliver ord front
    · exact caught (by rw [eq])
    · rw [eq]
      exact h.numbered
    · rw [eq]
      exact h.unheard

end Converging

end Steps

/-! ## Clients and locks -/

/-- A client that is being accepted is not the first one, or nothing has been sent. -/
structure Opening (ph : Phase) (s : Sender g) (w : World g) : Prop where
  first : ph = .first → Pristine s w
  entry : ∀ i, ph = .accepting i ∨ ph = .joined i → 0 < s.clientCount ∨ Pristine s w

namespace Opening

variable {ph ph' : Phase} {s s' : Sender g} {w w' : World g}

theorem plain (begun : ph ≠ .first) (other : ∀ i, ph ≠ .accepting i ∧ ph ≠ .joined i) :
    Opening ph s w := by
  refine ⟨fun phase => absurd phase begun, ?_⟩
  rintro i (phase | phase)
  · exact absurd phase (other i).1
  · exact absurd phase (other i).2

theorem moved (h : Opening ph s w) (wire : w'.wire = w.wire) : Opening ph s w' :=
  ⟨fun phase => (h.first phase).same wire rfl rfl,
    fun i phase => (h.entry i phase).imp_right fun fresh => fresh.same wire rfl rfl⟩

theorem silent (h : Opening ph s w) (step : Silent ph s ph' s') : Opening ph' s' w := by
  cases step with
  | tally =>
    exact ⟨fun phase => (h.first phase).same rfl rfl rfl,
      fun i phase => (h.entry i phase).imp_right fun fresh => fresh.same rfl rfl rfl⟩
  | fail => cases ph <;> exact plain (by simp [Phase.onFail]) (by simp [Phase.onFail])
  | @join i =>
    refine ⟨by simp, fun _ _ => ?_⟩
    exact (h.entry i (Or.inl rfl)).imp_right fun fresh => fresh.same rfl rfl rfl
  | @countFirst i _ one =>
    refine ⟨fun _ => ?_, by simp⟩
    rcases h.entry i (Or.inr rfl) with clients | fresh
    · omega
    · exact fresh.same rfl rfl rfl
  | sendTime now writing => rcases writing with rfl | rfl <;> exact plain (by simp) (by simp)
  | _ => exact plain (by simp) (by simp)

theorem answered {E : Env g} {e : Event} {call : Call} (counted : 0 < s.clientCount ∨ Pristine s w)
    (step : Answer E e call ph s w ph' s' w') : Opening ph' s' w' := by
  cases step with
  | accept => exact ⟨by simp, fun _ _ => counted.imp_right fun fresh => fresh.same rfl rfl rfl⟩
  | stamp _ sends => cases sends <;> exact plain (by simp) (by simp)
  | send sends => cases sends <;> exact plain (by simp) (by simp)
  | overflow sends => cases sends <;> exact plain (by simp [Phase.onFail]) (by simp [Phase.onFail])
  | write _ writing => rcases writing with rfl | rfl <;> exact plain (by simp) (by simp)
  | _ => exact plain (by simp) (by simp)

end Opening

/-- Only the writer locks a record, and it leaves it unlocked. -/
structure Unlocked (w : World g) : Prop where
  free : ∀ id, (w.store.record id).rev < 0 → ∃ r, w.writer = .locked id r
  next : ∀ id r, w.writer = .locked id r → 0 ≤ r.rev

namespace Unlocked

variable {w w' : World g}

theorem same (h : Unlocked w) (store : w'.store.record = w.store.record)
    (writer : ∀ id r, w'.writer = .locked id r ↔ w.writer = .locked id r) : Unlocked w' := by
  constructor
  · intro id low
    rw [store] at low
    obtain ⟨r, held⟩ := h.free id low
    exact ⟨r, (writer id r).mpr held⟩
  · exact fun id r held => h.next id r ((writer id r).mp held)

theorem moved {m : WriterMove g} (h : Unlocked w) (hm : World.writerMove m w = some w') :
    Unlocked w' := by
  rcases writerMove_cases hm with ⟨id, ts, val, hw, _, _, rfl⟩ | ⟨id, r, hw, rfl⟩ |
    ⟨id, hw, _, rfl⟩ | ⟨id, hw, rfl⟩
  · constructor
    · intro i low
      by_cases hi : i = id
      · exact ⟨_, by rw [hi]⟩
      · simp only [Storage.setRecord_other _ _ hi] at low
        obtain ⟨r, held⟩ := h.free i low
        rw [hw] at held
        cases held
    · intro i r held
      cases held
      simp only [nextRev]
      omega
  · constructor
    · intro i low
      by_cases hi : i = id
      · have high := h.next id r hw
        simp only [hi, World.commit, Storage.setRecord_same] at low
        omega
      · simp only [World.commit, Storage.setRecord_other _ _ hi] at low
        obtain ⟨r', held⟩ := h.free i low
        rw [hw] at held
        cases held
        exact absurd rfl hi
    · intro i r held
      cases held
  · refine h.same rfl ?_
    simp [hw]
  · refine h.same rfl ?_
    simp [hw]

end Unlocked

/-! ## Runs -/

/-- What every state of a run keeps for receiver `c`. -/
structure Repairing (c : Nat) (ph : Phase) (s : Sender g) (w : World g) : Prop where
  net : NetInv ph s w
  queue : CursorInv ph s w
  opening : Opening ph s w
  unlocked : Unlocked w
  running : (w.peers c).ended = false →
    ∃ a, Ordered a ∧ Linked c ph s w a ∧ Converging c ph s w a

/-- The queue is not overrun, and nothing is sent before there is a client. -/
def Assumed (asked : Option (Event × Call)) (s : Sender g) (w : World g) : Prop :=
  undisturbed s w asked ∧ (0 < s.clientCount ∨ Pristine s w)

namespace Repairing

variable {c : Nat} {ph ph' : Phase} {s s' : Sender g} {w w' : World g}

theorem silent (h : Repairing c ph s w) (step : Silent ph s ph' s') : Repairing c ph' s' w := by
  refine ⟨h.net.silent step, h.queue.silent step, h.opening.silent step, h.unlocked, ?_⟩
  intro going
  obtain ⟨a, ord, link, converging⟩ := h.running going
  exact ⟨a, ord, link.silent h.net step, converging.silent h.net h.queue step⟩

theorem answered {e : Event} {call : Call} (h : Repairing c ph s w)
    (assumed : Assumed (some (e, call)) s w) (step : Answer (netEnv g) e call ph s w ph' s' w') :
    Repairing c ph' s' w' := by
  obtain ⟨store, _, writer, peers, _⟩ := step.same
  obtain ⟨calm, counted⟩ := assumed
  refine ⟨h.net.answered step, h.queue.answered calm step, .answered counted step, ?_, ?_⟩
  · refine h.unlocked.same (by rw [store]) ?_
    simp [writer]
  · intro going
    rw [peers] at going
    obtain ⟨a, ord, link, converging⟩ := h.running going
    obtain ⟨a', effect, link'⟩ := link.answered h.net ord step
    exact ⟨a', effect.ordered ord, link',
      converging.answered ord link h.net h.queue calm h.opening.first step effect⟩

theorem moved (h : Repairing c ph s w) {m : NetMove g} (hm : World.netMove m w = some w') :
    Repairing c ph s w' := by
  have net := h.net.moved hm
  have opening := h.opening.moved (netMove_wire hm)
  rcases netMove_cases hm with ⟨m, hm⟩ | ⟨i, p, rfl, _, running, step⟩
  · refine ⟨net, h.queue.moved hm, opening, h.unlocked.moved hm, ?_⟩
    rw [(writerMove_same hm).2.2.2.2]
    intro going
    obtain ⟨a, ord, link, converging⟩ := h.running going
    obtain ⟨a', which, link'⟩ := link.written hm
    refine ⟨a', ?_, link', converging.written h.queue hm which⟩
    rcases which with ⟨rfl, _⟩ | ⟨id, _, _, _, rfl⟩
    · exact ord
    · exact ord.commit id
  · have queue : CursorInv ph s (w.setPeer i p) :=
      ⟨⟨h.queue.ring.intact, h.queue.ring.slotted⟩,
        h.queue.place.grow rfl (le_refl _) fun _ _ => rfl⟩
    have unlocked : Unlocked (w.setPeer i p) := ⟨h.unlocked.free, h.unlocked.next⟩
    refine ⟨net, queue, opening, unlocked, ?_⟩
    by_cases hi : i = c
    · subst hi
      have here : (w.setPeer i p).peers i = p := if_pos rfl
      obtain ⟨a, ord, link, converging⟩ := h.running running
      obtain ⟨a', _, _, _, fine⟩ := link.peerStep ord step
      rw [here]
      intro going
      obtain ⟨effect, link'⟩ := fine going
      exact ⟨a', effect.ordered ord, link', converging.peerStep ord link effect⟩
    · have same : (w.setPeer i p).peers c = w.peers c := if_neg (Ne.symm hi)
      rw [same]
      intro going
      obtain ⟨a, ord, link, converging⟩ := h.running going
      exact ⟨a, ord, link.other hi p, converging.other hi p⟩

end Repairing

theorem repairingKept (c : Nat) : Kept (netEnv g) Assumed (fun _ _ _ => True) (fun _ _ _ => True)
    (Repairing c) where
  moved := fun h _ _ hm => h.moved hm
  silent := fun h step => h.silent step
  answered := fun h assumed step => h.answered assumed step
  quits := by
    intro ph s w order rounds _ _ _ allowed
    cases allowed

/-- The sender's bytes that receiver `c` has not taken up as frames: in its buffer, on their way,
and still to be written. -/
def underway (c : Nat) (clnt : TcpClient) (w : World g) : List UInt8 :=
  (w.peers c).recv.inBuf.take (w.peers c).recv.inNext ++ ((w.sent c).drop (w.peers c).got ++ clnt.pending)

/-- No update is under way, the sender has drained the queue and has nothing staged, and receiver
`c` has caught up with it, with no request and no reply left on either side. Heartbeats may be on
their way, but no frame with a record. -/
structure CaughtUp (c : Nat) (s : Sender g) (w : World g) : Prop where
  complete : w.writer = .idle
  drained : s.lastQIdx = w.store.qHead
  unstaged : s.pktNext = 0
  running : (w.peers c).ended = false
  level : (w.peers c).recv.nextSeq = s.nextSeq
  written : (w.peers c).recv.outRemain = 0
  received : w.recd c = (w.peers c).up
  answered : ∃ clnt, s.clients c = some clnt ∧ ¬ clnt.unionRange.IsValid ∧
    ¬ clnt.replyRange.IsValid ∧ ∃ beats,
      underway c clnt w = encodeFrames (List.replicate beats (Frame.heartbeat : Frame g))
  header : (w.peers c).recv.inNext < 8

/-- Frames that read as heartbeats carry no records. -/
theorem recordFrames_beats {frames : List (Frame g)} (sound : ∀ fr ∈ frames, fr.Sound) (beats : Nat)
    (read : encodeFrames frames = encodeFrames (List.replicate beats (Frame.heartbeat : Frame g))) :
    recordFrames frames = [] := by
  induction frames generalizing beats with
  | nil => rfl
  | cons fr rest ih =>
    obtain ⟨here, others⟩ := List.forall_mem_cons.mp sound
    cases beats with
    | zero => exact absurd (encodeFrames_eq_nil read) (List.cons_ne_nil _ _)
    | succ beats =>
      have split : fr.encode ++ encodeFrames rest = netLong heartbeatSeq ++
          encodeFrames (List.replicate beats (Frame.heartbeat : Frame g)) := read
      cases fr with
      | heartbeat => exact ih others beats (List.append_cancel_left split)
      | willQuit => exact here.elim
      | record seq id val =>
        -- a record frame begins with a sequence, which is not negative
        obtain ⟨low, high, _⟩ := here
        rw [Frame.encode, List.append_assoc] at split
        have same : netLong seq = netLong heartbeatSeq :=
          (List.append_inj split (by rw [length_netLong, length_netLong])).1
        simp only [sequenceMax] at high
        have beat : seq = -1 := netLong_inj ⟨by omega, by omega⟩ (by decide) same
        omega

namespace CaughtUp

variable {c : Nat} {ph : Phase} {s : Sender g} {w : World g} {a : Broadcast.State Int}

/-- Every range has been read. -/
theorem none_unread (h : CaughtUp c s w) (link : Linked c ph s w a) : unread c w = [] := by
  rw [unread, h.received, link.conn.requests.all_written h.written, length_encodeRanges]
  refine List.drop_of_length_le ?_
  omega

theorem not_owed (h : CaughtUp c s w) (link : Linked c ph s w a) (id : Int) :
    ¬ Owed c ph s w id := by
  obtain ⟨clnt, here, union, reply, _, _⟩ := h.answered
  intro owed
  cases owed with
  | asked unreadRange =>
    rw [h.none_unread link] at unreadRange
    cases unreadRange
  | sought client seeks =>
    rw [here] at client
    obtain rfl := Option.some.inj client
    rcases seeks with within | ⟨within, _⟩
    · exact union within.valid
    · exact reply within.valid
  | gone absent =>
    rw [here] at absent
    cases absent

/-- Every frame with a record has been read. -/
theorem no_frames (h : CaughtUp c s w) (link : Linked c ph s w a) : a.frames = [] := by
  obtain ⟨clnt, here, _, _, beats, quiet⟩ := h.answered
  obtain ⟨frames, handed, awaited⟩ := link.conn.frames
  obtain ⟨done, rest, part, split, taken, reading, all⟩ := awaited.split
  have stream := ((handed_some here).mp handed).stream
  have buffered : (w.peers c).recv.inBuf.take (w.peers c).recv.inNext = part := by
    cases reading with
    | head len next total holds => exact holds
    | body len next =>
      have := h.header
      omega
  -- what is left of the stream is what the receiver has not taken up
  rw [← List.take_append_drop (w.peers c).got (w.sent c), taken, split, encodeFrames_append,
    List.append_assoc, List.append_assoc] at stream
  have left : underway c clnt w = encodeFrames rest := by
    rw [underway, buffered]
    exact List.append_cancel_left stream
  have sound : ∀ fr ∈ rest, fr.Sound := by
    intro fr there
    exact awaited.sound fr (split ▸ List.mem_append_right _ there)
  rw [recordFrames_beats sound beats (left.symm.trans quiet)] at all
  exact List.forall₂_nil_right_iff.mp all

/-- No record is locked. -/
theorem free (h : CaughtUp c s w) (unlocked : Unlocked w) (id : Int) :
    0 ≤ (w.store.record id).rev := by
  by_contra locked
  obtain ⟨r, held⟩ := unlocked.free id (not_le.mp locked)
  rw [h.complete] at held
  cases held

/-- Nothing is left in the queue, so every record was staged as it is. -/
theorem fresh (h : CaughtUp c s w) (queue : CursorInv ph s w) (link : Linked c ph s w a)
    (converging : Converging c ph s w a) (id : Int) : a.base id = a.ver id := by
  have cursor : ph.cursor s = w.store.qHead := by
    have low := queue.place.from_last
    have high := queue.place.cursor_le
    have all := h.drained
    omega
  have behind := converging.caught.behind id
  have base := converging.repaired.base_le id
  have ver := link.sender.ver id
  rw [cursor, World.backlog_idle h.complete] at behind
  omega

/-- Nothing is staged, so the receiver is past the packet of every record. -/
theorem passed (h : CaughtUp c s w) (ord : Ordered a) (link : Linked c ph s w a)
    (converging : Converging c ph s w a) (id : Int) : a.label id < a.rnext := by
  have empty : a.pkt = [] := by
    rcases link.sender.pkt with all | ⟨_, nothing⟩
    · rw [staged_empty h.unstaged] at all
      exact List.forall₂_nil_right_iff.mp all
    · exact nothing
  have other : a.label id ≠ a.next := by
    intro label
    obtain ⟨pre, post, split, _⟩ :=
      converging.repaired.last (a.next, a.pkt) (List.mem_cons_self ..) id label
    simp [empty] at split
  have le := ord.label_le id
  have rnext := link.rnext
  have level := h.level
  have next := link.sender.next
  omega

end CaughtUp

/-- Receiver `c` has caught up, and its connection is silent. -/
structure Settled (c : Nat) (s : Sender g) (w : World g) : Prop extends CaughtUp c s w where
  idle : ∀ clnt, s.clients c = some clnt → clnt.outRemain = 0
  delivered : (w.peers c).got = (w.sent c).length
  whole : (w.peers c).recv.inNext = 0

/-- On a silent connection no bytes are under way. -/
theorem underway_silent {c : Nat} {clnt : TcpClient} {w : World g} (idle : clnt.outRemain = 0)
    (delivered : (w.peers c).got = (w.sent c).length) (whole : (w.peers c).recv.inNext = 0) :
    underway c clnt w = encodeFrames (List.replicate 0 (Frame.heartbeat : Frame g)) := by
  rw [underway, TcpClient.pending, peek, idle, delivered, whole, List.drop_length, List.take_zero,
    List.take_zero]
  rfl

/-- A receiver that has caught up has the value of every record that is in use. -/
theorem Repairing.agrees {c : Nat} {ph : Phase} {s : Sender g} {w : World g}
    (h : Repairing c ph s w) (settled : CaughtUp c s w) {id : Int} (known : g.Holds id)
    (used : (w.store.record id).rev ≠ 0) :
    ((w.peers c).recv.store.record id).val = (w.store.record id).val := by
  obtain ⟨a, ord, link, converging⟩ := h.running settled.running
  have last := h.net.stored.last id (settled.free h.unlocked id)
  have fresh := settled.fresh h.queue link converging id
  have passed := settled.passed ord link converging id
  obtain ⟨label, ver⟩ := converging.repaired.arrived ord fresh ⟨known, _, last, used⟩ passed
    (settled.no_frames link) (settled.not_owed link id)
  have low : 0 ≤ a.rlabel id := by
    rw [label, link.sender.label]
    exact h.net.low _
  obtain ⟨r, commit, val⟩ := link.peer.val id low
  obtain ⟨r', label', val'⟩ := link.sender.had_last last
  rw [ver, label'] at commit
  rw [← val, ← val', Option.some.inj commit]

section Runs

/-- A step of a run in which the queue is not overrun and the number of clients does not fall back
to zero. -/
def Admissible (x : Conf (netEnv g).host) (_ : Choice (netEnv g).host) (y : Conf (netEnv g).host) :
    Prop :=
  undisturbed y.state y.world y.waiting ∧ (0 < x.state.clientCount → 0 < y.state.clientCount)

variable {ifaceMtu mtu : Nat} {buf : List UInt8} {ignoreOverrun : Bool}
  {heartbeatUsec maxPktAgeUsec now : Int} {store : Storage g} {peers : Nat → Peer g}
  {x₀ x : Conf (netEnv g).host}

theorem repairing_start {c : Nat} (enough : 28 ≤ ifaceMtu) (size : ifaceMtu < 18446744073709551616)
    (created : initMtu g ifaceMtu = .ok mtu) (len : buf.length = mtu)
    (revs : ∀ id, 0 ≤ (store.record id).rev ∧ (store.record id).rev ≤ spinMax)
    (fresh : (peers c).Fresh) :
    Repairing c .rest (Sender.init mtu buf ignoreOverrun heartbeatUsec maxPktAgeUsec now)
      (World.start store peers) := by
  refine ⟨netInv_start enough size created len fun id => (revs id).2,
    ⟨queueInv_init store peers, Nat.zero_le _⟩, .plain (by simp) (by simp),
    ⟨?_, by simp [World.start]⟩, ?_⟩
  · intro id low
    exact absurd (revs id).1 (not_le.mpr low)
  · refine fun _ => ⟨_, .start 0, linked_start c fresh, .start 0, ⟨?_, ?_⟩,
      List.forall_mem_nil _, ?_⟩
    · intro id
      exact Nat.le_add_right _ _
    · exact fun _ => Or.inl rfl
    · exact fun _ => rfl

/-- Whatever the network loses, repeats and reorders, however the writer, the sender and the
receivers take turns: a receiver that has caught up and has nothing left to ask for or to get has
the sender's value of every record that is in use. -/
theorem receivers_converge
    (start : x₀ = (netEnv g).idleConf (Sender.init mtu buf ignoreOverrun heartbeatUsec
      maxPktAgeUsec now) (World.start store peers)) (enough : 28 ≤ ifaceMtu)
    (size : ifaceMtu < 18446744073709551616) (created : initMtu g ifaceMtu = .ok mtu)
    (len : buf.length = mtu)
    (revs : ∀ id, 0 ≤ (store.record id).rev ∧ (store.record id).rev ≤ spinMax)
    (fresh : ∀ c, (peers c).Fresh) (run : (netEnv g).host.Reach Admissible x₀ x) {c : Nat}
    (settled : CaughtUp c x.state x.world) {id : Int} (known : g.Holds id)
    (used : (x.world.store.record id).rev ≠ 0) :
    ((x.world.peers c).recv.store.record id).val = (x.world.store.record id).val := by
  have pristine : Pristine (Sender.init mtu buf ignoreOverrun heartbeatUsec maxPktAgeUsec now)
    (World.start store peers) := ⟨rfl, fun _ => rfl, fun _ => rfl⟩
  have counted := run.strengthen _ fun x run =>
    counted_or_pristine start pristine (fun _ _ _ admissible => admissible.2) run
  subst start
  obtain ⟨ph, h⟩ := (repairingKept c).holds (fun _ _ _ _ known => ⟨known.1.1, known.2⟩)
    (fun _ _ _ _ _ => trivial) (fun _ _ _ _ _ _ => trivial)
    (repairing_start enough size created len revs (fresh c)) ⟨rfl, Or.inr pristine⟩ counted
  exact h.agrees settled known used

end Runs

/-- Record `id` is updated to the value of byte `b` and queued. -/
def queueByte (id : Int) (b : UInt8) : List (Choice (netEnv small).host) :=
  [.move (NetMove.writer (.lock id 0 (smallValue b))), .move (NetMove.writer .unlock),
   .move (NetMove.writer .slot), .move (NetMove.writer .bump)]

/-- Record 0 is staged from the second entry of the queue and sent. -/
def sendFirst : List (Choice (netEnv small).host) :=
  [.start Event.mcast, .reply .storageGetQueueHead (2 : Nat),
   .reply (.storageReadQueue 1) (.ok (0 : Int)), .reply (.recordReadLock 0) (.ok (1 : Int)),
   .reply (.recordCopy 0) (.ok ⟨1, 0, smallValue 7⟩), .reply .clockTime (.ok (5 : Int)),
   .reply (.latencyOnSample 5) (.ok ()),
   .start Event.mcast, .reply .storageGetQueueHead (2 : Nat), .reply .clockTime (.ok (100 : Int)),
   .reply .clockTime (.ok (100 : Int)),
   .reply (.sockSendto (datagram 1 (netLong 100) [(0, smallValue 7)])) (.ok (25 : Nat)),
   .reply .lockStats (.ok ())]

def readBytes (bytes : List UInt8) : Choice (netEnv small).host :=
  .move (NetMove.tcp 0 true false [.data bytes] (.ok 0) (.ok ()) (.ok 0) (.ok ()) [] (.ok ()))

/-- Record 1 is framed for the receiver and read by it. -/
def repairFirst : List (Choice (netEnv small).host) :=
  [.start (Event.client 0 ⟨false, false, true⟩), .reply (.recordCopy 1) (.ok ⟨1, 0, smallValue 9⟩),
   .start (Event.client 0 ⟨false, false, true⟩),
   .reply (.sockWrite 0 (Frame.record 0 1 (smallValue 9)).encode) (.ok (17 : Nat)),
   .reply .clockTime (.ok (1 : Int)), .reply .lockStats (.ok ()),
   readBytes (netLong 0), readBytes (netLong 1 ++ [9])]

def caughtUpFirst (x : Conf (netEnv small).host) : Bool :=
  decide (x.state.lastQIdx = x.world.store.qHead ∧ x.state.pktNext = 0 ∧
    (x.world.peers 0).ended = false ∧ (x.world.peers 0).recv.nextSeq = x.state.nextSeq ∧
    (x.world.peers 0).recv.outRemain = 0 ∧ x.world.recd 0 = (x.world.peers 0).up ∧
    (x.world.peers 0).got = (x.world.sent 0).length ∧ (x.world.peers 0).recv.inNext = 0) &&
  (x.state.clients 0).any (fun clnt => decide (¬ clnt.unionRange.IsValid ∧
    ¬ clnt.replyRange.IsValid ∧ clnt.outRemain = 0)) &&
  match x.world.writer with
  | .idle => true
  | _ => false

theorem caughtUpFirst_spec {x : Conf (netEnv small).host} (h : caughtUpFirst x = true) :
    CaughtUp 0 x.state x.world := by
  obtain ⟨rest, idle⟩ := Bool.and_eq_true_iff.mp h
  obtain ⟨sides, clients⟩ := Bool.and_eq_true_iff.mp rest
  obtain ⟨drained, unstaged, running, level, written, received, delivered, whole⟩ :=
    of_decide_eq_true sides
  obtain ⟨clnt, here, answered⟩ := (Option.any_eq_true _ _).mp clients
  obtain ⟨union, reply, silent⟩ := of_decide_eq_true answered
  refine ⟨?_, drained, unstaged, running, level, written, received,
    ⟨clnt, here, union, reply, 0, underway_silent silent delivered whole⟩, by omega⟩
  split at idle
  · rename_i writer
    exact writer
  · cases idle

/-- Record 1 is updated before there is a client, then record 0. The receiver hears the packet
with record 0 and asks for what lies before it: record 1 comes with a reply. -/
theorem receivers_converge_small : ∃ x : Conf (netEnv small).host,
    (netEnv small).host.Reach Admissible ((netEnv small).idleConf smallSender
      (World.start smallStore fun _ => .init smallReceiver)) x ∧
    CaughtUp 0 x.state x.world ∧
    (x.world.store.record 0).rev ≠ 0 ∧ (x.world.store.record 1).rev ≠ 0 ∧
    ((x.world.peers 0).recv.store.record 0).val = (x.world.store.record 0).val ∧
    ((x.world.peers 0).recv.store.record 1).val = (x.world.store.record 1).val := by
  have start : (netEnv small).idleConf smallSender
        (World.start smallStore fun _ => .init smallReceiver) =
      (netEnv small).idleConf (Sender.init 25 (List.replicate 25 0) false 50 10 0)
        (World.start smallStore fun _ => .init smallReceiver) := rfl
  have ends : ((netEnv small).host.runWhile
      (fun x _ y => decide (undisturbed y.state y.world y.waiting ∧
        (0 < x.state.clientCount → 0 < y.state.clientCount)))
      (queueByte 1 9 ++ acceptFirst (netEnv small) 0 1 ++ queueByte 0 7 ++ sendFirst ++
        [hearByte 7 1, writeRequest] ++ askGap (netEnv small) 1 ++ repairFirst)
      ((netEnv small).idleConf smallSender (World.start smallStore fun _ => .init smallReceiver))).any
      (fun x => caughtUpFirst x && decide ((x.world.store.record 0).rev ≠ 0 ∧
        (x.world.store.record 1).rev ≠ 0)) = true := by
    decide +kernel
  obtain ⟨x, run, here⟩ := Host.reach_of_runWhile _ _ ends
  obtain ⟨settled, used⟩ := Bool.and_eq_true_iff.mp here
  have settled := caughtUpFirst_spec settled
  obtain ⟨used₀, used₁⟩ := of_decide_eq_true used
  have run : (netEnv small).host.Reach Admissible ((netEnv small).idleConf smallSender
      (World.start smallStore fun _ => .init smallReceiver)) x := by
    refine run.mono _ fun _ _ _ kept => ?_
    obtain ⟨calm, stays⟩ := of_decide_eq_true kept
    exact ⟨calm, stays⟩
  have fresh : ∀ _ : Nat, Peer.Fresh (.init smallReceiver) :=
    fun _ => ⟨_, _, _, _, _, rfl, rfl, rfl⟩
  have revs : ∀ id, 0 ≤ (smallStore.record id).rev ∧ (smallStore.record id).rev ≤ spinMax :=
    fun _ => ⟨le_refl _, Int.zero_le_ofNat _⟩
  refine ⟨x, run, settled, used₀, used₁, ?_, ?_⟩
  · exact receivers_converge start (show 28 ≤ 53 by decide) (by decide) rfl rfl revs fresh run settled
      (by decide) used₀
  · exact receivers_converge start (show 28 ≤ 53 by decide) (by decide) rfl rfl revs fresh run settled
      (by decide) used₁

end Lancaster
