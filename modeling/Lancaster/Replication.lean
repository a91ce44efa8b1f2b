import Lancaster.Base.Broadcast
import Lancaster.Network
import Lancaster.PacketStream
import Lancaster.GapAnswers
import Lancaster.Delivery

/-!
# The sender and one receiver as a labelled broadcast

For a fixed receiver, the system behaves as `Broadcast`: an identifier is an item, its
version the number of commits made so far, its label `record_seqs`, a packet the list of
the versions in it. `Linked` says which state of the broadcast a configuration stands for.
Every step of the system is a step of the broadcast, or none.
-/

namespace Lancaster

open Bytes Interleaving Sender
open Broadcast (Update Ordered Recorded)

variable {g : Geometry}

/-- Record `id` had the value at its `v`-th commit. -/
def World.Had (w : World g) (id : Int) (v : Nat) (val : Value g) : Prop :=
  ∃ r, (w.commits id)[v]? = some r ∧ r.val = val

def World.Grows (w w' : World g) : Prop := ∀ id, w.commits id <+: w'.commits id

theorem World.Had.mono {w w' : World g} {id : Int} {v : Nat} {val : Value g} (h : w.Had id v val)
    (grows : w.Grows w') : w'.Had id v val := by
  obtain ⟨r, commit, hv⟩ := h
  obtain ⟨more, eq⟩ := grows id
  refine ⟨r, ?_, hv⟩
  have inside := (List.getElem?_eq_some_iff.mp commit).1
  rw [← eq, List.getElem?_append_left inside]
  exact commit

/-- An item of a packet stands for a record with the value of its version. -/
def Carries (w : World g) (item : Int × Nat) (rec : Int × Value g) : Prop :=
  item.1 = rec.1 ∧ w.Had rec.1 item.2 rec.2

/-- An update stands for a sequence, an identifier and a value. -/
def Stands (w : World g) (e : Update Int) (u : Int × Int × Value g) : Prop :=
  e.label = u.1 ∧ e.id = u.2.1 ∧ w.Had u.2.1 e.ver u.2.2

/-- A datagram is a packet of the broadcast, or a heartbeat. -/
def Carried (w : World g) (a : Broadcast.State Int) (d : List UInt8) : Prop :=
  (∃ n stamp recs items, d = datagram n stamp recs ∧ stamp.length = 8 ∧
    (∀ rec ∈ recs, g.Holds rec.1) ∧ 0 ≤ n ∧ n ≤ sequenceMax ∧ (n, items) ∈ a.sent ∧
    List.Forall₂ (Carries w) items recs) ∨
  (∃ n stamp, d = datagram (g := g) (-n) stamp [] ∧ 0 < n ∧ n ≤ sequenceMax ∧ n ≤ a.next)

/-- The phases after which nothing is staged or sent any more. -/
def Phase.Spent : Phase → Prop
  | .failing _ _ => True
  | .dead => True
  | _ => False

structure SenderLink (ph : Phase) (s : Sender g) (w : World g) (a : Broadcast.State Int) :
    Prop where
  next : a.next = s.nextSeq
  label : ∀ id, a.label id = s.recordSeqs (id - g.baseId)
  ver : ∀ id, (w.commits id).length = a.ver id + 1
  pkt : List.Forall₂ (Carries w) a.pkt s.staged ∨ (ph.Spent ∧ a.pkt = [])
  wire : ∀ d ∈ w.wire, Carried w a d

structure PeerLink (w : World g) (r : Receiver g) (a : Broadcast.State Int) : Prop where
  label : ∀ id, a.rlabel id = r.recordSeqs (id - g.baseId)
  hist : List.Forall₂ (Stands w) a.hist (updates r.acts)
  val : ∀ id, 0 ≤ a.rlabel id → w.Had id (a.rver id) (r.store.record id).val

def recordFrames (frames : List (Frame g)) : List (Int × Int × Value g) :=
  frames.filterMap fun
    | .record seq id val => some (seq, id, val)
    | _ => none

def Novel (c : Nat) (ph : Phase) (w : World g) : Prop := w.accepted c = false ∨ ph = .accepting c

def Handed (c : Nat) (ph : Phase) (s : Sender g) (w : World g) (frames : List (Frame g)) : Prop :=
  match s.clients c with
  | some clnt => Outgoing clnt (w.sent c) frames
  | none => w.sent c <+: encodeFrames frames ∧ (Novel c ph w → frames = [])

/-- The frames that the receiver has not finished stand for those of the broadcast. -/
structure Awaited (sent : List UInt8) (w : World g) (p : Peer g) (frames : List (Frame g))
    (a : Broadcast.State Int) : Prop where
  sound : ∀ fr ∈ frames, fr.Sound
  within : p.got ≤ sent.length
  split : ∃ done rest part, frames = done ++ rest ∧ sent.take p.got = encodeFrames done ++ part ∧
    Reading p.recv part ∧ List.Forall₂ (Stands w) a.frames (recordFrames rest)

structure ConnLink (c : Nat) (ph : Phase) (s : Sender g) (w : World g) (a : Broadcast.State Int) :
    Prop where
  requests : Requests (w.peers c).recv (w.peers c).up
  arrived : w.recd c <+: (w.peers c).up
  ranges : ∀ range ∈ gapRanges (w.peers c).recv.acts,
    0 ≤ range.low ∧ range.low < range.high ∧ range.high ≤ a.rnext
  client : ∀ clnt, s.clients c = some clnt →
    clnt.unionRange.high ≤ a.rnext ∧ clnt.replyRange.high ≤ a.rnext
  frames : ∃ frames, Handed c ph s w frames ∧ Awaited (w.sent c) w (w.peers c) frames a

/-- The configuration stands for a state of the broadcast. -/
structure Linked (c : Nat) (ph : Phase) (s : Sender g) (w : World g) (a : Broadcast.State Int) :
    Prop where
  sender : SenderLink ph s w a
  rnext : a.rnext = (w.peers c).recv.nextSeq
  nonneg : 0 ≤ a.rnext
  peer : PeerLink w (w.peers c).recv a
  conn : ConnLink c ph s w a

/-! ## The publishing side -/

namespace SenderLink

variable {ph ph' : Phase} {s s' : Sender g} {w w' : World g} {a : Broadcast.State Int}

theorem carried_mono {d : List UInt8} (h : Carried w a d) (grows : w.Grows w')
    {a' : Broadcast.State Int} (sent : ∀ gram ∈ a.sent, gram ∈ a'.sent) (next : a.next ≤ a'.next) :
    Carried w' a' d := by
  rcases h with ⟨n, stamp, recs, items, eq, len, known, nonneg, bound, here, all⟩ |
    ⟨n, stamp, eq, pos, bound, le⟩
  · refine Or.inl ⟨n, stamp, recs, items, eq, len, known, nonneg, bound, sent _ here, ?_⟩
    exact all.imp fun _ _ hc => ⟨hc.1, hc.2.mono grows⟩
  · exact Or.inr ⟨n, stamp, eq, pos, bound, le.trans next⟩

/-- Steps that send nothing, stage nothing and commit nothing. -/
theorem same (h : SenderLink ph s w a) (next : s'.nextSeq = s.nextSeq)
    (seqs : s'.recordSeqs = s.recordSeqs) (staged : s'.staged = s.staged)
    (commits : w'.commits = w.commits) (wire : w'.wire = w.wire) (spent : ph.Spent → ph'.Spent) :
    SenderLink ph' s' w' a := by
  have grows : w.Grows w' := by
    intro id
    exact (congrFun commits id).symm ▸ List.prefix_rfl
  refine ⟨?_, ?_, ?_, ?_, ?_⟩
  · rw [next]
    exact h.next
  · rw [seqs]
    exact h.label
  · rw [commits]
    exact h.ver
  · rw [staged]
    rcases h.pkt with all | ⟨past, empty⟩
    · exact Or.inl (all.imp fun _ _ hc => ⟨hc.1, hc.2.mono grows⟩)
    · exact Or.inr ⟨spent past, empty⟩
  · rw [wire]
    intro d hd
    exact carried_mono (h.wire d hd) grows (fun _ hg => hg) (le_refl _)

/-- A commit makes a new version. -/
theorem commit (h : SenderLink ph s w a) (id : Int) (r : Record g) :
    SenderLink ph s { w.commit id r with writer := .unlocked id } (a.commit id) := by
  have grows : w.Grows { w.commit id r with writer := .unlocked id } := by
    intro i
    simp only [World.commit]
    split
    · exact List.prefix_append _ _
    · exact List.prefix_rfl
  refine ⟨h.next, h.label, ?_, ?_, ?_⟩
  · intro i
    have := h.ver i
    by_cases hi : i = id
    · subst hi
      simp only [World.commit, ↓reduceIte, List.length_append, List.length_singleton,
        Broadcast.State.commit, Function.update_self]
      omega
    · simpa [World.commit, Broadcast.State.commit, hi] using this
  · exact h.pkt.imp_left fun all => all.imp fun _ _ hc => ⟨hc.1, hc.2.mono grows⟩
  · intro d hd
    exact carried_mono (h.wire d hd) grows (fun _ hg => hg) (le_refl _)

/-- The version that is copied is the last one. -/
theorem had_last {id : Int} (h : SenderLink ph s w a)
    (last : (w.commits id).getLast? = some (w.store.record id)) :
    w.Had id (a.ver id) (w.store.record id).val := by
  refine ⟨w.store.record id, ?_, rfl⟩
  rw [List.getLast?_eq_getElem?, h.ver id] at last
  exact last

theorem stage {q e : Nat} {id : Int} {sent : Bool} (h : SenderLink (.fill q e id sent) s w a)
    (stream : StreamInv (.fill q e id sent) s w) (known : g.Holds id)
    (last : (w.commits id).getLast? = some (w.store.record id)) :
    SenderLink (.staged q e sent) (s.stageValue id (w.store.record id)) w (a.stage id) := by
  refine ⟨h.next, ?_, h.ver, Or.inl ?_, ?_⟩
  · intro i
    by_cases hi : i = id
    · subst hi
      simpa [Broadcast.State.stage, stageValue] using h.next
    · have other : ¬ i - g.baseId = id - g.baseId := by omega
      simpa [Broadcast.State.stage, stageValue, hi, other] using h.label i
  · rw [stream.staged_copy known]
    rcases h.pkt with all | ⟨past, _⟩
    · exact List.rel_append all (.cons ⟨rfl, h.had_last last⟩ .nil)
    · cases past
  · intro d hd
    exact carried_mono (h.wire d hd) (fun _ => List.prefix_rfl) (fun _ hg => hg) (le_refl _)

/-- A packet with records is sent under the next number. -/
theorem publish (h : SenderLink ph s w a) (core : StreamCore s w) (staged : Staged s)
    (fresh : ¬ ph.Spent) (next : s'.nextSeq = s.nextSeq + 1) (seqs : s'.recordSeqs = s.recordSeqs)
    (left : s'.staged = [] ∨ ph'.Spent) :
    SenderLink ph' s' { w with wire := w.wire ++ [s.packet] } a.send := by
  obtain ⟨packet, labelled, _⟩ := staged.records
  obtain ⟨stamp, len, bytes⟩ := packet.bytes
  rw [List.append_nil] at bytes
  have all : List.Forall₂ (Carries w) a.pkt s.staged := by
    rcases h.pkt with all | ⟨past, _⟩
    · exact all
    · exact absurd past fresh
  refine ⟨?_, ?_, h.ver, ?_, ?_⟩
  · rw [next, ← h.next]
    rfl
  · rw [seqs]
    exact h.label
  · rcases left with empty | past
    · left
      rw [empty]
      exact .nil
    · exact Or.inr ⟨past, rfl⟩
  · intro d hd
    rcases List.mem_append.mp hd with hd | hd
    · refine carried_mono (h.wire d hd) (fun _ => List.prefix_rfl) ?_ ?_
      · intro gram hg
        exact List.mem_cons_of_mem _ hg
      · exact Int.le_of_lt (Int.lt_succ _)
    · obtain rfl := List.mem_singleton.mp hd
      have low := core.low
      refine Or.inl ⟨s.nextSeq, stamp, s.staged, a.pkt, bytes, len,
        fun rec hr => (labelled rec hr).1, by omega, core.high, ?_, all⟩
      rw [← h.next]
      exact List.mem_cons_self ..

/-- A heartbeat announces the next number. -/
theorem announce (h : SenderLink ph s w a) (core : StreamCore s w)
    (beat : Packet s (-s.nextSeq) [] []) (fresh : ¬ ph.Spent) (next : s'.nextSeq = s.nextSeq)
    (seqs : s'.recordSeqs = s.recordSeqs) (empty : s'.staged = []) :
    SenderLink ph' s' { w with wire := w.wire ++ [s.packet] } a := by
  obtain ⟨stamp, len, bytes⟩ := beat.bytes
  rw [List.append_nil] at bytes
  have nothing : s.staged = [] := beat.staged (by simp) (by simp)
  refine ⟨?_, ?_, h.ver, ?_, ?_⟩
  · rw [next]
    exact h.next
  · rw [seqs]
    exact h.label
  · left
    rw [empty, ← nothing]
    rcases h.pkt with all | ⟨past, _⟩
    · exact all
    · exact absurd past fresh
  · intro d hd
    rcases List.mem_append.mp hd with hd | hd
    · exact carried_mono (h.wire d hd) (fun _ => List.prefix_rfl) (fun _ hg => hg) (le_refl _)
    · obtain rfl := List.mem_singleton.mp hd
      have low := core.low
      exact Or.inr ⟨s.nextSeq, stamp, bytes, by omega, core.high, le_of_eq h.next.symm⟩

end SenderLink

theorem Silent.seqs {ph ph' : Phase} {s s' : Sender g} (step : Silent ph s ph' s') :
    s'.nextSeq = s.nextSeq ∧ s'.recordSeqs = s.recordSeqs := by
  cases step with
  | room | reopen => constructor <;> simp
  | _ => exact ⟨rfl, rfl⟩

def Phase.Awake (ph : Phase) : Prop := ph ≠ .quitting ∧ ∀ c, ph ≠ .telling c

theorem Silent.awake {ph ph' : Phase} {s s' : Sender g} (step : Silent ph s ph' s')
    (awake : ph.Awake) : ph'.Awake ∧ (ph.Spent → ph'.Spent) := by
  cases step with
  | tally => exact ⟨awake, id⟩
  | sendTime => exact ⟨awake, id⟩
  | fail =>
    cases ph <;>
      exact ⟨⟨by simp [Phase.onFail], by simp [Phase.onFail]⟩, by simp [Phase.Spent, Phase.onFail]⟩
  | tell => exact absurd rfl awake.1
  | told => exact absurd rfl (awake.2 _)
  | _ => exact ⟨⟨by simp, by simp⟩, by simp [Phase.Spent]⟩

theorem SenderLink.silent {ph ph' : Phase} {s s' : Sender g} {w : World g}
    {a : Broadcast.State Int} (h : SenderLink ph s w a) (stream : StreamInv ph s w)
    (awake : ph.Awake) (step : Silent ph s ph' s') : SenderLink ph' s' w a :=
  h.same step.seqs.1 step.seqs.2 (stream.staged_silent step) rfl rfl (step.awake awake).2

/-! ## The subscribing side -/

namespace PeerLink

variable {w w' : World g} {r r' : Receiver g} {a : Broadcast.State Int}

theorem mono (h : PeerLink w r a) (grows : w.Grows w') : PeerLink w' r a := by
  refine ⟨h.label, h.hist.imp fun _ _ hs => ⟨hs.1, hs.2.1, hs.2.2.mono grows⟩, ?_⟩
  intro id got
  exact (h.val id got).mono grows

theorem quiet (h : PeerLink w r a) (q : Quiet r r') : PeerLink w r' a := by
  refine ⟨?_, ?_, ?_⟩
  · rw [q.seqs]
    exact h.label
  · rw [q.ups]
    exact h.hist
  · intro id got
    rw [q.vals]
    exact h.val id got

/-- A record that is written is an update of the broadcast. -/
theorem wrote (h : PeerLink w r a) {seq id : Int} {val : Value g} (one : Wrote seq id val r r')
    {v : Nat} (had : w.Had id v val) : PeerLink w r' (a.update ⟨seq, id, v⟩) := by
  refine ⟨?_, ?_, ?_⟩
  · intro i
    rw [one.seqs]
    by_cases hi : i = id
    · subst hi
      simp [Broadcast.State.update]
    · have other : ¬ i - g.baseId = id - g.baseId := by omega
      simpa [Broadcast.State.update, hi, other] using h.label i
  · rw [one.ups]
    exact List.rel_append h.hist (.cons ⟨rfl, rfl, had⟩ .nil)
  · intro i got
    rw [one.vals]
    by_cases hi : i = id
    · subst hi
      simpa [Broadcast.State.update] using had
    · simp only [Broadcast.State.update, Function.update_of_ne hi] at got ⊢
      rw [if_neg hi]
      exact h.val i got

theorem applied (h : PeerLink w r a) {n : Int} {recs : List (Int × Value g)}
    {items : List (Int × Nat)} (applied : Applied n recs r r')
    (all : List.Forall₂ (Carries w) items recs) : PeerLink w r' (a.take n items) := by
  induction applied generalizing a items with
  | nil =>
    cases all
    exact h
  | cons first more ih =>
    cases all with
    | @cons item _ _ _ one rest =>
      obtain ⟨id, v⟩ := item
      obtain ⟨rfl, had⟩ := one
      exact ih (h.wrote first had) rest

end PeerLink

/-! ## The connection -/

section Handed

variable {c : Nat} {ph ph' : Phase} {s s' : Sender g} {w w' : World g} {frames : List (Frame g)}

theorem handed_some {clnt : TcpClient} (here : s.clients c = some clnt) :
    Handed c ph s w frames ↔ Outgoing clnt (w.sent c) frames := by
  simp [Handed, here]

theorem handed_none (absent : s.clients c = none) :
    Handed c ph s w frames ↔ w.sent c <+: encodeFrames frames ∧ (Novel c ph w → frames = []) := by
  simp [Handed, absent]

theorem Handed.same (h : Handed c ph s w frames) (clients : s'.clients c = s.clients c)
    (sent : w'.sent c = w.sent c) (novel : Novel c ph' w' → Novel c ph w) :
    Handed c ph' s' w' frames := by
  cases here : s.clients c with
  | some clnt =>
    rw [handed_some here] at h
    rw [handed_some (clients.trans here), sent]
    exact h
  | none =>
    rw [handed_none here] at h
    rw [handed_none (clients.trans here), sent]
    exact ⟨h.1, fun new => h.2 (novel new)⟩

/-- What was sent is the beginning of the frames. -/
theorem Handed.sent_prefix (h : Handed c ph s w frames) : w.sent c <+: encodeFrames frames := by
  cases here : s.clients c with
  | some clnt =>
    rw [handed_some here] at h
    rw [← h.stream]
    exact List.prefix_append _ _
  | none =>
    rw [handed_none here] at h
    exact h.1

/-- The client has gone. -/
theorem Handed.gone (h : Handed c ph s w frames) (absent : s'.clients c = none)
    (sent : w'.sent c = w.sent c) (old : ¬ Novel c ph' w') : Handed c ph' s' w' frames := by
  rw [handed_none absent, sent]
  exact ⟨h.sent_prefix, fun new => absurd new old⟩

end Handed

theorem recordFrames_append (as bs : List (Frame g)) :
    recordFrames (as ++ bs) = recordFrames as ++ recordFrames bs := by
  simp [recordFrames]

namespace Awaited

variable {sent sent' : List UInt8} {w w' : World g} {p : Peer g} {frames : List (Frame g)}
  {a a' : Broadcast.State Int}

theorem mono (h : Awaited sent w p frames a) (grows : w.Grows w') (same : a'.frames = a.frames)
    (longer : sent <+: sent') : Awaited sent' w' p frames a' := by
  obtain ⟨done, rest, part, split, taken, reading, all⟩ := h.split
  refine ⟨h.sound, h.within.trans longer.length_le, done, rest, part, split, ?_, reading, ?_⟩
  · obtain ⟨more, rfl⟩ := longer
    rw [List.take_append_of_le_length h.within]
    exact taken
  · rw [same]
    exact all.imp fun _ _ hs => ⟨hs.1, hs.2.1, hs.2.2.mono grows⟩

/-- A heartbeat behind the frames. -/
theorem beat (h : Awaited sent w p frames a) : Awaited sent w p (frames ++ [.heartbeat]) a := by
  obtain ⟨done, rest, part, split, taken, reading, all⟩ := h.split
  refine ⟨?_, h.within, done, rest ++ [.heartbeat], part, ?_, taken, reading, ?_⟩
  · intro fr here
    rcases List.mem_append.mp here with here | here
    · exact h.sound fr here
    · obtain rfl := List.mem_singleton.mp here
      trivial
  · rw [split, List.append_assoc]
  · rw [recordFrames_append]
    simpa [recordFrames] using all

/-- A record behind the frames. -/
theorem put (h : Awaited sent w p frames a) {id : Int} {val : Value g} (nonneg : 0 ≤ a.label id)
    (bound : a.label id ≤ sequenceMax) (known : g.Holds id) (had : w.Had id (a.ver id) val) :
    Awaited sent w p (frames ++ [.record (a.label id) id val]) (a.frame id) := by
  obtain ⟨done, rest, part, split, taken, reading, all⟩ := h.split
  refine ⟨?_, h.within, done, rest ++ [.record (a.label id) id val], part, ?_, taken, reading, ?_⟩
  · intro fr here
    rcases List.mem_append.mp here with here | here
    · exact h.sound fr here
    · obtain rfl := List.mem_singleton.mp here
      exact ⟨nonneg, bound, known⟩
  · rw [split, List.append_assoc]
  · rw [recordFrames_append]
    exact List.rel_append all (.cons ⟨rfl, rfl, had⟩ .nil)

end Awaited

/-! ## Requests -/

theorem rangeAt_cons (r : SequenceRange) (bytes : List UInt8) (j : Nat) :
    rangeAt (encodeRange r ++ bytes) (j + 1) = rangeAt bytes j := by
  have len : (encodeRange r).length = 16 := by simp [encodeRange]
  have shift : ∀ off, ldLong (encodeRange r ++ bytes) (16 + off) = ldLong bytes off := by
    intro off
    rw [ldLong, peek, ← List.drop_drop, ← len, List.drop_left]
    rfl
  simp only [rangeAt]
  rw [show 16 * (j + 1) = 16 + 16 * j by omega, shift, Nat.add_assoc, shift]

theorem rangeAt_zero {r : SequenceRange} (low : IsLong r.low) (high : IsLong r.high)
    (bytes : List UInt8) : rangeAt (encodeRange r ++ bytes) 0 = r := by
  have lows : ntohll (ldLong (encodeRange r ++ bytes) 0) = r.low := by
    have read := ntohll_netLong low [] (netLong r.high ++ bytes)
    rw [List.nil_append, List.length_nil] at read
    rw [encodeRange, List.append_assoc]
    exact read
  have highs : ntohll (ldLong (encodeRange r ++ bytes) 8) = r.high := by
    have read := ntohll_netLong high (netLong r.low) bytes
    rw [length_netLong] at read
    rw [encodeRange, List.append_assoc]
    exact read
  rw [rangeAt, Nat.mul_zero, Nat.zero_add, lows, highs]

theorem length_encodeRanges (ranges : List SequenceRange) :
    (encodeRanges ranges).length = 16 * ranges.length := by
  induction ranges with
  | nil => rfl
  | cons r rest ih =>
    have split : encodeRanges (r :: rest) = encodeRange r ++ encodeRanges rest := by
      simp [encodeRanges]
    have len : (encodeRange r).length = 16 := by simp [encodeRange]
    rw [split, List.length_append, len, ih, List.length_cons]
    omega

/-- What is read back of the encoded ranges. -/
theorem rangeAt_get {ranges : List SequenceRange}
    (long : ∀ r ∈ ranges, IsLong r.low ∧ IsLong r.high)
    {bytes : List UInt8} (part : bytes <+: encodeRanges ranges) {j : Nat}
    (whole : 16 * (j + 1) ≤ bytes.length) : ranges[j]? = some (rangeAt bytes j) := by
  obtain ⟨more, eq⟩ := part
  have enough : 16 * (j + 1) ≤ (encodeRanges ranges).length := by
    rw [← eq, List.length_append]
    omega
  rw [← rangeAt_append whole, eq]
  clear eq whole
  induction ranges generalizing j with
  | nil =>
    simp [encodeRanges] at enough
  | cons r rest ih =>
    have split : encodeRanges (r :: rest) = encodeRange r ++ encodeRanges rest := by
      simp [encodeRanges]
    have len : (encodeRange r).length = 16 := by simp [encodeRange]
    rw [split] at enough ⊢
    cases j with
    | zero =>
      obtain ⟨low, high⟩ := long r (List.mem_cons_self ..)
      rw [rangeAt_zero low high]
      rfl
    | succ j =>
      rw [rangeAt_cons, List.getElem?_cons_succ]
      refine ih (fun r' here => long r' (List.mem_cons_of_mem _ here)) ?_
      rw [List.length_append, len] at enough
      omega

namespace ConnLink

variable {c : Nat} {ph ph' : Phase} {s s' : Sender g} {w w' : World g}
  {a a' : Broadcast.State Int}

/-- Steps that leave the client and the connection alone. -/
theorem same (h : ConnLink c ph s w a) (clients : s'.clients c = s.clients c)
    (sent : w'.sent c = w.sent c) (recd : w'.recd c = w.recd c) (peers : w'.peers c = w.peers c)
    (novel : Novel c ph' w' → Novel c ph w) (grows : w.Grows w') (rnext : a'.rnext = a.rnext)
    (frames : a'.frames = a.frames) : ConnLink c ph' s' w' a' := by
  obtain ⟨list, handed, awaited⟩ := h.frames
  refine ⟨?_, ?_, ?_, ?_, list, handed.same clients sent novel, ?_⟩
  · rw [peers]
    exact h.requests
  · rw [peers, recd]
    exact h.arrived
  · rw [peers, rnext]
    exact h.ranges
  · rw [clients, rnext]
    exact h.client
  · rw [peers, sent]
    exact awaited.mono grows frames List.prefix_rfl

/-- The client changes; its out buffer and its connection do not. -/
theorem touch (h : ConnLink c ph s w a) {clnt clnt' : TcpClient} (here : s.clients c = some clnt)
    (here' : s'.clients c = some clnt') (buf : clnt'.outBuf = clnt.outBuf)
    (next : clnt'.outNext = clnt.outNext) (remain : clnt'.outRemain = clnt.outRemain)
    (union : clnt'.unionRange.high ≤ a.rnext) (reply : clnt'.replyRange.high ≤ a.rnext)
    (sent : w'.sent c = w.sent c) (peers : w'.peers c = w.peers c)
    (commits : w'.commits = w.commits)
    (arrived : w'.recd c <+: (w'.peers c).up) : ConnLink c ph' s' w' a := by
  obtain ⟨list, handed, awaited⟩ := h.frames
  refine ⟨?_, arrived, ?_, ?_, list, ?_, ?_⟩
  · rw [peers]
    exact h.requests
  · rw [peers]
    exact h.ranges
  · intro x hx
    obtain rfl := Option.some.inj (here'.symm.trans hx)
    exact ⟨union, reply⟩
  · rw [handed_some here] at handed
    rw [handed_some here', sent]
    exact handed.congr buf next remain
  · have grows : w.Grows w' := fun id => (congrFun commits id).symm ▸ List.prefix_rfl
    rw [peers, sent]
    exact awaited.mono grows rfl List.prefix_rfl

/-- The client is dropped. -/
theorem gone (h : ConnLink c ph s w a) (absent : s'.clients c = none) (sent : w'.sent c = w.sent c)
    (peers : w'.peers c = w.peers c) (commits : w'.commits = w.commits)
    (arrived : w'.recd c <+: (w'.peers c).up) (old : ¬ Novel c ph' w') :
    ConnLink c ph' s' w' a := by
  obtain ⟨list, handed, awaited⟩ := h.frames
  refine ⟨?_, arrived, ?_, ?_, list, handed.gone absent sent old, ?_⟩
  · rw [peers]
    exact h.requests
  · rw [peers]
    exact h.ranges
  · intro x hx
    rw [absent] at hx
    cases hx
  · have grows : w.Grows w' := fun id => (congrFun commits id).symm ▸ List.prefix_rfl
    rw [peers, sent]
    exact awaited.mono grows rfl List.prefix_rfl

/-- The client is set up: nothing has been handed to it. -/
theorem join (h : ConnLink c (.accepting c) s w a) (absent : s.clients c = none)
    (nonneg : 0 ≤ a.rnext) (inBuf outBuf : List UInt8) (now : Int) :
    ConnLink c (.joined c) (s.setClient c (newClient inBuf outBuf now)) w a := by
  obtain ⟨list, handed, awaited⟩ := h.frames
  rw [handed_none absent] at handed
  have empty : list = [] := handed.2 (Or.inr rfl)
  subst empty
  have nothing : w.sent c = [] := by simpa using handed.1
  refine ⟨h.requests, h.arrived, h.ranges, ?_, [], ?_, awaited⟩
  · intro x hx
    rw [setClient_clients_same] at hx
    obtain rfl := Option.some.inj hx
    refine ⟨?_, nonneg⟩
    simp only [newClient, SequenceRange.invalid, sequenceMin]
    omega
  · rw [handed_some (setClient_clients_same ..), nothing]
    exact .idle rfl rfl

/-- A frame is put into the empty out buffer. -/
theorem put (h : ConnLink c ph s w a) {clnt clnt' : TcpClient} (here : s.clients c = some clnt)
    (idle : clnt.outRemain = 0) (fr : Frame g) {n : Nat} (positive : 0 < n)
    (fits : n ≤ clnt'.outBuf.length) (holds : clnt'.outBuf.take n = fr.encode)
    (next : clnt'.outNext = 0) (remain : clnt'.outRemain = n)
    (union : clnt'.unionRange = clnt.unionRange) (reply : clnt'.replyRange = clnt.replyRange)
    (rnext : a'.rnext = a.rnext)
    (awaits : ∀ frames, Awaited (w.sent c) w (w.peers c) frames a →
      Awaited (w.sent c) w (w.peers c) (frames ++ [fr]) a') :
    ConnLink c ph' (s.setClient c clnt') w a' := by
  obtain ⟨list, handed, awaited⟩ := h.frames
  rw [handed_some here] at handed
  refine ⟨h.requests, h.arrived, ?_, ?_, list ++ [fr], ?_, awaits list awaited⟩
  · rw [rnext]
    exact h.ranges
  · intro x hx
    rw [setClient_clients_same] at hx
    obtain rfl := Option.some.inj hx
    rw [union, reply, rnext]
    exact h.client clnt here
  · rw [handed_some (setClient_clients_same ..)]
    exact handed.put idle fr positive fits holds clnt' rfl next remain

/-- Bytes go out. -/
theorem write (h : ConnLink c ph s w a) {clnt : TcpClient} (here : s.clients c = some clnt)
    {count : Nat} (positive : 0 < count) (fits : count ≤ clnt.pending.length) :
    ConnLink c ph (s.setClient c { clnt with
        outNext := clnt.outNext + count
        outRemain := clnt.outRemain - count })
      { w with sent := fun i => if i = c then w.sent i ++ clnt.pending.take count else w.sent i } a := by
  obtain ⟨list, handed, awaited⟩ := h.frames
  rw [handed_some here] at handed
  refine ⟨h.requests, h.arrived, h.ranges, ?_, list, ?_, ?_⟩
  · intro x hx
    rw [setClient_clients_same] at hx
    obtain rfl := Option.some.inj hx
    exact h.client clnt here
  · rw [handed_some (setClient_clients_same ..)]
    simp only [↓reduceIte]
    exact handed.write positive fits
  · simp only [↓reduceIte]
    exact awaited.mono (fun _ => List.prefix_rfl) rfl (List.prefix_append _ _)

/-- A whole range that the sender has read is the one that was asked for at its place. -/
theorem range_get (h : ConnLink c ph s w a) (bound : a.rnext ≤ sequenceMax) {bytes : List UInt8}
    (part : bytes <+: (w.peers c).up) {j : Nat} (whole : 16 * (j + 1) ≤ bytes.length) :
    (gapRanges (w.peers c).recv.acts)[j]? = some (rangeAt bytes j) := by
  refine rangeAt_get ?_ ?_ whole
  · intro r here
    obtain ⟨low, valid, high⟩ := h.ranges r here
    unfold sequenceMax at bound
    constructor <;> constructor <;> omega
  · refine part.trans ?_
    rw [← h.requests.stream]
    exact List.prefix_append _ _

theorem range_read (h : ConnLink c ph s w a) (bound : a.rnext ≤ sequenceMax) {bytes : List UInt8}
    (part : bytes <+: (w.peers c).up) {j : Nat} (whole : 16 * (j + 1) ≤ bytes.length) :
    0 ≤ (rangeAt bytes j).low ∧ (rangeAt bytes j).low < (rangeAt bytes j).high ∧
      (rangeAt bytes j).high ≤ a.rnext :=
  h.ranges _ (List.mem_of_getElem? (h.range_get bound part whole))

/-- No more ranges have been read than were asked for. -/
theorem read_le (h : ConnLink c ph s w a) :
    (w.recd c).length / 16 ≤ (gapRanges (w.peers c).recv.acts).length := by
  have read := h.arrived.length_le
  have all := congrArg List.length h.requests.stream
  rw [List.length_append, length_encodeRanges] at all
  omega

end ConnLink

end Lancaster
