import Lancaster.Base.History
import Lancaster.PacketStream
import Lancaster.Isolation

/-!
# What is staged into each packet

An observer of the sender's calls notes each record that is copied for the multicast packet and
each datagram that the socket takes, with what has been staged into it since the one before. The
bytes of a packet play no part in this.
-/

namespace Lancaster

open Bytes Interleaving Sender

variable {g : Geometry}

/-- The notes of the observer: whether the handler of the multicast socket runs, what it has staged
since the last datagram, and the datagrams with what was staged into each. -/
structure Ledger (g : Geometry) where
  mcast : Bool
  staged : List (Int × Value g)
  sent : List (List UInt8 × List (Int × Value g))

namespace Ledger

def empty : Ledger g := ⟨false, [], []⟩

def stage (l : Ledger g) (id : Int) (val : Value g) : Ledger g :=
  { l with staged := l.staged ++ [(id, val)] }

def flush (l : Ledger g) (data : List UInt8) : Ledger g :=
  { l with staged := [], sent := l.sent ++ [(data, l.staged)] }

def enter (l : Ledger g) : (c : Call) × c.Ans g → Ledger g
  | ⟨.recordCopy id, .ok r⟩ => l.stage id r.val
  | ⟨.sockSendto data, .ok _⟩ => l.flush data
  | _ => l

def note (l : Ledger g) (r : (c : Call) × c.Ans g) : Ledger g :=
  if l.mcast then l.enter r else l

def total (l : Ledger g) : List (Int × Value g) := l.sent.flatMap Prod.snd ++ l.staged

@[simp] theorem stage_mcast (l : Ledger g) (id : Int) (val : Value g) :
    (l.stage id val).mcast = l.mcast := rfl

@[simp] theorem flush_mcast (l : Ledger g) (data : List UInt8) : (l.flush data).mcast = l.mcast :=
    rfl

@[simp] theorem total_stage (l : Ledger g) (id : Int) (val : Value g) :
    (l.stage id val).total = l.total ++ [(id, val)] := by
  simp [total, stage]

@[simp] theorem total_flush (l : Ledger g) (data : List UInt8) :
    (l.flush data).total = l.total := by
  simp [total, flush]

theorem note_on {l : Ledger g} (on : l.mcast = true) (r : (c : Call) × c.Ans g) :
    l.note r = l.enter r := if_pos on

theorem note_off {l : Ledger g} (off : l.mcast = false) (r : (c : Call) × c.Ans g) :
    l.note r = l := by
  rw [note, off]
  rfl

end Ledger

/-- A datagram carries what was staged into it, or it is a heartbeat and carries nothing. -/
inductive Encodes : List UInt8 → List (Int × Value g) → Prop where
  | data {seq : Int} {stamp : List UInt8} {recs : List (Int × Value g)} (low : 1 ≤ seq)
      (high : seq < sequenceMax) (len : stamp.length = 8) (nonempty : recs ≠ [])
      (known : ∀ r ∈ recs, g.Holds r.1) : Encodes (datagram seq stamp recs) recs
  | beat {seq : Int} {stamp : List UInt8} (low : 1 ≤ seq) (high : seq < sequenceMax)
      (len : stamp.length = 8) : Encodes (datagram (g := g) (-seq) stamp []) []

/-- Every datagram carries what was staged into it. -/
def Ledger.Sound (l : Ledger g) : Prop := ∀ x ∈ l.sent, Encodes x.1 x.2

theorem Ledger.Sound.flush {l : Ledger g} (h : l.Sound) {data : List UInt8}
    (encodes : Encodes data l.staged) : (l.flush data).Sound := by
  intro x here
  rcases List.mem_append.mp here with here | here
  · exact h x here
  · obtain rfl := List.mem_singleton.mp here
    exact encodes

/-- A property of the tasks of `mcast_on_write` and of what is noted meanwhile. -/
abbrev Noted (ok : (c : Call) × c.Ans g → Prop) {β : Type} (Q : β → Ledger g → Prop) :
    SenderTask g β → Ledger g → Prop := Task.Along Ledger.note ok Ledger.Sound Q

namespace Noted

variable {ok : (c : Call) × c.Ans g → Prop} {β : Type} {Q : β → Ledger g → Prop} {s : Sender g}
  {l : Ledger g}

/-- A call of which nothing is noted. -/
theorem quiet {c : Call} {k : c.Ans g → SenderTask g β} (on : l.mcast = true) (sound : l.Sound)
    (same : ∀ a, l.enter ⟨c, a⟩ = l) (answer : ∀ a, ok ⟨c, a⟩ → Noted ok Q (k a) l) :
    Noted ok Q (.call s c k) l := by
  refine .call sound fun a fine => ?_
  rw [Ledger.note_on on, same]
  exact answer a fine

theorem copy {id : Int} {k : Call.Ans g (.recordCopy id) → SenderTask g β} (on : l.mcast = true)
    (sound : l.Sound)
    (failed : ∀ e, ok ⟨.recordCopy id, .error e⟩ → Noted ok Q (k (.error e)) l)
    (copied : ∀ rec, ok ⟨.recordCopy id, .ok rec⟩ → Noted ok Q (k (.ok rec)) (l.stage id rec.val)) :
    Noted ok Q (.call s (.recordCopy id) k) l := by
  refine .call sound fun a fine => ?_
  rw [Ledger.note_on on]
  cases a with
  | error e => exact failed e fine
  | ok rec => exact copied rec fine

theorem sendto {data : List UInt8} {k : Call.Ans g (.sockSendto data) → SenderTask g β}
    (on : l.mcast = true) (sound : l.Sound)
    (refused : ∀ e, ok ⟨.sockSendto data, .error e⟩ → Noted ok Q (k (.error e)) l)
    (taken : ∀ n, ok ⟨.sockSendto data, .ok n⟩ → Noted ok Q (k (.ok n)) (l.flush data)) :
    Noted ok Q (.call s (.sockSendto data) k) l := by
  refine .call sound fun a fine => ?_
  rw [Ledger.note_on on]
  cases a with
  | error e => exact refused e fine
  | ok n => exact taken n fine

end Noted

def Call.isSocket : Call → Bool
  | .sockSendto _ => true
  | .sockRead _ _ => true
  | .sockWrite _ _ => true
  | .lib _ => true
  | _ => false

def Call.ofMcast : Call → Bool
  | .sockRead _ _ => false
  | .sockWrite _ _ => false
  | .lib _ => false
  | _ => true

namespace Sender

/-- The packet buffer has its size, and there is a sequence for the next packet. -/
structure Sized (s : Sender g) : Prop where
  len : s.pktBuf.length = s.mcastMtu
  roomy : 24 + g.valSize ≤ s.mcastMtu
  small : s.mcastMtu < 18446744073709551616
  low : 1 ≤ s.nextSeq
  below : s.nextSeq < sequenceMax

/-- The packet holds `recs` and nothing else. -/
structure Loaded (s : Sender g) (recs : List (Int × Value g)) : Prop extends Sized s where
  known : ∀ r ∈ recs, g.Holds r.1
  packet : (s.pktNext = 0 ∧ s.mcastInsertTime = 0 ∧ recs = []) ∨
    (recs ≠ [] ∧ Packet s s.nextSeq recs [])

structure Flushed (s s' : Sender g) : Prop extends Sized s' where
  empty : s'.pktNext = 0
  fresh : s'.mcastInsertTime = 0
  revs : s'.recordRevs = s.recordRevs
  last : s'.lastQIdx = s.lastQIdx
  mtu : s'.mcastMtu = s.mcastMtu

section Specs

variable {s s' : Sender g} {l : Ledger g} {recs : List (Int × Value g)}
  {ok : (c : Call) × c.Ans g → Prop}

theorem Flushed.loaded (h : Flushed s s') : Loaded s' [] :=
  ⟨h.toSized, nofun, Or.inl ⟨h.empty, h.fresh, rfl⟩⟩

theorem Sized.stamped (h : Sized s) (now : Int) : Sized (s.stamped now) := by
  have len := h.len
  have roomy := h.roomy
  refine ⟨?_, h.roomy, h.small, h.low, h.below⟩
  exact (length_stLong (by omega)).trans len

theorem Loaded.stamped (h : Loaded s recs) (now : Int) (nonempty : recs ≠ []) :
    Loaded (s.stamped now) recs := by
  refine ⟨h.toSized.stamped now, h.known, ?_⟩
  rcases h.packet with ⟨_, _, empty⟩ | ⟨_, pkt⟩
  · exact absurd empty nonempty
  · exact Or.inr ⟨nonempty, pkt.stamp now⟩

theorem Loaded.used_le (h : Loaded s recs) : s.pktNext ≤ s.mcastMtu := by
  rcases h.packet with ⟨empty, _⟩ | ⟨_, pkt⟩
  · omega
  · have fits := pkt.fits
    have len := h.len
    omega

def OnlySockets (ok : (c : Call) × c.Ans g → Prop) : Prop :=
  ∀ r, ok r → failure r = some Failure.blocked → r.1.isSocket

/-- A failure of a call that is not BLOCKED. -/
theorem failed_not_blocked (sockets : OnlySockets ok) {x : (c : Call) × c.Ans g} (fine : ok x)
    {e : Failure} (failed : failure x = some e) (other : x.1.isSocket = false) :
    e.val ≠ Status.blocked := by
  intro blocked
  have same : e = Failure.blocked := Subtype.ext blocked
  have socket := sockets x fine (by rw [failed, same])
  rw [other] at socket
  cases socket

def Unreliable (ok : (c : Call) × c.Ans g → Prop) : Prop :=
  ∃ r, ok r ∧ r.1.ofMcast ∧ (failure r).isSome

/-- Why sending a packet may fail: one of its calls does, or the sequences are used up. -/
def Hindered (ok : (c : Call) × c.Ans g → Prop) (s : Sender g) (st : Int) : Prop :=
  Unreliable ok ∨ (st = Status.sequenceOverflow ∧ s.nextSeq + 1 = sequenceMax)

/-- How sending a packet ends. A packet that is refused stays. -/
def SendPost (ok : (c : Call) × c.Ans g → Prop) (s : Sender g) (l : Ledger g)
    (r : Int × Sender g) (l' : Ledger g) : Prop :=
  (Status.Failed r.1 ∧ Hindered ok s r.1 ∧
    (r.1 = Status.blocked → l' = l ∧ ∃ now, r.2 = s.stamped now)) ∨
  (r.1 = Status.ok ∧ Flushed s r.2 ∧ r.2.nextSeq = s.nextSeq + (if l.staged = [] then 0 else 1) ∧
    ∃ data, l' = l.flush data)

/-- Sending the packet takes along what is staged; without records it is a heartbeat. -/
theorem mcastSendPkt_along (sockets : OnlySockets ok) (on : l.mcast = true) (sound : l.Sound)
    (sized : Sized s) (known : ∀ r ∈ l.staged, g.Holds r.1) {seq : Int}
    (pkt : Packet s seq l.staged [])
    (kind : (seq = s.nextSeq ∧ l.staged ≠ []) ∨ (seq = -s.nextSeq ∧ l.staged = [])) :
    Noted ok (SendPost ok s l) (mcastSendPkt s) l := by
  have low := sized.low
  have below := sized.below
  have long : IsLong seq := by
    unfold sequenceMax at below
    rcases kind with ⟨rfl, _⟩ | ⟨rfl, _⟩
    · constructor <;> omega
    · constructor <;> omega
  unfold mcastSendPkt
  refine .quiet on sound (fun _ => rfl) fun a fine => ?_
  cases a with
  | error e =>
    refine .done sound (Or.inl ⟨e.2, Or.inl ⟨_, fine, rfl, rfl⟩, fun blocked => ?_⟩)
    exact absurd blocked (failed_not_blocked sockets fine rfl rfl)
  | ok now =>
    have stamp : Packet (s.stamped now) seq l.staged [] := pkt.stamp now
    have header : ntohll (ldLong (stLong s.pktBuf 8 (htonll now)) 0) = seq := stamp.header long
    refine .sendto on sound ?_ ?_
    · intro e fine
      exact .done sound (Or.inl ⟨e.2, Or.inl ⟨_, fine, rfl, rfl⟩, fun _ => ⟨rfl, now, rfl⟩⟩)
    · intro count _
      obtain ⟨stampBytes, len, bytes⟩ := stamp.bytes
      rw [List.append_nil] at bytes
      have encodes : Encodes (s.stamped now).packet l.staged := by
        rw [bytes]
        rcases kind with ⟨rfl, nonempty⟩ | ⟨rfl, empty⟩
        · exact .data low below len nonempty known
        · rw [empty]
          exact .beat low below len
      have sound' : (l.flush (s.stamped now).packet).Sound := sound.flush encodes
      -- the rest of the code, once the sequence has been counted
      have rest : ∀ n (k : Call.lockStats.Ans g → SenderTask g (Int × Sender g)) (s₂ : Sender g),
          n = s.nextSeq + (if l.staged = [] then 0 else 1) → n < sequenceMax →
          let s₁ : Sender g := { s.stamped now with
            lastActiveTime := now, mcastSendTime := now, nextSeq := n, pktNext := 0,
            mcastInsertTime := 0 }
          s₂ = { s₁ with nextStats := { s₁.nextStats with
            mcastBytesSent := s₁.nextStats.mcastBytesSent + count
            mcastPacketsSent := s₁.nextStats.mcastPacketsSent + 1 } } →
          (∀ e, k (.error e) = .done (e.val, s₁)) → (∀ u, k (.ok u) = .done (Status.ok, s₂)) →
          Noted ok (SendPost ok s l) (.call s₁ .lockStats k) (l.flush (s.stamped now).packet) := by
        rintro n k _ count free s₁ rfl failed counted
        have sized' := sized.stamped now
        have least : s.nextSeq ≤ n := by
          rw [count]
          split <;> omega
        refine .quiet on sound' (fun _ => rfl) fun a fine => ?_
        cases a with
        | error e =>
          rw [failed]
          refine .done sound' (Or.inl ⟨e.2, Or.inl ⟨_, fine, rfl, rfl⟩, fun blocked => ?_⟩)
          exact absurd blocked (failed_not_blocked sockets fine rfl rfl)
        | ok u =>
          rw [counted]
          refine .done sound' (Or.inr ⟨rfl, ⟨?_, rfl, rfl, rfl, rfl, rfl⟩, count, _, rfl⟩)
          exact ⟨sized'.len, sized'.roomy, sized'.small, le_trans low least, free⟩
      dsimp only
      rw [header]
      by_cases data : 0 ≤ seq
      · have nonempty : l.staged ≠ [] := by
          rcases kind with ⟨_, nonempty⟩ | ⟨rfl, _⟩
          · exact nonempty
          · omega
        by_cases limit : s.nextSeq + 1 = sequenceMax
        · simp only [data, limit, and_self, ↓reduceIte]
          refine .done sound' (Or.inl ⟨overflow_hard.1, Or.inr ⟨rfl, limit⟩, fun blocked => ?_⟩)
          exact absurd blocked overflow_hard.2
        · simp only [data, limit, and_false, ↓reduceIte]
          exact rest (s.nextSeq + 1) _ _
            (by rw [if_neg nonempty]) (by omega) rfl (fun _ => rfl) fun _ => rfl
      · have empty : l.staged = [] := by
          rcases kind with ⟨rfl, _⟩ | ⟨_, empty⟩
          · omega
          · exact empty
        simp only [data, false_and, ↓reduceIte]
        exact rest s.nextSeq _ _ (by rw [if_pos empty, Int.add_zero]) below rfl (fun _ => rfl) fun _ => rfl

structure Stages (s : Sender g) (id : Int) (rec : Record g) (l' : Ledger g) (s' : Sender g) :
    Prop where
  loaded : Loaded s' l'.staged
  revs : s'.recordRevs = fun i => if i = id - g.baseId then rec.rev else s.recordRevs i
  next : s'.nextSeq = s.nextSeq
  mtu : s'.mcastMtu = s.mcastMtu

def StagePost (ok : (c : Call) × c.Ans g → Prop) (s : Sender g) (id sentPkt : Int) (l : Ledger g)
    (r : Int × Sender g) (l' : Ledger g) : Prop :=
  (Status.Failed r.1 ∧ r.1 ≠ Status.blocked ∧ Unreliable ok) ∨
  (r.1 = sentPkt ∧ ∃ rec, ok ⟨.recordCopy id, .ok rec⟩ ∧ l' = l.stage id rec.val ∧
    Stages s id rec l' r.2)

/-- The packet with the identifier of the next record behind it. -/
theorem Loaded.stageId (h : Loaded s recs) (id : Int)
    (room : s.pktNext + (8 + g.valSize) ≤ s.mcastMtu) :
    Packet (s.stageId id s.pktNext) s.nextSeq recs (netLong id) ∧
    (s.stageId id s.pktNext).pktBuf.length = s.mcastMtu ∧
    (s.stageId id s.pktNext).pktNext + g.valSize ≤ s.mcastMtu := by
  have len := h.len
  have roomy := h.roomy
  have next := stageId_pktNext s id s.pktNext
  have room' : (s.stageId id s.pktNext).pktNext + g.valSize ≤ s.mcastMtu := by
    rw [next]
    split <;> omega
  refine ⟨?_, (length_stageId id (by omega)).trans len, room'⟩
  rcases h.packet with ⟨empty, _, rfl⟩ | ⟨_, pkt⟩
  · rw [empty]
    exact .stageId_empty s id empty (by omega)
  · exact pkt.stageId id (by omega)

/-- A record goes into a packet that has room for it. -/
theorem mcastStageRecord_along (sockets : OnlySockets ok) (on : l.mcast = true) (sound : l.Sound)
    (loaded : Loaded s l.staged) {id : Int} (holds : g.Holds id)
    (room : s.pktNext + (8 + g.valSize) ≤ s.mcastMtu) (sentPkt : Int) :
    Noted ok (StagePost ok s id sentPkt l) (mcastStageRecord s id s.pktNext sentPkt) l := by
  obtain ⟨pkt, len, room'⟩ := loaded.stageId id room
  unfold mcastStageRecord
  refine .copy on sound ?_ ?_
  · intro e fine
    refine .done sound (Or.inl ⟨e.2, ?_, ⟨_, fine, rfl, rfl⟩⟩)
    exact failed_not_blocked sockets fine rfl rfl
  · intro rec fine
    have sound' : (l.stage id rec.val).Sound := sound
    have filled : Packet ((s.stageId id s.pktNext).stageValue id rec) s.nextSeq
        (l.staged ++ [(id, rec.val)]) [] := pkt.stageValue rec (by omega)
    refine .quiet on sound' (fun _ => rfl) fun b fine' => ?_
    cases b with
    | error e =>
      refine .done sound' (Or.inl ⟨e.2, ?_, ⟨_, fine', rfl, rfl⟩⟩)
      exact failed_not_blocked sockets fine' rfl rfl
    | ok now =>
      refine .quiet on sound' (fun _ => rfl) fun c fine'' => ?_
      cases c with
      | error e =>
        refine .done sound' (Or.inl ⟨e.2, ?_, ⟨_, fine'', rfl, rfl⟩⟩)
        exact failed_not_blocked sockets fine'' rfl rfl
      | ok _ =>
        refine .done sound' (Or.inr ⟨rfl, rec, fine, rfl, ?_, ?_, stageId_nextSeq s id s.pktNext,
          stageId_mcastMtu s id s.pktNext⟩)
        · refine ⟨⟨?_, ?_, ?_, ?_, ?_⟩, ?_, Or.inr ⟨by simp [Ledger.stage], ?_⟩⟩
          · show (poke _ _ _).length = (s.stageId id s.pktNext).mcastMtu
            rw [length_poke (by simp; omega), len, stageId_mcastMtu]
          · simpa [stageValue] using loaded.roomy
          · simpa [stageValue] using loaded.small
          · simpa [stageValue] using loaded.low
          · simpa [stageValue] using loaded.below
          · intro x here
            rcases List.mem_append.mp here with here | here
            · exact loaded.known x here
            · obtain rfl := List.mem_singleton.mp here
              exact holds
          · have next : ((s.stageId id s.pktNext).stageValue id rec).nextSeq = s.nextSeq :=
              stageId_nextSeq s id s.pktNext
            have moved : Packet ((s.stageId id s.pktNext).stageValue id rec)
                ((s.stageId id s.pktNext).stageValue id rec).nextSeq (l.staged ++ [(id, rec.val)]) [] := by
              rw [next]
              exact filled
            exact Packet.congr moved rfl rfl
        · have revs := stageId_recordRevs s id s.pktNext
          simp only [stageValue, revs]

/-- A changed record is staged; before that, the packet is sent if it is full. -/
structure Takes (s : Sender g) (id : Int) (rec : Record g) (l : Ledger g) (r : Int × Sender g)
    (l' : Ledger g) : Prop where
  plain : r.1 = 0 ∨ r.1 = 1
  on : l'.mcast = true
  nonempty : l'.staged ≠ []
  total : l'.total = l.total ++ [(id, rec.val)]
  loaded : Loaded r.2 l'.staged
  revs : r.2.recordRevs = fun i => if i = id - g.baseId then rec.rev else s.recordRevs i
  next : r.2.nextSeq = s.nextSeq + r.1
  mtu : r.2.mcastMtu = s.mcastMtu
  full : Tight s → r.1 = 1

/-- The revision that is read is not the one that is remembered. -/
def Changes (ok : (c : Call) × c.Ans g → Prop) (s : Sender g) (id : Int) : Prop :=
  ∃ rev, ok ⟨.recordReadLock id, .ok rev⟩ ∧ rev ≠ s.recordRevs (id - g.baseId)

/-- How looking at a record ends: with a failure, with an unchanged record, or with one that is
staged. -/
def AccumPost (ok : (c : Call) × c.Ans g → Prop) (s : Sender g) (id : Int) (l : Ledger g)
    (r : Int × Sender g) (l' : Ledger g) : Prop :=
  (Status.Failed r.1 ∧
    (Unreliable ok ∨ ¬ g.Holds id ∨ (Hindered ok s r.1 ∧ Changes ok s id)) ∧
    (r.1 = Status.blocked → Loaded r.2 l'.staged)) ∨
  (r.1 = 0 ∧ ok ⟨.recordReadLock id, .ok (s.recordRevs (id - g.baseId))⟩ ∧ r.2 = s ∧ l' = l) ∨
  (∃ rec, Changes ok s id ∧ ok ⟨.recordCopy id, .ok rec⟩ ∧ Takes s id rec l r l')

theorem Loaded.some_of_tight (h : Loaded s recs)
    (tight : sizeSub s.mcastMtu s.pktNext < 8 + g.valSize) :
    recs ≠ [] ∧ Packet s s.nextSeq recs [] := by
  rcases h.packet with ⟨empty, _, _⟩ | full
  · have roomy := h.roomy
    rw [empty, sizeSub_eq (Nat.zero_le _) h.small] at tight
    omega
  · exact full

theorem mcastAccumRecord_along (sockets : OnlySockets ok) (on : l.mcast = true) (sound : l.Sound)
    (loaded : Loaded s l.staged) (id : Int) :
    Noted ok (AccumPost ok s id l) (mcastAccumRecord s id) l := by
  unfold mcastAccumRecord
  by_cases holds : g.Holds id
  · rw [if_pos holds]
    refine .quiet on sound (fun _ => rfl) fun a fine => ?_
    cases a with
    | error e =>
      refine .done sound (Or.inl ⟨e.2, Or.inl ⟨_, fine, rfl, rfl⟩, fun blocked => ?_⟩)
      exact absurd blocked (failed_not_blocked sockets fine rfl rfl)
    | ok rev =>
      dsimp only
      by_cases same : rev = s.recordRevs (id - g.baseId)
      · rw [if_pos same]
        exact .done sound (Or.inr (Or.inl ⟨rfl, same ▸ fine, rfl, rfl⟩))
      · rw [if_neg same]
        have changes : Changes ok s id := ⟨rev, fine, same⟩
        by_cases tight : sizeSub s.mcastMtu s.pktNext < 8 + g.valSize
        · rw [if_pos tight]
          obtain ⟨nonempty, pkt⟩ := loaded.some_of_tight tight
          refine (mcastSendPkt_along sockets on sound loaded.toSized loaded.known pkt
            (Or.inl ⟨rfl, nonempty⟩)).bind ?_
          rintro ⟨st, s₁⟩ l₁ sound₁ (⟨failed, hindered, refused⟩ | ⟨rfl, flushed, next, data, rfl⟩)
          · dsimp only at failed refused ⊢
            rw [if_pos failed]
            refine .done sound₁ (Or.inl ⟨failed, Or.inr (Or.inr ⟨hindered, changes⟩),
              fun blocked => ?_⟩)
            obtain ⟨rfl, now, rfl⟩ := refused blocked
            exact loaded.stamped now nonempty
          · dsimp only at flushed next ⊢
            rw [if_neg nonempty] at next
            rw [if_neg not_failed_ok]
            have roomy := flushed.roomy
            have empty := flushed.empty
            have staged := mcastStageRecord_along sockets (l := l.flush data) on sound₁ flushed.loaded
              holds (by omega) 1
            rw [empty] at staged
            refine staged.mono ?_
            rintro ⟨st, s'⟩ l' _ (⟨failed, hard, broken⟩ | ⟨rfl, rec, copied, rfl, stages⟩)
            · exact Or.inl ⟨failed, Or.inl broken, fun blocked => absurd blocked hard⟩
            · refine Or.inr (Or.inr ⟨rec, changes, copied, Or.inr rfl,
                on, by simp [Ledger.stage], ?_,
                stages.loaded, ?_, stages.next.trans next, stages.mtu.trans flushed.mtu,
                  fun _ => rfl⟩)
              · rw [Ledger.total_stage, Ledger.total_flush]
              · rw [stages.revs, flushed.revs]
        · rw [if_neg tight]
          have used := loaded.used_le
          have room := tight
          rw [sizeSub_eq used loaded.small] at room
          refine (mcastStageRecord_along sockets on sound loaded holds (by omega) 0).mono ?_
          rintro ⟨st, s'⟩ l' _ (⟨failed, hard, broken⟩ | ⟨rfl, rec, copied, rfl, stages⟩)
          · exact Or.inl ⟨failed, Or.inl broken, fun blocked => absurd blocked hard⟩
          · refine Or.inr (Or.inr ⟨rec, changes, copied, Or.inl rfl, on, by simp [Ledger.stage], ?_,
              stages.loaded, stages.revs, ?_, stages.mtu, fun full => absurd full tight⟩)
            · exact Ledger.total_stage l id rec.val
            · rw [stages.next, Int.add_zero]
  · rw [if_neg holds]
    refine .done sound (Or.inl ⟨invalid_hard.1, Or.inr (Or.inl holds), fun blocked => ?_⟩)
    exact absurd blocked invalid_hard.2

/-- The queue loop from position `q` on, over at most `n` positions. -/
inductive Scans (ok : (c : Call) × c.Ans g → Prop) :
    Sender g → Ledger g → Nat → Nat → Int × Sender g × Nat → Ledger g → Prop where
  | drained {s : Sender g} {l : Ledger g} {q : Nat} : Scans ok s l q 0 (Status.ok, s, q) l
  | unread {s : Sender g} {l : Ledger g} {q n : Nat} {e : Failure}
      (failed : ok ⟨.storageReadQueue q, .error e⟩) : Scans ok s l q (n + 1) (e.val, s, q) l
  | stopped {s s' : Sender g} {l l' : Ledger g} {q n : Nat} {id st : Int}
      (read : ok ⟨.storageReadQueue q, .ok id⟩) (looked : AccumPost ok s id l (st, s') l')
      (stop : st ≠ 0) : Scans ok s l q (n + 1) (st, s', q) l'
  | passed {s s₁ : Sender g} {l l₁ l' : Ledger g} {q n : Nat} {id : Int} {r : Int × Sender g × Nat}
      (read : ok ⟨.storageReadQueue q, .ok id⟩) (looked : AccumPost ok s id l (0, s₁) l₁)
      (rest : Scans ok s₁ l₁ (q + 1) n r l') : Scans ok s l q (n + 1) r l'

/-- A look that does not fail leaves a packet that holds what is staged. -/
theorem AccumPost.loaded {id : Int} {r : Int × Sender g} {l' : Ledger g}
    (h : AccumPost ok s id l r l') (loaded : Loaded s l.staged)
    (soft : r.1 = Status.blocked ∨ ¬ Status.Failed r.1) : Loaded r.2 l'.staged := by
  rcases h with ⟨failed, _, refused⟩ | ⟨_, _, same, rfl⟩ | ⟨rec, _, _, takes⟩
  · exact refused (soft.resolve_right fun fine => fine failed)
  · rw [same]
    exact loaded
  · exact takes.loaded

theorem AccumPost.on {id : Int} {s' : Sender g} {l' : Ledger g} (on : l.mcast = true)
    (h : AccumPost ok s id l (0, s') l') : l'.mcast = true := by
  rcases h with ⟨failed, _⟩ | ⟨_, _, _, rfl⟩ | ⟨rec, _, _, takes⟩
  · exact absurd failed (show ¬ Status.Failed 0 by decide)
  · exact on
  · exact takes.on

theorem mcastScanQueue_along (sockets : OnlySockets ok) (on : l.mcast = true) (sound : l.Sound)
    (loaded : Loaded s l.staged) (q n : Nat) :
    Noted ok (Scans ok s l q n) (mcastScanQueue s n q) l := by
  induction n generalizing s l q with
  | zero => exact .done sound .drained
  | succ n ih =>
    unfold mcastScanQueue
    refine .quiet on sound (fun _ => rfl) fun a fine => ?_
    cases a with
    | error e => exact .done sound (.unread fine)
    | ok id =>
      refine (mcastAccumRecord_along sockets on sound loaded id).bind ?_
      rintro ⟨st, s₁⟩ l₁ sound₁ looked
      dsimp only
      by_cases stop : st ≠ 0
      · rw [if_pos stop]
        exact .done sound₁ (.stopped fine looked stop)
      · obtain rfl : st = 0 := not_not.mp stop
        rw [if_neg stop]
        refine (ih (looked.on on) sound₁ (looked.loaded loaded (Or.inr not_failed_ok)) (q + 1)).mono
          ?_
        intro r l' _ rest
        exact .passed fine looked rest

def EmptyPost (ok : (c : Call) × c.Ans g → Prop) (s : Sender g) (l : Ledger g)
    (r : Int × Sender g) (l' : Ledger g) : Prop :=
  (Status.Failed r.1 ∧ Hindered ok s r.1) ∨
  (r.1 = Status.ok ∧ Loaded r.2 l'.staged ∧ l'.total = l.total ∧
    r.2.recordRevs = s.recordRevs ∧ r.2.nextSeq ≤ s.nextSeq + 1 ∧ r.2.lastQIdx = s.lastQIdx)

theorem SendPost.empty {r : Int × Sender g} {l' : Ledger g} (h : SendPost ok s l r l') :
    EmptyPost ok s l r l' := by
  rcases h with ⟨failed, hindered, _⟩ | ⟨fine, flushed, next, data, rfl⟩
  · exact Or.inl ⟨failed, hindered⟩
  · refine Or.inr ⟨fine, flushed.loaded, Ledger.total_flush l data, flushed.revs, ?_, flushed.last⟩
    rw [next]
    split <;> omega

theorem mcastOnEmptyQueue_along (sockets : OnlySockets ok) (on : l.mcast = true) (sound : l.Sound)
    (loaded : Loaded s l.staged) : Noted ok (EmptyPost ok s l) (mcastOnEmptyQueue s) l := by
  -- a packet with records is sent as it is
  have sends : l.staged ≠ [] → Noted ok (EmptyPost ok s l) (mcastSendPkt s) l := by
    intro nonempty
    rcases loaded.packet with ⟨_, _, nothing⟩ | ⟨_, pkt⟩
    · exact absurd nothing nonempty
    · exact (mcastSendPkt_along sockets on sound loaded.toSized loaded.known pkt
        (Or.inl ⟨rfl, nonempty⟩)).mono fun _ _ _ post => post.empty
  unfold mcastOnEmptyQueue
  refine .quiet on sound (fun _ => rfl) fun a fine => ?_
  cases a with
  | error e => exact .done sound (Or.inl ⟨e.2, Or.inl ⟨_, fine, rfl, rfl⟩⟩)
  | ok now =>
    dsimp only
    split
    · rename_i old
      apply sends
      rcases loaded.packet with ⟨_, fresh, _⟩ | ⟨nonempty, _⟩
      · exact absurd fresh old.1
      · exact nonempty
    · split
      · split
        · rename_i empty
          have nothing : l.staged = [] := by
            rcases loaded.packet with ⟨_, _, nothing⟩ | ⟨_, pkt⟩
            · exact nothing
            · exact absurd empty pkt.ne_zero
          have len := loaded.len
          have roomy := loaded.roomy
          have beat := Packet.beat s (-s.nextSeq) empty (by omega)
          rw [← nothing] at beat
          refine (mcastSendPkt_along sockets on sound ?_ loaded.known beat
            (Or.inr ⟨rfl, nothing⟩)).mono ?_
          · exact ⟨(length_stLong (by omega)).trans len, roomy, loaded.small, loaded.low,
              loaded.below⟩
          · intro r l' _ post
            exact post.empty
        · rename_i full
          apply sends
          rcases loaded.packet with ⟨empty, _, _⟩ | ⟨nonempty, _⟩
          · exact absurd empty full
          · exact nonempty
      · exact .done sound (Or.inr ⟨rfl, loaded, rfl, rfl, Int.le_add_one (le_refl _), rfl⟩)

/-- How a call of `mcast_on_write` ends, by the head of the queue that it finds. -/
inductive Writes (ok : (c : Call) × c.Ans g → Prop) (s : Sender g) (l : Ledger g) :
    Int × Sender g → Ledger g → Prop where
  | idle {head : Nat} {r : Int × Sender g} {l' : Ledger g} (found : ok ⟨.storageGetQueueHead, head⟩)
      (empty : head ≤ s.lastQIdx) (post : EmptyPost ok { s with lastQIdx := head } l r l') :
      Writes ok s l r l'
  | overrun {head : Nat} (found : ok ⟨.storageGetQueueHead, head⟩)
      (far : s.lastQIdx + g.qCapacity < head) : Writes ok s l (Status.changeQueueOverrun, s) l
  | scanned {head q : Nat} {st : Int} {s' : Sender g} {l' : Ledger g}
      (found : ok ⟨.storageGetQueueHead, head⟩) (more : s.lastQIdx < head)
      (scans : Scans ok { s with lastQIdx := s.scanStart head } l (s.scanStart head)
        (head - s.scanStart head) (st, s', q) l') :
      Writes ok s l (if st = Status.blocked then Status.ok else st, { s' with lastQIdx := q }) l'

theorem mcastOnWrite_along (sockets : OnlySockets ok) (on : l.mcast = true) (sound : l.Sound)
    (loaded : Loaded s l.staged) : Noted ok (Writes ok s l) (mcastOnWrite s) l := by
  have moved : ∀ q, Loaded { s with lastQIdx := q } l.staged := by
    intro q
    refine ⟨⟨loaded.len, loaded.roomy, loaded.small, loaded.low, loaded.below⟩, loaded.known, ?_⟩
    exact loaded.packet.imp id fun ⟨nonempty, pkt⟩ => ⟨nonempty, pkt.congr rfl rfl⟩
  rw [mcastOnWrite_eq]
  refine .quiet on sound (fun _ => rfl) fun (head : Nat) found => ?_
  by_cases empty : head ≤ s.lastQIdx
  · rw [if_pos empty]
    refine (mcastOnEmptyQueue_along sockets on sound (moved head)).mono ?_
    intro r l' _ post
    exact .idle found empty post
  · rw [if_neg empty]
    by_cases strict : s.lastQIdx + g.qCapacity < head ∧ s.ignoreOverrun = false
    · rw [if_pos strict]
      exact .done sound (.overrun found strict.1)
    · rw [if_neg strict]
      refine (mcastScanQueue_along sockets on sound (moved _) _ _).bind ?_
      rintro ⟨st, s', q⟩ l' sound' scans
      exact .done sound' (.scanned found (by omega) scans)

end Specs

end Sender

end Lancaster
