import Lancaster.Delivery
import Lancaster.Ledger

/-!
# From the staged records to the updates of a receiver

Whatever is staged into a packet before it is sent is what a receiver takes from its bytes.
-/

namespace Lancaster

open Bytes Interleaving Sender
open Receiver (McastInput)

variable {g : Geometry}

/-! ## Runs of the sender -/

namespace Sender

variable {s : Sender g} {l : Ledger g} {recs : List (Int × Value g)}
  {ok : (c : Call) × c.Ans g → Prop}

theorem Scans.loaded {q n : Nat} {r : Int × Sender g × Nat} {l' : Ledger g}
    (h : Scans ok s l q n r l') (loaded : Loaded s l.staged)
    (soft : r.1 = Status.blocked ∨ ¬ Status.Failed r.1) : Loaded r.2.1 l'.staged := by
  induction h with
  | drained => exact loaded
  | unread _ => exact loaded
  | stopped _ looked _ => exact looked.loaded loaded soft
  | passed _ looked _ ih => exact ih (looked.loaded loaded (Or.inr not_failed_ok)) soft

theorem Loaded.congr {s' : Sender g} (h : Loaded s recs) (same : SameStream s s') :
    Loaded s' recs := by
  refine ⟨⟨?_, ?_, ?_, ?_, ?_⟩, h.known, ?_⟩
  · rw [same.buf, same.mtu]
    exact h.len
  · rw [same.mtu]
    exact h.roomy
  · rw [same.mtu]
    exact h.small
  · rw [same.seq]
    exact h.low
  · rw [same.seq]
    exact h.below
  · rw [same.next, same.insert, same.seq]
    exact h.packet.imp id fun ⟨nonempty, pkt⟩ => ⟨nonempty, pkt.congr same.buf same.next⟩

theorem Writes.loaded {r : Int × Sender g} {l' : Ledger g} (h : Writes ok s l r l')
    (loaded : Loaded s l.staged) (fine : ¬ Status.Failed r.1) : Loaded r.2 l'.staged := by
  cases h with
  | idle found empty post =>
    rcases post with ⟨failed, _⟩ | ⟨_, loaded', _⟩
    · exact absurd failed fine
    · exact loaded'
  | overrun found far => exact absurd overrun_failed fine
  | @scanned head q st s' l' found more scans =>
    have start : Loaded { s with lastQIdx := s.scanStart head } l.staged :=
      loaded.congr ⟨rfl, rfl, rfl, rfl, rfl, rfl⟩
    have soft : st = Status.blocked ∨ ¬ Status.Failed st := by
      by_cases blocked : st = Status.blocked
      · exact Or.inl blocked
      · rw [if_neg blocked] at fine
        exact Or.inr fine
    exact (scans.loaded start soft).congr ⟨rfl, rfl, rfl, rfl, rfl, rfl⟩

/-- The bytes of the packet are those of the records that it holds. -/
theorem Loaded.staged_eq (h : Loaded s recs) : s.staged = recs := by
  rcases h.packet with ⟨empty, _, rfl⟩ | ⟨_, pkt⟩
  · exact staged_empty empty
  · exact pkt.staged h.known (by simp)

/-- A sender at rest holds a packet between two records. -/
theorem loaded_of_rest {w : World g} (h : StreamInv .rest s w) : Loaded s s.staged := by
  obtain ⟨core, closed, below⟩ := h
  refine ⟨⟨core.len, core.roomy, core.small, core.low, below⟩, ?_, ?_⟩
  · rcases closed with ⟨empty, _⟩ | full
    · rw [staged_empty empty]
      exact nofun
    · exact fun r here => (full.records.2.1 r here).1
  · rcases closed with ⟨empty, fresh⟩ | full
    · exact Or.inl ⟨empty, fresh, staged_empty empty⟩
    · exact Or.inr ⟨full.records.2.2, full.records.1⟩

end Sender

def isMcast : Event → Bool
  | .mcast => true
  | _ => false

def Ledger.watch {E : Env g} (l : Ledger g) : Choice E.host → Ledger g
  | .move _ => l
  | .reply c a => l.note ⟨c, a⟩
  | .start e => { l with mcast := isMcast e }

/-- What a run has staged into which datagram. -/
def ledger {E : Env g} (chs : List (Choice E.host)) : Ledger g := chs.foldl Ledger.watch .empty

/-- The answers that the world gives. -/
def Prompt (r : (c : Call) × c.Ans g) : Prop := failure r = some Failure.blocked → r.1.isSocket

theorem reply_prompt {c : Call} {a : c.Ans g} {w w' : World g} (h : World.reply c a w = some w') :
    Prompt ⟨c, a⟩ := by
  intro blocked
  cases c with
  | sockSendto data | sockRead c n | sockWrite c data | lib f => rfl
  | storageGetQueueHead => cases blocked
  | storageReadQueue q =>
    cases a with
    | ok id => cases blocked
    | error e =>
      obtain rfl : e = Failure.blocked := Option.some.inj blocked
      simp only [World.reply, Storage.storageReadQueue] at h
      by_cases unqueued : g.qCapacity = 0
      · simp only [unqueued, ↓reduceIte] at h
        split at h
        · rename_i same
          exact absurd same (by decide)
        · cases h
      · simp [unqueued] at h
  | _ =>
    cases a with
    | ok _ => cases blocked
    | error e =>
      obtain rfl : e = Failure.blocked := Option.some.inj blocked
      exact absurd rfl (World.failed_eq h).1

/-- The packet of a sender that goes on holds what is staged. -/
def InStep (a : Turn g) (l : Ledger g) : Prop :=
  a.hasQuit = false → ¬ Status.Failed a.status → a.sndr.staged = l.staged

/-- The handlers of a connection do not touch the packet. -/
theorem InStep.apart {c : Nat} {s : Sender g} {l : Ledger g} {r : Int × Sender g}
    (same : s.staged = l.staged) (apart : Apart c s r.2) : InStep (turn false r) l := by
  intro _ _
  show r.2.staged = l.staged
  rw [← same, staged, staged, packet, packet, apart.buf, apart.fill]

/-- Every handler keeps the notes true, from a sender at rest on. -/
theorem handle_along {s : Sender g} (w : World g) {l : Ledger g} (sound : l.Sound) (e : Event)
    (rest : isQuit e = false → StreamInv .rest s w ∧ s.staged = l.staged) :
    Task.Along Ledger.note Prompt Ledger.Sound InStep (s.handle e) { l with mcast := isMcast e } := by
  have sockets : OnlySockets (g := g) Prompt := fun r prompt => prompt
  cases e with
  | mcast =>
    obtain ⟨inv, same⟩ := rest rfl
    have loaded := loaded_of_rest inv
    rw [same] at loaded
    refine (mcastOnWrite_along (l := { l with mcast := true }) sockets rfl sound loaded).bind ?_
    intro r l' sound' writes
    exact .done sound' fun _ fine => (writes.loaded loaded fine).staged_eq
  | accept c inBuf outBuf =>
    obtain ⟨_, same⟩ := rest rfl
    refine .unnoted (Ledger.note_off rfl) sound ?_
    intro tr b ends
    obtain ⟨⟨st, s'⟩, calls, nothing, rfl, accepts, done⟩ := Task.ends_bind.mp ends
    obtain ⟨rfl, rfl⟩ := Task.ends_done.mp done
    exact InStep.apart same (tcpOnAccept_ends accepts).apart
  | client c rev =>
    obtain ⟨_, same⟩ := rest rfl
    refine .unnoted (Ledger.note_off rfl) sound ?_
    intro tr b ends
    obtain ⟨⟨st, s'⟩, calls, nothing, rfl, handles, done⟩ := Task.ends_bind.mp ends
    obtain ⟨rfl, rfl⟩ := Task.ends_done.mp done
    exact InStep.apart same (clientEvent_ends handles).1
  | quit order rounds =>
    refine .unnoted (Ledger.note_off rfl) sound ?_
    intro tr b ends
    obtain ⟨r, calls, nothing, rfl, _, done⟩ := Task.ends_bind.mp ends
    obtain ⟨rfl, rfl⟩ := Task.ends_done.mp done
    intro goesOn
    cases goesOn

theorem host_prompt {E : Env g} {c : Call} {a : c.Ans g} {w w' : World g}
    (h : E.host.reply c a w = some w') : Prompt ⟨c, a⟩ := by
  simp only [Env.host] at h
  split at h
  · exact reply_prompt h
  · cases h

/-- Between two handlers a sender that goes on is at rest. -/
theorem rest_of_reachable {s₀ : Sender g} {w₀ : World g} (init : StreamInv .rest s₀ w₀)
    {x : Conf (openEnv g).host}
    (reached : (openEnv g).host.Reachable ((openEnv g).idleConf s₀ w₀) x) {a : Turn g}
    (idle : x.task = .done a) (alive : a.hasQuit = false) (fine : ¬ Status.Failed a.status) :
    StreamInv .rest a.sndr x.world := by
  rcases (streamKept openMove_wire).reaches (fun _ _ _ _ _ => trivial) (fun _ _ _ _ _ => trivial)
    (fun _ _ _ _ _ _ => trivial) init trivial reached with ⟨a', task, ph, inv, rest⟩ | ⟨_, _, _, task, _⟩
  · rw [idle] at task
    obtain rfl : a = a' := by injection task
    rw [rest alive fine] at inv
    exact inv
  · rw [idle] at task
    cases task

/-- A handler starts from a sender at rest, unless it is the shutdown. -/
theorem starts_along {s₀ : Sender g} {w₀ : World g} (init : StreamInv .rest s₀ w₀)
    {u : Conf (openEnv g).host}
    (before : (openEnv g).host.Reachable ((openEnv g).idleConf s₀ w₀) u) {e : Event} {a : Turn g}
    {t : SenderTask g (Turn g)} (idle : u.task = .done a)
    (started : (openEnv g).host.start e a u.world = some t) {l : Ledger g} (sound : l.Sound)
    (same : InStep a l) :
    Task.Along Ledger.note Prompt Ledger.Sound InStep t { l with mcast := isMcast e } := by
  simp only [Env.host] at started
  split at started
  · cases started
  rename_i able
  split at started
  · obtain rfl := Option.some.inj started
    refine handle_along u.world sound e fun goesOn => ?_
    have alive : a.hasQuit = false := by simpa using fun quit => able (Or.inl quit)
    have fine : ¬ Status.Failed a.status := fun failed => able (Or.inr ⟨failed, goesOn⟩)
    exact ⟨rest_of_reachable init before idle alive fine, same alive fine⟩
  · cases started

/-- In every run each datagram carries what was staged into it. -/
theorem ledger_sound {s₀ : Sender g} {w₀ : World g} (init : StreamInv .rest s₀ w₀)
    (drained : s₀.pktNext = 0) {chs : List (Choice (openEnv g).host)} {y : Conf (openEnv g).host}
    (run : (openEnv g).host.Path (fun _ _ _ => True) ((openEnv g).idleConf s₀ w₀) chs y) :
    (ledger chs).Sound := by
  have empty : (Ledger.empty : Ledger g).Sound := nofun
  have first : Task.Along Ledger.note Prompt Ledger.Sound InStep
      ((openEnv g).idleConf s₀ w₀).task Ledger.empty :=
    .done empty fun _ _ => staged_empty drained
  have along : Task.Along Ledger.note Prompt Ledger.Sound InStep y.task (ledger chs) := by
    refine run.along (fun _ _ => rfl) (fun _ _ _ => rfl) ?_ ?_ .refl first
    · exact fun c a w w' replied => host_prompt replied
    · exact fun u e a t l before idle started => starts_along init before idle started
  exact along.now

/-! ## What a receiver takes from a datagram -/

/-- No call fails before the records of a datagram are updated, and none of their locks does. -/
structure Receiver.McastInput.Served (inp : McastInput) : Prop where
  clock : ∃ now, inp.clock = .ok now
  source : inp.sameSource = true
  stats : inp.lockRecvStats = .ok ()
  latency : inp.latencyOnSample = .ok ()
  locks : ∀ id, inp.lock id = .ok ()

theorem Applied.updates_eq {seq : Int} {recs : List (Int × Value g)} {r r' : Receiver g}
    (h : Applied seq recs r r') :
    updates r'.acts = updates r.acts ++ recs.map fun rec => (seq, rec.1, rec.2) := by
  induction h with
  | nil r => simp
  | cons first _ ih => rw [ih, first.ups, List.append_assoc, List.map_cons, List.singleton_append]

namespace Encodes

variable {data : List UInt8} {recs : List (Int × Value g)}

theorem long (h : Encodes data recs) : 16 ≤ data.length := by
  cases h with
  | data _ _ len _ _ =>
    rw [length_datagram len]
    omega
  | beat _ _ len =>
    rw [length_datagram len]
    omega

theorem seqOf_data {seq : Int} {stamp : List UInt8} (low : 1 ≤ seq) (high : seq < sequenceMax) :
    seqOf (datagram seq stamp recs) = seq := by
  unfold sequenceMax at high
  have read : seqOf (datagram seq stamp recs ++ []) = seq :=
    seqOf_datagram ⟨by omega, by omega⟩ stamp recs []
  rwa [List.append_nil] at read

theorem seqOf_beat {seq : Int} {stamp : List UInt8} (low : 1 ≤ seq) (high : seq < sequenceMax) :
    seqOf (datagram (g := g) (-seq) stamp []) = -seq := by
  unfold sequenceMax at high
  have read : seqOf (datagram (g := g) (-seq) stamp [] ++ []) = -seq :=
    seqOf_datagram ⟨by omega, by omega⟩ stamp [] []
  rwa [List.append_nil] at read

/-- Data is taken record by record, unless it is late. -/
theorem packet_updates (h : Encodes data recs) (r : Receiver g) (inp : McastInput) (now : Int)
    (locks : ∀ id, inp.lock id = .ok ()) (next : r.nextSeq ≤ seqOf data) :
    updates (r.mcastOnPacket inp data now).2.acts =
      updates r.acts ++ recs.map fun rec => (seqOf data, rec.1, rec.2) := by
  cases h with
  | @data seq stamp _ low high len nonempty known =>
    have read : seqOf (datagram seq stamp recs) = seq := seqOf_data low high
    rw [read] at next ⊢
    rcases Receiver.mcastOnPacket_data r inp now (by omega) (le_of_lt high) len known with
      ⟨late, _⟩ | ⟨_, done, r₁, _, applied, _, _, ⟨_, _, ⟨id, e, held⟩, _⟩ | ⟨rfl, eq⟩⟩
    · omega
    · rw [locks id] at held
      cases held
    · obtain ⟨st, r', advanced, quiet, _⟩ :=
        Receiver.advance_quiet { r₁ with acts := r₁.acts ++ [.applied seq] } inp seq false
      rw [eq, advanced]
      dsimp only
      rw [quiet.ups, updates_append, applied.updates_eq, List.append_assoc]
      simp [updates]
  | @beat seq stamp low high len =>
    obtain ⟨st, r', advanced, quiet, _⟩ := Receiver.advance_quiet r inp seq true
    rw [Receiver.mcastOnPacket_beat r inp now (by omega) (le_of_lt high), advanced]
    simpa using quiet.ups

/-- A heartbeat updates nothing, whatever fails. -/
theorem beat_quiet (h : Encodes data recs) (r : Receiver g) (inp : McastInput) (now : Int)
    (beat : seqOf data < 0) : updates (r.mcastOnPacket inp data now).2.acts = updates r.acts := by
  cases h with
  | data low high _ _ _ =>
    rw [seqOf_data low high] at beat
    omega
  | @beat seq stamp low high len =>
    obtain ⟨st, r', advanced, quiet, _⟩ := Receiver.advance_quiet r inp seq true
    rw [Receiver.mcastOnPacket_beat r inp now (by omega) (le_of_lt high), advanced]
    exact quiet.ups

end Encodes

/-- The updates of a datagram are those of its packet, if nothing fails before. -/
theorem Receiver.mcastOnRead_acts (r : Receiver g) (inp : McastInput) {data : List UInt8}
    (given : inp.dgram = .ok data) (long : 16 ≤ data.length) :
    (¬ inp.Served ∧ (r.mcastOnRead inp).2.acts = r.acts) ∨
    ∃ (now : Int) (r₁ : Receiver g), r₁.acts = r.acts ∧ r₁.nextSeq = r.nextSeq ∧
      r.mcastOnRead inp = r₁.mcastOnPacket inp data now := by
  have nonempty : data ≠ [] := List.ne_nil_of_length_pos (by omega)
  unfold mcastOnRead
  rw [given, sockRecvfrom_nonempty nonempty]
  cases clock : inp.clock with
  | error e =>
    refine Or.inl ⟨fun served => ?_, rfl⟩
    obtain ⟨now, ok⟩ := served.clock
    rw [clock] at ok
    cases ok
  | ok now =>
    dsimp only
    rw [if_neg (by omega)]
    by_cases source : inp.sameSource = false
    · rw [if_pos source]
      refine Or.inl ⟨fun served => ?_, rfl⟩
      rw [served.source] at source
      cases source
    · rw [if_neg source, updateStats]
      cases stats : inp.lockRecvStats with
      | error e =>
        dsimp only
        rw [if_pos e.2]
        refine Or.inl ⟨fun served => ?_, rfl⟩
        have ok := served.stats
        rw [stats] at ok
        cases ok
      | ok _ =>
        dsimp only
        cases latency : inp.latencyOnSample with
        | error e =>
          dsimp only
          rw [if_pos e.2]
          refine Or.inl ⟨fun served => ?_, rfl⟩
          have ok := served.latency
          rw [latency] at ok
          cases ok
        | ok _ =>
          dsimp only
          rw [if_neg (by decide)]
          exact Or.inr ⟨now, { r with
            mcastRecvTime := now, mcastBytesRecv := r.mcastBytesRecv + data.length }, rfl, rfl, rfl⟩

/-- In every run of a sender whose packet size has passed the check of `init`, whatever was staged
into a datagram is what a receiver takes from its bytes: the same records in the same order, each
under the sequence of the datagram. A heartbeat has nothing staged into it, and nothing is taken
from it. -/
theorem packet_codec {ifaceMtu mtu : Nat} {buf : List UInt8} {ignoreOverrun : Bool}
    {heartbeatUsec maxPktAgeUsec now : Int} {store : Storage g} {peers : Nat → Peer g}
    (created : initMtu g ifaceMtu = .ok mtu) (len : buf.length = mtu)
    {chs : List (Choice (openEnv g).host)} {y : Conf (openEnv g).host}
    (run : (openEnv g).host.Path (fun _ _ _ => True) ((openEnv g).idleConf
      (Sender.init mtu buf ignoreOverrun heartbeatUsec maxPktAgeUsec now)
      (World.start store peers)) chs y)
    {data : List UInt8} {pairs : List (Int × Value g)} (sent : (data, pairs) ∈ (ledger chs).sent)
    (r : Receiver g) (inp : McastInput) (given : inp.dgram = .ok data) :
    (0 ≤ seqOf data → pairs ≠ [] ∧ (r.nextSeq ≤ seqOf data → inp.Served →
      updates (r.mcastOnRead inp).2.acts =
        updates r.acts ++ pairs.map fun pair => (seqOf data, pair.1, pair.2))) ∧
    (seqOf data < 0 → pairs = [] ∧ updates (r.mcastOnRead inp).2.acts = updates r.acts) := by
  obtain ⟨roomy, small⟩ := initMtu_ok created
  have sound := ledger_sound (streamInv_empty roomy small len) rfl run
  have encodes : Encodes data pairs := sound _ sent
  have outcome := r.mcastOnRead_acts inp given encodes.long
  constructor
  · intro nonneg
    refine ⟨?_, fun next served => ?_⟩
    · cases encodes with
      | data _ _ _ nonempty _ => exact nonempty
      | beat low high _ =>
        rw [Encodes.seqOf_beat low high] at nonneg
        omega
    · rcases outcome with ⟨unserved, _⟩ | ⟨time, r₁, acts, seq, eq⟩
      · exact absurd served unserved
      · rw [eq, encodes.packet_updates r₁ inp time served.locks (by rw [seq]; exact next), acts]
  · intro beat
    refine ⟨?_, ?_⟩
    · cases encodes with
      | data low high _ _ _ =>
        rw [Encodes.seqOf_data low high] at beat
        omega
      | beat _ _ _ => rfl
    · rcases outcome with ⟨_, acts⟩ | ⟨time, r₁, acts, _, eq⟩
      · rw [acts]
      · rw [eq, encodes.beat_quiet r₁ inp time beat, acts]

theorem packet_codec_small :
    let data := datagram 1 (netLong 100) [((0 : Int), smallValue 7)]
    (data, [((0 : Int), smallValue 7)]) ∈ (ledger stageAndSend).sent ∧
    updates (smallReceiver.mcastOnRead (.ofDatagram data 0)).2.acts = [(1, 0, smallValue 7)] := by
  intro data
  have ends : ((openEnv small).host.run stageAndSend ((openEnv small).idleConf smallSender
      (World.init smallStore))).isSome = true := by decide +kernel
  obtain ⟨y, run⟩ := Option.isSome_iff_exists.mp ends
  have sent : (data, [((0 : Int), smallValue 7)]) ∈ (ledger stageAndSend).sent := by decide +kernel
  have read : seqOf data = 1 := by decide +kernel
  have codec := (packet_codec (by rfl : initMtu small 53 = .ok 25) (by rfl) (.of_run run) sent
    smallReceiver (.ofDatagram data 0) rfl).1
  rw [read] at codec
  refine ⟨sent, (codec (by decide)).2 (by decide) ?_⟩
  exact ⟨⟨0, rfl⟩, rfl, rfl, rfl, fun _ => rfl⟩

end Lancaster
