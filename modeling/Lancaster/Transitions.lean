import Lancaster.World

/-!
# What a step of the sender can do

The handlers are cut into transitions between phases. A phase names what the code
holds in local variables: the queue position it looks at, the record it is about to
stage, the client it is telling to quit. `Answer` lists what the answer of a call can
change, `Silent` what happens without one.

A predicate that all of these keep holds throughout every run (`Kept.reaches`). The
code of the handlers is looked at here and nowhere else.
-/

namespace Lancaster

open Bytes Interleaving Sender

variable {g : Geometry}

inductive Phase where
  | rest
  | beat
  | scan (q e : Nat)
  | look (q e : Nat) (id : Int)
  | want (q e : Nat) (id : Int)
  | flush (q e : Nat) (id : Int)
  | flushed (q e : Nat) (id : Int)
  | fill (q e : Nat) (id : Int) (sent : Bool)
  | staged (q e : Nat) (sent : Bool)
  | failing (q e : Nat)
  | accepting (c : Nat)
  | joined (c : Nat)
  | first
  | quitting
  | telling (c : Nat)
  | dead
  deriving DecidableEq

namespace Phase

/-- Where a failure leads: the queue loop still has its position to store. -/
def onFail : Phase → Phase
  | .scan q e => .failing q e
  | .look q e _ => .failing q e
  | .want q e _ => .failing q e
  | .flush q e _ => .failing q e
  | .flushed q e _ => .failing q e
  | .fill q e _ _ => .failing q e
  | .staged q e _ => .failing q e
  | .failing q e => .failing q e
  | _ => .dead

/-- The phases that send the packet, and where a sent packet leads. -/
inductive Sends : Phase → Phase → Prop where
  | aged : Sends .rest .rest
  | beat : Sends .beat .rest
  | flush (q e : Nat) (id : Int) : Sends (.flush q e id) (.flushed q e id)

def Writes (ph : Phase) (c : Nat) : Prop := ph = .rest ∨ ph = .telling c

theorem Sends.onFail_eq {ph ph' : Phase} (h : Sends ph ph') : ph'.onFail = ph.onFail := by
  cases h <;> rfl

end Phase

/-- The client after a whole range has been read and merged. -/
def TcpClient.merged (clnt : TcpClient) : TcpClient :=
  { clnt with
    inBuf := stLong (stLong clnt.inBuf 0 clnt.inRange.low) 8 clnt.inRange.high
    unionRange := clnt.unionRange.hull clnt.inRange
    inNext := 0
    inRemain := 16 }

def TcpClient.fed (clnt : TcpClient) (data : List UInt8) : TcpClient :=
  { clnt with
    inBuf := poke clnt.inBuf clnt.inNext data
    inNext := clnt.inNext + data.length
    inRemain := clnt.inRemain - data.length }

/-- Changes made without the answer of a call. -/
inductive Silent : Phase → Sender g → Phase → Sender g → Prop where
  | tally {ph s} (active sendTime : Int) (stats : SenderStats) :
      Silent ph s ph { s with
        lastActiveTime := active, mcastSendTime := sendTime, nextStats := stats }
  | fail {ph s} : Silent ph s ph.onFail s
  | settle {q e s} : Silent (.failing q e) s .dead { s with lastQIdx := q }
  | drained {q s} : Silent (.scan q q) s .rest { s with lastQIdx := q }
  | blocked {q e id s} : Silent (.flush q e id) s .rest { s with lastQIdx := q }
  | broke {q e s} : Silent (.staged q e true) s .rest { s with lastQIdx := q }
  | goOn {q e s} : Silent (.staged q e false) s (.scan (q + 1) e) s
  | beat {s} (empty : s.pktNext = 0) : Silent .rest s .beat { s with
      pktBuf := stLong s.pktBuf 0 (htonll (-s.nextSeq)), pktNext := s.pktNext + 16 }
  | full {q e id s} (tight : sizeSub s.mcastMtu s.pktNext < 8 + g.valSize) :
      Silent (.want q e id) s (.flush q e id) s
  | room {q e id s} (wide : ¬ sizeSub s.mcastMtu s.pktNext < 8 + g.valSize) :
      Silent (.want q e id) s (.fill q e id false) (s.stageId id s.pktNext)
  | reopen {q e id s} : Silent (.flushed q e id) s (.fill q e id true) (s.stageId id 0)
  | aged {q e sent s} (now : Int) :
      Silent (.staged q e sent) s (.staged q e sent) { s with mcastInsertTime := now }
  | join {c s} (inBuf outBuf : List UInt8) (now : Int) (inLen : inBuf.length = 16)
      (outLen : outBuf.length = pktSize g) :
      Silent (.accepting c) s (.joined c) (s.setClient c (newClient inBuf outBuf now))
  | count {c s} (more : s.clientCount + 1 ≠ 1) :
      Silent (.joined c) s .rest { s with clientCount := s.clientCount + 1 }
  | countFirst {c s} (one : s.clientCount + 1 = 1) :
      Silent (.joined c) s .first { s with clientCount := s.clientCount + 1 }
  | drop {s} (c : Nat) : Silent .rest s .rest (s.dropClient c)
  | uncount {s} : Silent .rest s .rest { s with clientCount := s.clientCount - 1 }
  | sendTime {ph s c clnt} (now : Int) (writing : ph.Writes c) (here : s.clients c = some clnt) :
      Silent ph s ph (s.setClient c { clnt with tcpSendTime := now })
  | merge {s c clnt} (here : s.clients c = some clnt) (whole : clnt.inRemain = 0)
      (valid : clnt.inRange.IsValid) :
      Silent .rest s .rest (s.setClient c clnt.merged)
  | forget {s c clnt} (here : s.clients c = some clnt) (whole : clnt.inNext = 0)
      (old : clnt.unionRange.high ≤ s.minSeq) :
      Silent .rest s .rest (s.setClient c { clnt with unionRange := .invalid })
  | promote {s c clnt} (here : s.clients c = some clnt) (whole : clnt.inNext = 0)
      (new : ¬ clnt.unionRange.high ≤ s.minSeq) (free : ¬ clnt.replyRange.IsValid) :
      Silent .rest s .rest (s.setClient c { clnt with
        replyRange := clnt.unionRange
        unionRange := .invalid
        replyId := g.baseId
        minSeqFound := sequenceMax })
  | find {s c clnt} (here : s.clients c = some clnt) (idle : clnt.outRemain = 0)
      (busy : clnt.replyRange.IsValid) (more : clnt.replyId < g.maxId) :
      Silent .rest s .rest (s.setClient c { clnt with
        minSeqFound := if s.recordSeqs (clnt.replyId - g.baseId) < clnt.minSeqFound then
          s.recordSeqs (clnt.replyId - g.baseId) else clnt.minSeqFound })
  | pass {s c clnt} (here : s.clients c = some clnt) (idle : clnt.outRemain = 0)
      (busy : clnt.replyRange.IsValid) (more : clnt.replyId < g.maxId)
      (found : clnt.minSeqFound ≤ s.recordSeqs (clnt.replyId - g.baseId))
      (outside : ¬ clnt.replyRange.IsWithin (s.recordSeqs (clnt.replyId - g.baseId))) :
      Silent .rest s .rest (s.setClient c { clnt with replyId := clnt.replyId + 1 })
  | finish {s c clnt} (here : s.clients c = some clnt) (idle : clnt.outRemain = 0)
      (busy : clnt.replyRange.IsValid) (past : g.maxId ≤ clnt.replyId) :
      Silent .rest s .rest ({ s with minSeq := clnt.minSeqFound }.setClient c
        { clnt with replyRange := .invalid })
  | heartbeat {s c clnt} (here : s.clients c = some clnt) (idle : clnt.outRemain = 0)
      (free : ¬ clnt.replyRange.IsValid) :
      Silent .rest s .rest (s.setClient c { clnt with
        outBuf := stLong clnt.outBuf 0 (htonll heartbeatSeq), outNext := 0, outRemain := 8 })
  | tell {s c clnt} (here : s.clients c = some clnt) :
      Silent .quitting s (.telling c) (s.setClient c { clnt with
        outBuf := stLong clnt.outBuf 0 (htonll willQuitSeq), outNext := 0, outRemain := 8 })
  | told {s c clnt} (here : s.clients c = some clnt) (done : clnt.outRemain = 0) :
      Silent (.telling c) s .quitting s

/-- Only staging changes what the sender remembers of a record. -/
theorem Silent.sameRevs {ph ph' : Phase} {s s' : Sender g} (step : Silent ph s ph' s') :
    s'.recordRevs = s.recordRevs ∧ s'.lastStaged = s.lastStaged := by
  cases step with
  | room | reopen =>
    simp only [stageId]
    split <;> exact ⟨rfl, rfl⟩
  | _ => exact ⟨rfl, rfl⟩

def frameBuf (clnt : TcpClient) (seq : Int) (r : Record g) : List UInt8 :=
  stLong (stLong (poke clnt.outBuf 16 r.val.toList) 0 (htonll seq)) 8 (htonll clnt.replyId)

/-- Changes that come with the answer of a call made by the handler of an event. -/
inductive Answer (E : Env g) :
    Event → Call → Phase → Sender g → World g → Phase → Sender g → World g → Prop where
  | idle {s w} (small : w.store.qHead ≤ s.lastQIdx) :
      Answer E .mcast .storageGetQueueHead .rest s w .rest { s with lastQIdx := w.store.qHead } w
  | opens {s w} (more : s.lastQIdx < w.store.qHead)
      (fits : w.store.qHead ≤ s.lastQIdx + g.qCapacity) :
      Answer E .mcast .storageGetQueueHead .rest s w (.scan s.lastQIdx w.store.qHead) s w
  | overrun {s w q} (past : s.lastQIdx + g.qCapacity < w.store.qHead) (ignored : s.ignoreOverrun)
      (jump : q = w.store.qHead - s.lastQIdx - g.qCapacity) :
      Answer E .mcast .storageGetQueueHead .rest s w (.scan q w.store.qHead) { s with lastQIdx := q } w
  | readQueue {q e s w} (id : Int) (before : q < e) (queue : 0 < g.qCapacity)
      (read : id = w.store.changeQ (Storage.slot g.qCapacity q)) :
      Answer E .mcast (.storageReadQueue q) (.scan q e) s w (.look q e id) s w
  | skip {q e id s w} (known : g.Holds id) (free : 0 ≤ (w.store.record id).rev)
      (same : (w.store.record id).rev = s.recordRevs (id - g.baseId)) :
      Answer E .mcast (.recordReadLock id) (.look q e id) s w (.scan (q + 1) e) s w
  | changed {q e id s w} (known : g.Holds id) (free : 0 ≤ (w.store.record id).rev)
      (differs : (w.store.record id).rev ≠ s.recordRevs (id - g.baseId)) :
      Answer E .mcast (.recordReadLock id) (.look q e id) s w (.want q e id) s w
  | stamp {ph ph' s w} (now : Int) (sends : ph.Sends ph')
      (due : ph = .rest → s.pktNext ≠ 0 ∨ s.mcastInsertTime ≠ 0) :
      Answer E .mcast .clockTime ph s w ph { s with pktBuf := stLong s.pktBuf 8 (htonll now) } w
  | send {ph ph' s w} (sends : ph.Sends ph')
      (due : ph = .rest → s.pktNext ≠ 0 ∨ s.mcastInsertTime ≠ 0)
      (below : 0 ≤ ntohll (ldLong s.pktBuf 0) → s.nextSeq + 1 ≠ sequenceMax) :
      Answer E .mcast (.sockSendto s.packet) ph s w ph' { s with
        nextSeq := if 0 ≤ ntohll (ldLong s.pktBuf 0) then s.nextSeq + 1 else s.nextSeq
        pktNext := 0
        mcastInsertTime := 0 } { w with wire := w.wire ++ [s.packet] }
  | overflow {ph ph' s w} (sends : ph.Sends ph')
      (due : ph = .rest → s.pktNext ≠ 0 ∨ s.mcastInsertTime ≠ 0)
      (data : 0 ≤ ntohll (ldLong s.pktBuf 0)) (limit : s.nextSeq + 1 = sequenceMax) :
      Answer E .mcast (.sockSendto s.packet) ph s w ph.onFail { s with nextSeq := s.nextSeq + 1 }
        { w with wire := w.wire ++ [s.packet] }
  | copy {q e id sent s w} (known : g.Holds id) (free : 0 ≤ (w.store.record id).rev) :
      Answer E .mcast (.recordCopy id) (.fill q e id sent) s w (.staged q e sent)
        (s.stageValue id (w.store.record id)) w
  | accept {c inBuf outBuf s w} (new : w.accepted c = false)
      (admitted : E.admits (.lib (.sockAccept c)) (.ok ()) w) :
      Answer E (.accept c inBuf outBuf) (.lib (.sockAccept c)) .rest s w (.accepting c) s
        { w with accepted := fun i => if i = c then true else w.accepted i }
  | jump {c inBuf outBuf s w} :
      Answer E (.accept c inBuf outBuf) .storageGetQueueHead .first s w .rest
        { s with lastQIdx := w.store.qHead } w
  | read {e s w c clnt} (data : List UInt8) (here : s.clients c = some clnt)
      (nonempty : 0 < data.length) (fits : data.length < clnt.inRemain)
      (admitted : E.admits (.sockRead c clnt.inRemain) (.ok data) w) :
      Answer E e (.sockRead c clnt.inRemain) .rest s w .rest (s.setClient c (clnt.fed data)) (w.read c data)
  | readLast {e s w c clnt} (data : List UInt8) (here : s.clients c = some clnt)
      (nonempty : 0 < data.length) (full : data.length = clnt.inRemain)
      (valid : (clnt.fed data).inRange.IsValid)
      (admitted : E.admits (.sockRead c clnt.inRemain) (.ok data) w) :
      Answer E e (.sockRead c clnt.inRemain) .rest s w .rest (s.setClient c (clnt.fed data).merged)
        (w.read c data)
  | readBad {e s w c clnt} (data : List UInt8) (here : s.clients c = some clnt)
      (nonempty : 0 < data.length) (full : data.length = clnt.inRemain)
      (bad : ¬ (clnt.fed data).inRange.IsValid)
      (admitted : E.admits (.sockRead c clnt.inRemain) (.ok data) w) :
      Answer E e (.sockRead c clnt.inRemain) .rest s w .rest (s.dropClient c) (w.read c data)
  | write {e ph s w c clnt} (count : Nat) (writing : ph.Writes c) (here : s.clients c = some clnt)
      (positive : 0 < count) (fits : count ≤ clnt.pending.length) :
      Answer E e (.sockWrite c clnt.pending) ph s w ph (s.setClient c { clnt with
        outNext := clnt.outNext + count
        outRemain := clnt.outRemain - count })
        { w with sent := fun i => if i = c then w.sent i ++ clnt.pending.take count else w.sent i }
  | reply {e s w c clnt} (here : s.clients c = some clnt) (idle : clnt.outRemain = 0)
      (busy : clnt.replyRange.IsValid) (known : g.Holds clnt.replyId)
      (found : clnt.minSeqFound ≤ s.recordSeqs (clnt.replyId - g.baseId))
      (within : clnt.replyRange.IsWithin (s.recordSeqs (clnt.replyId - g.baseId)))
      (used : 0 < (w.store.record clnt.replyId).rev) :
      Answer E e (.recordCopy clnt.replyId) .rest s w .rest (s.setClient c { clnt with
        outBuf := frameBuf clnt (s.recordSeqs (clnt.replyId - g.baseId))
          (w.store.record clnt.replyId)
        outNext := 0
        outRemain := pktSize g
        replyId := clnt.replyId + 1 }) w
  | unused {e s w c clnt} (here : s.clients c = some clnt) (idle : clnt.outRemain = 0)
      (busy : clnt.replyRange.IsValid) (known : g.Holds clnt.replyId)
      (found : clnt.minSeqFound ≤ s.recordSeqs (clnt.replyId - g.baseId))
      (zero : (w.store.record clnt.replyId).rev = 0) :
      Answer E e (.recordCopy clnt.replyId) .rest s w .rest
        (s.setClient c { clnt with replyId := clnt.replyId + 1 }) w

theorem World.failed_eq {st : Failure} {w w' : World g} (h : World.failed st w = some w') :
    st.val ≠ Status.blocked ∧ w' = w := by
  unfold World.failed at h
  split at h
  · cases h
  · rename_i hst
    exact ⟨hst, (Option.some.inj h).symm⟩

/-- Only sending a datagram touches the wire. -/
theorem reply_wire {E : Env g} {c : Call} {a : c.Ans g} {w w' : World g}
    (h : E.host.reply c a w = some w') :
    w'.wire = w.wire ∨ ∃ data, c = .sockSendto data ∧ w'.wire = w.wire ++ [data] := by
  simp only [Env.host] at h
  split at h
  · unfold World.reply at h
    split at h
    case h_8 data _ _ =>
      obtain rfl := Option.some.inj h
      exact Or.inr ⟨data, rfl, rfl⟩
    all_goals
      left
      grind [World.failed, World.read]
  · cases h

/-- No answer touches the records, the queue or the receivers. -/
theorem reply_same {E : Env g} {c : Call} {a : c.Ans g} {w w' : World g}
    (h : E.host.reply c a w = some w') :
    w'.store = w.store ∧ w'.log = w.log ∧ w'.peers = w.peers := by
  simp only [Env.host] at h
  split at h
  · unfold World.reply at h
    split at h <;> grind [World.failed, World.read]
  · cases h

/-- No answer touches the writer. -/
theorem reply_writer {E : Env g} {c : Call} {a : c.Ans g} {w w' : World g}
    (h : E.host.reply c a w = some w') : w'.writer = w.writer := by
  simp only [Env.host] at h
  split at h
  · unfold World.reply at h
    split at h <;> grind [World.failed, World.read]
  · cases h

/-- A predicate that the others and every transition keep, as long as the shown
states satisfy the assumption. `Begins` is what is known of a handler's start. -/
structure Kept (E : Env g) (As : Option (Event × Call) → Sender g → World g → Prop)
    (Mv : E.Move → Sender g → World g → Prop) (Begins : Event → Sender g → World g → Prop)
    (Inv : Phase → Sender g → World g → Prop) : Prop where
  moved : ∀ {e ph s w m w'}, Inv ph s w → As e s w → Mv m s w → E.move m w = some w' → Inv ph s w'
  silent : ∀ {ph s ph' s' w}, Inv ph s w → Silent ph s ph' s' → Inv ph' s' w
  answered : ∀ {e c ph s w ph' s' w'}, Inv ph s w → As (some (e, c)) s w →
    Answer E e c ph s w ph' s' w' → Inv ph' s' w'
  quits : ∀ {ph s w order rounds}, Inv ph s w → As none s w → Begins (.quit order rounds) s w →
    E.allows (.quit order rounds) s w → Inv .quitting s w

def SendsPacket (ph : Phase) (s : Sender g) (data : List UInt8) : Prop :=
  data = s.packet ∧ (∃ ph', ph.Sends ph') ∧
    (ph = .rest → s.pktNext ≠ 0 ∨ s.mcastInsertTime ≠ 0)

def Shown (Inv : Phase → Sender g → World g → Prop) (s : Sender g) (c : Call) (w : World g) :
    Prop :=
  ∃ ph, Inv ph s w ∧ ∀ data, c = .sockSendto data → SendsPacket ph s data

namespace Kept

variable {E : Env g} {As : Option (Event × Call) → Sender g → World g → Prop}
  {Mv : E.Move → Sender g → World g → Prop} {Begins : Event → Sender g → World g → Prop}
  {Inv : Phase → Sender g → World g → Prop} (K : Kept E As Mv Begins Inv) {e : Event} {β : Type}
  {Q : β → World g → Prop}

include K

/-- A call, in a phase that the others keep. -/
theorem call {ph : Phase} {s : Sender g} {c : Call} {k : c.Ans g → SenderTask g β} {w : World g}
    (now : Inv ph s w) (sends : ∀ data, c = .sockSendto data → SendsPacket ph s data)
    (answer : ∀ w a w', Inv ph s w → As (some (e, c)) s w → E.admits c a w →
      World.reply c a w = some w' → Safe E.host (During As e) Mv (Shown Inv) Q (k a) w') :
    Safe E.host (During As e) Mv (Shown Inv) Q (.call s c k) w := by
  refine Safe.call (Inv ph s) now ?_ (fun w m w' h ha hmv hm => K.moved h ha hmv hm) ?_
  · intro w h _
    exact ⟨ph, h, sends⟩
  · intro w a w' h ha hr
    simp only [Env.host] at hr
    split at hr
    · rename_i ok
      exact answer w a w' h ha ok hr
    · cases hr

/-- Reading the clock. -/
theorem clock {ph : Phase} {s : Sender g} {k : Call.Ans g .clockTime → SenderTask g β}
    {w : World g} (now : Inv ph s w)
    (failed : ∀ w (st : Failure), Inv ph s w → st.val ≠ Status.blocked →
      Safe E.host (During As e) Mv (Shown Inv) Q (k (.error st)) w)
    (ok : ∀ w time, Inv ph s w → As (some (e, .clockTime)) s w →
      Safe E.host (During As e) Mv (Shown Inv) Q (k (.ok time)) w) :
    Safe E.host (During As e) Mv (Shown Inv) Q (.call s .clockTime k) w := by
  refine K.call now nofun ?_
  rintro w (st | time) w' h ha _ hr
  · obtain ⟨hst, rfl⟩ := World.failed_eq hr
    exact failed _ st h hst
  · obtain rfl := Option.some.inj hr
    exact ok _ time h ha

/-- Taking the lock of the statistics. -/
theorem lock {ph : Phase} {s : Sender g} {k : Call.Ans g .lockStats → SenderTask g β}
    {w : World g} (now : Inv ph s w)
    (failed : ∀ w (st : Failure), Inv ph s w → st.val ≠ Status.blocked →
      Safe E.host (During As e) Mv (Shown Inv) Q (k (.error st)) w)
    (ok : ∀ w, Inv ph s w → Safe E.host (During As e) Mv (Shown Inv) Q (k (.ok ())) w) :
    Safe E.host (During As e) Mv (Shown Inv) Q (.call s .lockStats k) w := by
  refine K.call now nofun ?_
  rintro w (st | _) w' h _ _ hr
  · obtain ⟨hst, rfl⟩ := World.failed_eq hr
    exact failed _ st h hst
  · obtain rfl := Option.some.inj hr
    exact ok _ h

theorem sample {ph : Phase} {s : Sender g} {delay : Int}
    {k : Call.Ans g (.latencyOnSample delay) → SenderTask g β} {w : World g} (now : Inv ph s w)
    (failed : ∀ w (st : Failure), Inv ph s w → st.val ≠ Status.blocked →
      Safe E.host (During As e) Mv (Shown Inv) Q (k (.error st)) w)
    (ok : ∀ w, Inv ph s w → Safe E.host (During As e) Mv (Shown Inv) Q (k (.ok ())) w) :
    Safe E.host (During As e) Mv (Shown Inv) Q (.call s (.latencyOnSample delay) k) w := by
  refine K.call now nofun ?_
  rintro w (st | _) w' h _ _ hr
  · obtain ⟨hst, rfl⟩ := World.failed_eq hr
    exact failed _ st h hst
  · obtain rfl := Option.some.inj hr
    exact ok _ h

theorem sendto {ph : Phase} {s : Sender g} {data : List UInt8}
    {k : Call.Ans g (.sockSendto data) → SenderTask g β} {w : World g}
    (now : Inv ph s w) (sends : SendsPacket ph s data)
    (failed : ∀ w st, Inv ph s w →
      Safe E.host (During As e) Mv (Shown Inv) Q (k (.error st)) w)
    (ok : ∀ w count, Inv ph s w → As (some (e, .sockSendto data)) s w →
      Safe E.host (During As e) Mv (Shown Inv) Q (k (.ok count)) { w with wire := w.wire ++ [data] }) :
    Safe E.host (During As e) Mv (Shown Inv) Q (.call s (.sockSendto data) k) w := by
  refine K.call now ?_ ?_
  · rintro data hc
    cases hc
    exact sends
  rintro w (st | count) w' h ha _ hr
  · obtain rfl := Option.some.inj hr
    exact failed _ st h
  · obtain rfl := Option.some.inj hr
    exact ok _ count h ha

theorem queueHead {ph : Phase} {s : Sender g}
    {k : Call.Ans g .storageGetQueueHead → SenderTask g β} {w : World g} (now : Inv ph s w)
    (ok : ∀ w, Inv ph s w → As (some (e, .storageGetQueueHead)) s w →
      Safe E.host (During As e) Mv (Shown Inv) Q (k w.store.qHead) w) :
    Safe E.host (During As e) Mv (Shown Inv) Q (.call s .storageGetQueueHead k) w := by
  refine K.call now nofun ?_
  intro w head w' h ha _ hr
  simp only [World.reply] at hr
  split at hr
  · rename_i hh
    obtain rfl := Option.some.inj hr
    subst hh
    exact ok _ h ha
  · cases hr

theorem readQueue {ph : Phase} {s : Sender g} {q : Nat}
    {k : Call.Ans g (.storageReadQueue q) → SenderTask g β} {w : World g} (now : Inv ph s w)
    (failed : ∀ w (st : Failure), Inv ph s w → st.val ≠ Status.blocked →
      Safe E.host (During As e) Mv (Shown Inv) Q (k (.error st)) w)
    (ok : ∀ w, Inv ph s w → As (some (e, .storageReadQueue q)) s w → 0 < g.qCapacity →
      Safe E.host (During As e) Mv (Shown Inv) Q
        (k (.ok (w.store.changeQ (Storage.slot g.qCapacity q)))) w) :
    Safe E.host (During As e) Mv (Shown Inv) Q (.call s (.storageReadQueue q) k) w := by
  refine K.call now nofun ?_
  rintro w (st | id) w' h ha _ hr <;> simp only [World.reply, Storage.storageReadQueue] at hr
  · by_cases hcap : g.qCapacity = 0
    · simp only [hcap, ↓reduceIte] at hr
      split at hr
      · rename_i hst
        obtain rfl := Option.some.inj hr
        exact failed _ st h (by subst hst; decide)
      · cases hr
    · simp [hcap] at hr
  · by_cases hcap : g.qCapacity = 0
    · simp [hcap] at hr
    · simp only [hcap, ↓reduceIte] at hr
      split at hr
      · rename_i hid
        obtain rfl := Option.some.inj hr
        subst hid
        exact ok _ h ha (by omega)
      · cases hr

theorem readLock {ph : Phase} {s : Sender g} {id : Int}
    {k : Call.Ans g (.recordReadLock id) → SenderTask g β} {w : World g} (now : Inv ph s w)
    (failed : ∀ w (st : Failure), Inv ph s w → st.val ≠ Status.blocked →
      Safe E.host (During As e) Mv (Shown Inv) Q (k (.error st)) w)
    (ok : ∀ w, Inv ph s w → As (some (e, .recordReadLock id)) s w → 0 ≤ (w.store.record id).rev →
      Safe E.host (During As e) Mv (Shown Inv) Q (k (.ok (w.store.record id).rev)) w) :
    Safe E.host (During As e) Mv (Shown Inv) Q (.call s (.recordReadLock id) k) w := by
  refine K.call now nofun ?_
  rintro w (st | rev) w' h ha _ hr
  · obtain ⟨hst, rfl⟩ := World.failed_eq hr
    exact failed _ st h hst
  · simp only [World.reply] at hr
    split at hr
    · rename_i hrev
      obtain ⟨hpos, rfl⟩ := hrev
      obtain rfl := Option.some.inj hr
      exact ok _ h ha hpos
    · cases hr

theorem copy {ph : Phase} {s : Sender g} {id : Int}
    {k : Call.Ans g (.recordCopy id) → SenderTask g β} {w : World g} (now : Inv ph s w)
    (failed : ∀ w (st : Failure), Inv ph s w → st.val ≠ Status.blocked →
      Safe E.host (During As e) Mv (Shown Inv) Q (k (.error st)) w)
    (ok : ∀ w, Inv ph s w → As (some (e, .recordCopy id)) s w → 0 ≤ (w.store.record id).rev →
      Safe E.host (During As e) Mv (Shown Inv) Q (k (.ok (w.store.record id))) w) :
    Safe E.host (During As e) Mv (Shown Inv) Q (.call s (.recordCopy id) k) w := by
  refine K.call now nofun ?_
  rintro w (st | r) w' h ha _ hr
  · obtain ⟨hst, rfl⟩ := World.failed_eq hr
    exact failed _ st h hst
  · simp only [World.reply] at hr
    split at hr
    · rename_i hrec
      obtain ⟨hpos, rfl⟩ := hrec
      obtain rfl := Option.some.inj hr
      exact ok _ h ha hpos
    · cases hr

theorem sockRead {ph : Phase} {s : Sender g} {c n : Nat}
    {k : Call.Ans g (.sockRead c n) → SenderTask g β} {w : World g} (now : Inv ph s w)
    (failed : ∀ w st, Inv ph s w → Safe E.host (During As e) Mv (Shown Inv) Q (k (.error st)) w)
    (ok : ∀ w data, Inv ph s w → As (some (e, .sockRead c n)) s w →
    E.admits (.sockRead c n) (.ok data) w →
      0 < data.length → data.length ≤ n → Safe E.host (During As e) Mv (Shown Inv) Q (k (.ok data))
        (w.read c data)) :
    Safe E.host (During As e) Mv (Shown Inv) Q (.call s (.sockRead c n) k) w := by
  refine K.call now nofun ?_
  rintro w (st | data) w' h ha admitted hr
  · obtain rfl := Option.some.inj hr
    exact failed _ st h
  · simp only [World.reply] at hr
    split at hr
    · rename_i hd
      obtain rfl := Option.some.inj hr
      exact ok _ data h ha admitted hd.1 hd.2
    · cases hr

theorem sockWrite {ph : Phase} {s : Sender g} {c : Nat} {data : List UInt8}
    {k : Call.Ans g (.sockWrite c data) → SenderTask g β} {w : World g} (now : Inv ph s w)
    (failed : ∀ w st, Inv ph s w → Safe E.host (During As e) Mv (Shown Inv) Q (k (.error st)) w)
    (ok : ∀ w count, Inv ph s w → As (some (e, .sockWrite c data)) s w → 0 < count →
    count ≤ data.length →
      Safe E.host (During As e) Mv (Shown Inv) Q (k (.ok count))
        { w with sent := fun i => if i = c then w.sent i ++ data.take count else w.sent i }) :
    Safe E.host (During As e) Mv (Shown Inv) Q (.call s (.sockWrite c data) k) w := by
  refine K.call now nofun ?_
  rintro w (st | count) w' h ha _ hr
  · obtain rfl := Option.some.inj hr
    exact failed _ st h
  · simp only [World.reply] at hr
    split at hr
    · rename_i hd
      obtain rfl := Option.some.inj hr
      exact ok _ count h ha hd.1 hd.2
    · cases hr

theorem lib {ph : Phase} {s : Sender g} {f : LibCall}
    {k : Call.Ans g (.lib f) → SenderTask g β} {w : World g} (now : Inv ph s w)
    (quiet : ∀ c, f ≠ .sockAccept c)
    (failed : ∀ w st, Inv ph s w → Safe E.host (During As e) Mv (Shown Inv) Q (k (.error st)) w)
    (ok : ∀ w, Inv ph s w → Safe E.host (During As e) Mv (Shown Inv) Q (k (.ok ())) w) :
    Safe E.host (During As e) Mv (Shown Inv) Q (.call s (.lib f) k) w := by
  refine K.call now nofun ?_
  rintro w (st | _) w' h _ _ hr
  · obtain rfl : w = w' := by cases f <;> exact Option.some.inj hr
    exact failed _ st h
  · obtain rfl : w = w' := by
      cases f with
      | sockAccept c => exact absurd rfl (quiet c)
      | _ => exact Option.some.inj hr
    exact ok _ h

end Kept

/-! ## The multicast handler -/

theorem not_failed_ok : ¬ Status.Failed Status.ok := by decide

theorem one_not_failed : ¬ Status.Failed 1 := by decide

theorem failed_blocked : Status.Failed Status.blocked := by decide

theorem overrun_failed : Status.Failed Status.changeQueueOverrun := by decide

theorem protocol_failed : Status.Failed Status.protocolError := by decide

theorem timeout_failed : Status.Failed Status.protocolTimeout := by decide

theorem memory_failed : Status.Failed Status.noMemory := by decide

theorem overflow_hard : Status.Failed Status.sequenceOverflow ∧
    Status.sequenceOverflow ≠ Status.blocked := by decide

theorem invalid_hard : Status.Failed Status.invalidRecord ∧
    Status.invalidRecord ≠ Status.blocked := by decide

def SendPost (Inv : Phase → Sender g → World g → Prop) (ph ph' : Phase) (r : Int × Sender g)
    (w : World g) : Prop :=
  (r.1 = Status.ok ∧ Inv ph' r.2 w) ∨ (r.1 = Status.blocked ∧ Inv ph r.2 w) ∨
  (Status.Failed r.1 ∧ r.1 ≠ Status.blocked ∧ Inv ph.onFail r.2 w)

/-- How `mcast_accum_record` ends, for the record at position `q` of the queue. -/
def AccumPost (Inv : Phase → Sender g → World g → Prop) (q e : Nat) (r : Int × Sender g)
    (w : World g) : Prop :=
  (r.1 = 0 ∧ Inv (.scan (q + 1) e) r.2 w) ∨ (r.1 = 1 ∧ Inv (.staged q e true) r.2 w) ∨
  (r.1 = Status.blocked ∧ ∃ id, Inv (.flush q e id) r.2 w) ∨
  (Status.Failed r.1 ∧ r.1 ≠ Status.blocked ∧ Inv (.failing q e) r.2 w)

def ScanPost (Inv : Phase → Sender g → World g → Prop) (r : Int × Sender g × Nat) (w : World g) :
    Prop :=
  ((¬ Status.Failed r.1 ∨ r.1 = Status.blocked) ∧ Inv .rest { r.2.1 with lastQIdx := r.2.2 } w) ∨
  (Status.Failed r.1 ∧ r.1 ≠ Status.blocked ∧ Inv .dead { r.2.1 with lastQIdx := r.2.2 } w)

def HandlerPost (Inv : Phase → Sender g → World g → Prop) (r : Int × Sender g) (w : World g) :
    Prop :=
  (¬ Status.Failed r.1 ∧ Inv .rest r.2 w) ∨ (Status.Failed r.1 ∧ Inv .dead r.2 w)

namespace Kept

variable {E : Env g} {As : Option (Event × Call) → Sender g → World g → Prop}
  {Mv : E.Move → Sender g → World g → Prop} {Begins : Event → Sender g → World g → Prop}
  {Inv : Phase → Sender g → World g → Prop} (K : Kept E As Mv Begins Inv)

include K

/-- The statistics at the end of `mcast_send_pkt`. -/
theorem lockedStats {ph ph' : Phase} {s : Sender g} {w : World g} {count : Nat}
    (now : Inv ph' s w) (sends : ph.Sends ph') :
    Safe E.host (During As .mcast) Mv (Shown Inv) (SendPost Inv ph ph') (.call s .lockStats fun
      | .error st => .done (st.val, s)
      | .ok () => .done (Status.ok, { s with nextStats := { s.nextStats with
          mcastBytesSent := s.nextStats.mcastBytesSent + count
          mcastPacketsSent := s.nextStats.mcastPacketsSent + 1 } })) w := by
  refine K.lock now ?_ ?_
  · intro w st h hst
    refine Safe.done (Or.inr (Or.inr ⟨st.2, hst, ?_⟩))
    rw [← sends.onFail_eq]
    exact K.silent h .fail
  · intro w h
    exact Safe.done (Or.inl ⟨rfl, K.silent h (.tally s.lastActiveTime s.mcastSendTime _)⟩)

theorem mcastSendPkt_safe {ph ph' : Phase} {s : Sender g} {w : World g} (sends : ph.Sends ph')
    (due : ph = .rest → s.pktNext ≠ 0 ∨ s.mcastInsertTime ≠ 0) (now : Inv ph s w) :
    Safe E.host (During As .mcast) Mv (Shown Inv) (SendPost Inv ph ph') (mcastSendPkt s) w := by
  refine K.clock now ?_ ?_
  · intro w st h hst
    exact Safe.done (Or.inr (Or.inr ⟨st.2, hst, K.silent h .fail⟩))
  intro w time h ha
  refine K.sendto (K.answered h ha (.stamp time sends due)) ⟨rfl, ⟨ph', sends⟩, due⟩ ?_ ?_
  · intro w st h
    by_cases hb : st.val = Status.blocked
    · exact Safe.done (Or.inr (Or.inl ⟨hb, h⟩))
    · exact Safe.done (Or.inr (Or.inr ⟨st.2, hb, K.silent h .fail⟩))
  intro w count h ha
  -- the sequence counts data only, and stops below its limit
  by_cases hseq : 0 ≤ ntohll (ldLong (stLong s.pktBuf 8 (htonll time)) 0)
  · by_cases hmax : s.nextSeq + 1 = sequenceMax
    · have past := K.silent (K.answered h ha (.overflow sends due hseq hmax))
        (.tally time time s.nextStats)
      simp only [hseq, hmax, and_self, ↓reduceIte]
      rw [hmax] at past
      exact Safe.done (Or.inr (Or.inr ⟨overflow_hard.1, overflow_hard.2, past⟩))
    · have sent := K.silent (K.answered h ha (.send sends due fun _ => hmax))
        (.tally time time s.nextStats)
      simp only [hseq, hmax, and_false, ↓reduceIte] at sent ⊢
      exact K.lockedStats sent sends
  · have sent := K.silent (K.answered h ha (.send sends due fun h => absurd h hseq))
      (.tally time time s.nextStats)
    simp only [hseq, false_and, ↓reduceIte] at sent ⊢
    exact K.lockedStats sent sends

theorem sendPost_handler {ph : Phase} (fails : ph.onFail = .dead) (r : Int × Sender g)
    (w : World g) (h : SendPost Inv ph .rest r w) : HandlerPost Inv r w := by
  obtain ⟨st, s⟩ := r
  rcases h with ⟨rfl, h⟩ | ⟨rfl, h⟩ | ⟨hf, _, h⟩
  · exact Or.inl ⟨not_failed_ok, h⟩
  · exact Or.inr ⟨failed_blocked, fails ▸ K.silent h .fail⟩
  · exact Or.inr ⟨hf, fails ▸ h⟩

theorem mcastStageRecord_safe {q e : Nat} {id : Int} (sent : Bool) {s : Sender g} {usedSz : Nat}
    {w : World g} (known : g.Holds id) (now : Inv (.fill q e id sent) (s.stageId id usedSz) w) :
    Safe E.host (During As .mcast) Mv (Shown Inv) (AccumPost Inv q e)
      (mcastStageRecord s id usedSz (if sent then 1 else 0)) w := by
  refine K.copy now ?_ ?_
  · intro w st h hst
    exact Safe.done (Or.inr (Or.inr (Or.inr ⟨st.2, hst, K.silent h .fail⟩)))
  intro w h ha free
  refine K.clock (K.answered h ha (.copy known free)) ?_ ?_
  · intro w st h hst
    exact Safe.done (Or.inr (Or.inr (Or.inr ⟨st.2, hst, K.silent h .fail⟩)))
  intro w time h _
  refine K.sample (K.silent h (.aged time)) ?_ ?_
  · intro w st h hst
    exact Safe.done (Or.inr (Or.inr (Or.inr ⟨st.2, hst, K.silent h .fail⟩)))
  intro w h
  cases sent
  · exact Safe.done (Or.inl ⟨rfl, K.silent h .goOn⟩)
  · exact Safe.done (Or.inr (Or.inl ⟨rfl, h⟩))

theorem mcastAccumRecord_safe {q e : Nat} {id : Int} {s : Sender g} {w : World g}
    (now : Inv (.look q e id) s w) :
    Safe E.host (During As .mcast) Mv (Shown Inv) (AccumPost Inv q e) (mcastAccumRecord s id) w := by
  unfold mcastAccumRecord
  by_cases known : g.Holds id
  · rw [if_pos known]
    refine K.readLock now ?_ ?_
    · intro w st h hst
      exact Safe.done (Or.inr (Or.inr (Or.inr ⟨st.2, hst, K.silent h .fail⟩)))
    intro w h ha free
    by_cases same : (w.store.record id).rev = s.recordRevs (id - g.baseId)
    · simp only [same, ↓reduceIte]
      exact Safe.done (Or.inl ⟨rfl, K.answered h ha (.skip known free same)⟩)
    have wanted := K.answered h ha (.changed known free same)
    simp only [same, ↓reduceIte]
    by_cases tight : sizeSub s.mcastMtu s.pktNext < 8 + g.valSize
    · rw [if_pos tight]
      refine (K.mcastSendPkt_safe (.flush q e id) nofun (K.silent wanted (.full tight))).bind ?_
      rintro ⟨st, s'⟩ w (⟨rfl, h⟩ | ⟨rfl, h⟩ | ⟨hf, hb, h⟩)
      · rw [if_neg not_failed_ok]
        exact K.mcastStageRecord_safe true known (K.silent h .reopen)
      · rw [if_pos failed_blocked]
        exact Safe.done (Or.inr (Or.inr (Or.inl ⟨rfl, id, h⟩)))
      · rw [if_pos hf]
        exact Safe.done (Or.inr (Or.inr (Or.inr ⟨hf, hb, h⟩)))
    · rw [if_neg tight]
      exact K.mcastStageRecord_safe false known (K.silent wanted (.room tight))
  · rw [if_neg known]
    exact Safe.done (Or.inr (Or.inr (Or.inr ⟨invalid_hard.1, invalid_hard.2, K.silent now .fail⟩)))

theorem mcastScanQueue_safe {n q e : Nat} {s : Sender g} {w : World g} (ends : q + n = e)
    (now : Inv (.scan q e) s w) :
    Safe E.host (During As .mcast) Mv (Shown Inv) (ScanPost Inv) (mcastScanQueue s n q) w := by
  induction n generalizing q s w with
  | zero =>
    obtain rfl : q = e := by omega
    exact Safe.done (Or.inl ⟨Or.inl not_failed_ok, K.silent now .drained⟩)
  | succ n ih =>
    refine K.readQueue now ?_ ?_
    · intro w st h hst
      exact Safe.done (Or.inr ⟨st.2, hst, K.silent (K.silent h .fail) .settle⟩)
    intro w h ha queue
    have looked := K.answered h ha (.readQueue _ (by omega) queue rfl)
    refine (K.mcastAccumRecord_safe looked).bind ?_
    rintro ⟨st, s'⟩ w (⟨rfl, h⟩ | ⟨rfl, h⟩ | ⟨rfl, id, h⟩ | ⟨hf, hb, h⟩)
    · exact ih (by omega) h
    · exact Safe.done (Or.inl ⟨Or.inl one_not_failed, K.silent h .broke⟩)
    · exact Safe.done (Or.inl ⟨Or.inr rfl, K.silent h .blocked⟩)
    · have hne : st ≠ 0 := by
        rintro rfl
        exact not_failed_ok hf
      dsimp only
      rw [if_pos hne]
      exact Safe.done (Or.inr ⟨hf, hb, K.silent h .settle⟩)

theorem mcastOnEmptyQueue_safe {s : Sender g} {w : World g} (now : Inv .rest s w) :
    Safe E.host (During As .mcast) Mv (Shown Inv) (HandlerPost Inv) (mcastOnEmptyQueue s) w := by
  refine K.clock now ?_ ?_
  · intro w st h _
    exact Safe.done (Or.inr ⟨st.2, K.silent h .fail⟩)
  intro w time h _
  dsimp only
  by_cases aged : s.mcastInsertTime ≠ 0 ∧ s.maxPktAgeUsec ≤ time - s.mcastInsertTime
  · rw [if_pos aged]
    exact (K.mcastSendPkt_safe .aged (fun _ => Or.inr aged.1) h).mono (K.sendPost_handler rfl)
  rw [if_neg aged]
  by_cases due : s.heartbeatUsec ≤ time - s.mcastSendTime
  · rw [if_pos due]
    by_cases empty : s.pktNext = 0
    · rw [if_pos empty]
      exact (K.mcastSendPkt_safe .beat nofun (K.silent h (.beat empty))).mono
        (K.sendPost_handler rfl)
    · rw [if_neg empty]
      exact (K.mcastSendPkt_safe .aged (fun _ => Or.inl empty) h).mono (K.sendPost_handler rfl)
  · rw [if_neg due]
    exact Safe.done (Or.inl ⟨not_failed_ok, h⟩)

theorem mcastOnWrite_safe {s : Sender g} {w : World g} (now : Inv .rest s w) :
    Safe E.host (During As .mcast) Mv (Shown Inv) (HandlerPost Inv) (mcastOnWrite s) w := by
  refine K.queueHead now ?_
  intro w h ha
  dsimp only
  by_cases small : w.store.qHead ≤ s.lastQIdx
  · have idle := K.answered h ha (.idle small)
    have hqi : (w.store.qHead : Int) - s.lastQIdx ≤ 0 := by omega
    have state : (if (w.store.qHead : Int) - s.lastQIdx < 0 then
        { s with lastQIdx := w.store.qHead } else s) = { s with lastQIdx := w.store.qHead } := by
      split
      · rfl
      · have same : w.store.qHead = s.lastQIdx := by omega
        rw [same]
    rw [state, if_pos hqi]
    exact K.mcastOnEmptyQueue_safe idle
  have hneg : ¬ (w.store.qHead : Int) - s.lastQIdx < 0 := by omega
  have hpos : ¬ (w.store.qHead : Int) - s.lastQIdx ≤ 0 := by omega
  have finish : ∀ (r : Int × Sender g × Nat) (w : World g), ScanPost Inv r w →
      HandlerPost Inv (if r.1 = Status.blocked then Status.ok else r.1,
        { r.2.1 with lastQIdx := r.2.2 }) w := by
    rintro ⟨st, s, q⟩ w (⟨hst, h⟩ | ⟨hf, hb, h⟩)
    · refine Or.inl ⟨?_, h⟩
      dsimp only at hst ⊢
      split
      · exact not_failed_ok
      · rename_i hb
        exact hst.resolve_right hb
    · refine Or.inr ⟨?_, h⟩
      dsimp only at hf hb ⊢
      rw [if_neg hb]
      exact hf
  simp only [hneg, hpos, ↓reduceIte]
  by_cases past : (g.qCapacity : Int) < (w.store.qHead : Int) - s.lastQIdx
  · by_cases strict : s.ignoreOverrun = false
    · rw [if_pos ⟨past, strict⟩]
      exact Safe.done (Or.inr ⟨overrun_failed, K.silent h .fail⟩)
    · rw [if_neg fun h => strict h.2, if_pos past]
      have jumped := K.answered h ha (.overrun (q := ((w.store.qHead : Int) - s.lastQIdx -
        g.qCapacity).toNat) (by omega) (by simpa using strict) (by omega))
      refine (K.mcastScanQueue_safe ?_ jumped).bind fun r w h => Safe.done (finish r w h)
      dsimp only
      omega
  · simp only [past, false_and, ↓reduceIte]
    have opened := K.answered h ha (.opens (by omega) (by omega))
    refine (K.mcastScanQueue_safe ?_ opened).bind fun r w h => Safe.done (finish r w h)
    omega

end Kept

/-! ## The handlers of a client -/

namespace Sender

theorem setClient_setClient (s : Sender g) (c : Nat) (a b : TcpClient) :
    (s.setClient c a).setClient c b = s.setClient c b := by
  simp only [setClient, Sender.mk.injEq, true_and, and_true]
  funext i
  split <;> rfl

theorem setClient_self {s : Sender g} {c : Nat} {clnt : TcpClient} (h : s.clients c = some clnt) :
    s.setClient c clnt = s := by
  have same : (fun i => if i = c then some clnt else s.clients i) = s.clients := by
    funext i
    split
    · rename_i hi
      rw [hi, h]
    · rfl
  simp only [setClient, same]

@[simp] theorem setClient_clients_same (s : Sender g) (c : Nat) (clnt : TcpClient) :
    (s.setClient c clnt).clients c = some clnt := by simp [setClient]

theorem setClient_clients_other (s : Sender g) {c i : Nat} (clnt : TcpClient) (h : i ≠ c) :
    (s.setClient c clnt).clients i = s.clients i := by simp [setClient, h]

theorem setClient_dropClient (s : Sender g) (c : Nat) (clnt : TcpClient) :
    (s.setClient c clnt).dropClient c = s.dropClient c := by
  simp only [setClient, dropClient, Sender.mk.injEq, true_and, and_true]
  funext i
  split <;> rfl

end Sender

def ReadPost (Inv : Phase → Sender g → World g → Prop) (s : Sender g) (c : Nat)
    (clnt : TcpClient) (w : World g) : Prop :=
  (clnt.inRemain = 0 → (clnt.inRange.IsValid → Inv .rest (s.setClient c clnt.merged) w) ∧
    (¬ clnt.inRange.IsValid → Inv .rest (s.dropClient c) w)) ∧
  (clnt.inRemain ≠ 0 → Inv .rest (s.setClient c clnt) w)

def QuitPost (Inv : Phase → Sender g → World g → Prop) (r : Int × Sender g) (w : World g) :
    Prop :=
  (¬ Status.Failed r.1 ∧ Inv .quitting r.2 w) ∨ (Status.Failed r.1 ∧ Inv .dead r.2 w)

/-- What a handler leaves: the sender is at rest unless it failed or has quit. -/
def TurnPost (Inv : Phase → Sender g → World g → Prop) (a : Turn g) (w : World g) : Prop :=
  ∃ ph, Inv ph a.sndr w ∧ (a.hasQuit = false → ¬ Status.Failed a.status → ph = .rest)

namespace Kept

variable {E : Env g} {As : Option (Event × Call) → Sender g → World g → Prop}
  {Mv : E.Move → Sender g → World g → Prop} {Begins : Event → Sender g → World g → Prop}
  {Inv : Phase → Sender g → World g → Prop} (K : Kept E As Mv Begins Inv) {e : Event}

include K

theorem accepted {ph : Phase} {s : Sender g} {c : Nat} {β : Type} {Q : β → World g → Prop}
    {k : Call.Ans g (.lib (.sockAccept c)) → SenderTask g β} {w : World g} (now : Inv ph s w)
    (failed : ∀ w st, Inv ph s w → Safe E.host (During As e) Mv (Shown Inv) Q (k (.error st)) w)
    (ok : ∀ w, Inv ph s w → As (some (e, .lib (.sockAccept c))) s w → w.accepted c = false →
      E.admits (.lib (.sockAccept c)) (.ok ()) w → Safe E.host (During As e) Mv (Shown Inv) Q
        (k (.ok ())) { w with accepted := fun i => if i = c then true else w.accepted i }) :
    Safe E.host (During As e) Mv (Shown Inv) Q (.call s (.lib (.sockAccept c)) k) w := by
  refine K.call now nofun ?_
  rintro w (st | _) w' h ha admitted hr
  · obtain rfl := Option.some.inj hr
    exact failed _ st h
  · simp only [World.reply] at hr
    split at hr
    · cases hr
    · rename_i new
      obtain rfl := Option.some.inj hr
      exact ok _ h ha (by simpa using new) admitted

theorem libCalls_safe {ph : Phase} {s : Sender g} {w : World g} (fs : List LibCall)
    (quiet : ∀ c, LibCall.sockAccept c ∉ fs) (now : Inv ph s w) :
    Safe E.host (During As e) Mv (Shown Inv)
      (fun st w => (st = Status.ok ∨ Status.Failed st) ∧ Inv ph s w) (libCalls s fs) w := by
  induction fs generalizing w with
  | nil => exact Safe.done ⟨Or.inl rfl, now⟩
  | cons f rest ih =>
    refine K.lib now (fun c hf => quiet c (by simp [hf])) ?_ ?_
    · intro w st h
      exact Safe.done ⟨Or.inr st.2, h⟩
    · intro w h
      exact ih (fun c hc => quiet c (by simp [hc])) h

/-- Reading ends with a range that is still incomplete, or with a whole one that is
merged if it is valid. -/
theorem tcpReadBuf_safe {s : Sender g} {c : Nat} {clnt : TcpClient} {w : World g} {st : Int}
    (fuel : Nat) (now : ReadPost Inv s c clnt w) :
    Safe E.host (During As e) Mv (Shown Inv) (fun r w => ReadPost Inv s c r.2 w)
      (tcpReadBuf s c fuel st clnt) w := by
  induction fuel generalizing clnt w st with
  | zero => exact Safe.done now
  | succ fuel ih =>
    unfold tcpReadBuf
    by_cases full : clnt.inRemain = 0
    · rw [if_pos full]
      exact Safe.done now
    rw [if_neg full]
    refine K.sockRead (now.2 full) ?_ ?_
    · intro w st h
      exact Safe.done ⟨fun h0 => absurd h0 full, fun _ => h⟩
    · intro w data h ha admitted nonempty fits
      refine ih ⟨?_, ?_⟩
      · intro whole
        have last : data.length = clnt.inRemain := by
          dsimp only at whole
          omega
        constructor
        · intro valid
          have got := K.answered h ha
            (.readLast data (setClient_clients_same ..) nonempty last valid admitted)
          rwa [setClient_setClient] at got
        · intro bad
          have got := K.answered h ha
            (.readBad data (setClient_clients_same ..) nonempty last bad admitted)
          rwa [setClient_dropClient] at got
      · intro more
        have short : data.length < clnt.inRemain := by
          dsimp only at more
          omega
        have got := K.answered h ha (.read data (setClient_clients_same ..) nonempty short admitted)
        rwa [setClient_setClient] at got

theorem tcpWriteLoop_safe {ph : Phase} {s : Sender g} {c : Nat} {clnt : TcpClient} {w : World g}
    {st : Int} {sentSz : Nat} (writing : ph.Writes c) (fuel : Nat)
    (now : Inv ph (s.setClient c clnt) w) :
    Safe E.host (During As e) Mv (Shown Inv) (fun r w => Inv ph (s.setClient c r.2.2) w)
      (tcpWriteLoop s c fuel st sentSz clnt) w := by
  induction fuel generalizing clnt w st sentSz with
  | zero => exact Safe.done now
  | succ fuel ih =>
    unfold tcpWriteLoop
    by_cases empty : clnt.outRemain = 0
    · rw [if_pos empty]
      exact Safe.done now
    rw [if_neg empty]
    refine K.sockWrite now ?_ ?_
    · intro w st h
      exact Safe.done h
    · intro w count h ha positive fits
      have put := K.answered h ha (.write count writing (setClient_clients_same ..) positive fits)
      rw [setClient_setClient] at put
      exact ih put

theorem tcpWriteBuf_safe {ph : Phase} {s : Sender g} {c : Nat} {clnt : TcpClient} {w : World g}
    (writing : ph.Writes c) (now : Inv ph (s.setClient c clnt) w) :
    Safe E.host (During As e) Mv (Shown Inv) (fun r w => Inv ph (r.2.1.setClient c r.2.2) w)
      (tcpWriteBuf s c clnt) w := by
  refine (K.tcpWriteLoop_safe writing _ now).bind ?_
  rintro ⟨st, sentSz, clnt⟩ w h
  dsimp only at h ⊢
  by_cases positive : 0 < sentSz
  · rw [if_pos positive]
    refine K.clock h ?_ ?_
    · intro w st h _
      exact Safe.done h
    intro w time h _
    have stamped := K.silent h (.sendTime time writing (setClient_clients_same ..))
    rw [setClient_setClient] at stamped
    refine K.lock stamped ?_ ?_
    · intro w st h _
      exact Safe.done h
    · intro w h
      exact Safe.done (K.silent h (.tally time s.mcastSendTime _))
  · rw [if_neg positive]
    exact Safe.done h

theorem tcpScanRecords_safe {s : Sender g} {c : Nat} {clnt : TcpClient} {w : World g} {st : Int}
    {n : Nat} (left : n = (g.maxId - clnt.replyId).toNat) (idle : clnt.outRemain = 0)
    (busy : clnt.replyRange.IsValid) (now : Inv .rest (s.setClient c clnt) w) :
    Safe E.host (During As e) Mv (Shown Inv) (fun r w => Inv .rest r.2 w)
      (tcpScanRecords s c n st clnt) w := by
  induction n generalizing clnt w st with
  | zero =>
    have done : Inv .rest (({ s with minSeq := clnt.minSeqFound }.setClient c clnt).setClient c
        { clnt with replyRange := .invalid }) w :=
      K.silent now (.finish (setClient_clients_same ..) idle busy (by omega))
    rw [setClient_setClient] at done
    exact Safe.done done
  | succ n ih =>
    have more : clnt.replyId < g.maxId := by omega
    have rest_left : n = (g.maxId - (clnt.replyId + 1)).toNat := by omega
    have found := K.silent now (.find (setClient_clients_same ..) idle busy more)
    rw [setClient_setClient] at found
    unfold tcpScanRecords
    dsimp only
    have least : (if s.recordSeqs (clnt.replyId - g.baseId) < clnt.minSeqFound then
        s.recordSeqs (clnt.replyId - g.baseId) else clnt.minSeqFound) ≤
        s.recordSeqs (clnt.replyId - g.baseId) := by
      split <;> omega
    have here := setClient_clients_same s c { clnt with
      minSeqFound := if s.recordSeqs (clnt.replyId - g.baseId) < clnt.minSeqFound then
        s.recordSeqs (clnt.replyId - g.baseId) else clnt.minSeqFound }
    by_cases within : clnt.replyRange.IsWithin (s.recordSeqs (clnt.replyId - g.baseId))
    · rw [if_pos within]
      by_cases known : g.Holds clnt.replyId
      · rw [if_pos known]
        refine K.copy found ?_ ?_
        · intro w st h _
          exact Safe.done h
        intro w h ha free
        dsimp only
        by_cases zero : (w.store.record clnt.replyId).rev = 0
        · rw [if_pos zero]
          have step := Answer.unused (E := E) (e := e) here idle busy known least zero
          have passed := K.answered h ha step
          rw [setClient_setClient] at passed
          exact ih rest_left idle busy passed
        · rw [if_neg zero]
          have used : 0 < (w.store.record clnt.replyId).rev := by omega
          have step := Answer.reply (E := E) (e := e) here idle busy known least within used
          have framed := K.answered h ha step
          rw [setClient_setClient] at framed
          exact Safe.done framed
      · rw [if_neg known]
        exact Safe.done found
    · rw [if_neg within]
      have passed := K.silent found
        (.pass (setClient_clients_same ..) idle busy more least within)
      rw [setClient_setClient] at passed
      exact ih rest_left idle busy passed

theorem tcpOnWrite_safe {s : Sender g} {c : Nat} {clnt : TcpClient} {w : World g}
    (now : Inv .rest (s.setClient c clnt) w) :
    Safe E.host (During As e) Mv (Shown Inv) (fun r w => Inv .rest r.2 w)
      (tcpOnWrite s c clnt) w := by
  refine (K.tcpWriteBuf_safe (Or.inl rfl) now).bind ?_
  rintro ⟨st, s, clnt⟩ w h
  dsimp only at h ⊢
  by_cases hard : st ≠ Status.blocked ∧ Status.Failed st
  · rw [if_pos hard]
    exact Safe.done h
  rw [if_neg hard]
  by_cases idle : clnt.outRemain = 0
  · rw [if_pos idle]
    by_cases busy : clnt.replyRange.IsValid
    · rw [if_pos busy]
      exact K.tcpScanRecords_safe rfl idle busy h
    rw [if_neg busy]
    refine K.clock h ?_ ?_
    · intro w st h _
      exact Safe.done h
    intro w time h _
    dsimp only
    by_cases due : s.heartbeatUsec ≤ time - clnt.tcpSendTime
    · rw [if_pos due]
      have beat := K.silent h (.heartbeat (setClient_clients_same ..) idle busy)
      rw [setClient_setClient] at beat
      exact Safe.done beat
    · rw [if_neg due]
      exact Safe.done h
  · rw [if_neg idle]
    exact Safe.done h

theorem tcpOnReadBlocked_kept {s : Sender g} {c : Nat} {clnt : TcpClient} {w : World g}
    (here : s.clients c = some clnt) (now : Inv .rest s w) :
    Inv .rest (s.setClient c (tcpOnReadBlocked s clnt)) w := by
  unfold tcpOnReadBlocked
  split
  · rename_i whole
    split
    · rename_i old
      exact K.silent now (.forget here whole old)
    · rename_i new
      split
      · rename_i free
        exact K.silent now (.promote here whole new free)
      · rwa [setClient_self here]
  · rwa [setClient_self here]

theorem tcpOnRead_safe {s : Sender g} {c : Nat} {clnt : TcpClient} {w : World g}
    (now : Inv .rest (s.setClient c clnt) w) :
    Safe E.host (During As e) Mv (Shown Inv)
      (fun r w => Inv .rest r.2 w ∨ (Status.Failed r.1 ∧ Inv .rest (r.2.dropClient c) w))
      (tcpOnRead s c clnt) w := by
  have start : ReadPost Inv s c clnt w := by
    refine ⟨fun whole => ⟨fun valid => ?_, fun _ => ?_⟩, fun _ => now⟩
    · have merged := K.silent now (.merge (setClient_clients_same ..) whole valid)
      rwa [setClient_setClient] at merged
    · have dropped := K.silent now (.drop c)
      rwa [setClient_dropClient] at dropped
  refine (K.tcpReadBuf_safe _ start).bind ?_
  rintro ⟨st, clnt⟩ w h
  dsimp only at h ⊢
  by_cases hard : st ≠ Status.blocked ∧ Status.Failed st
  · rw [if_pos hard]
    refine Safe.done (Or.inr ⟨hard.2, ?_⟩)
    rw [setClient_dropClient]
    by_cases whole : clnt.inRemain = 0
    · by_cases valid : clnt.inRange.IsValid
      · have dropped := K.silent ((h.1 whole).1 valid) (.drop c)
        rwa [setClient_dropClient] at dropped
      · exact (h.1 whole).2 valid
    · have dropped := K.silent (h.2 whole) (.drop c)
      rwa [setClient_dropClient] at dropped
  rw [if_neg hard]
  by_cases whole : clnt.inRemain = 0
  · rw [if_pos whole]
    by_cases valid : clnt.inRange.IsValid
    · rw [if_pos valid]
      refine K.lock ((h.1 whole).1 valid) ?_ ?_
      · intro w st h _
        exact Safe.done (Or.inl h)
      · intro w h
        exact Safe.done (Or.inl (K.silent h (.tally s.lastActiveTime s.mcastSendTime _)))
    · rw [if_neg valid]
      refine Safe.done (Or.inr ⟨protocol_failed, ?_⟩)
      rw [setClient_dropClient]
      exact (h.1 whole).2 valid
  · rw [if_neg whole]
    exact Safe.done (Or.inl (h.2 whole))

/-- A client that hangs up. -/
theorem tcpOnHup_safe {s : Sender g} {c : Nat} {w : World g} (now : Inv .rest (s.dropClient c) w) :
    Safe E.host (During As e) Mv (Shown Inv) (HandlerPost Inv) (tcpOnHup s c) w := by
  refine (K.libCalls_safe _ (by simp) now).bind ?_
  rintro st w ⟨hst, h⟩
  by_cases hf : Status.Failed st
  · rw [if_pos hf]
    exact Safe.done (Or.inr ⟨hf, K.silent h .fail⟩)
  rw [if_neg hf]
  have uncounted := K.silent h .uncount
  dsimp only
  split
  · refine (K.libCalls_safe _ (by simp) uncounted).bind ?_
    rintro st w ⟨hst, h⟩
    rcases hst with rfl | hst
    · exact Safe.done (Or.inl ⟨not_failed_ok, h⟩)
    · exact Safe.done (Or.inr ⟨hst, K.silent h .fail⟩)
  · exact Safe.done (Or.inl ⟨hf, uncounted⟩)

/-- `event_func` for a client socket. -/
theorem clientEvent_safe {s : Sender g} {c : Nat} {rev : Revents} {w : World g}
    (now : Inv .rest s w) :
    Safe E.host (During As e) Mv (Shown Inv) (HandlerPost Inv) (clientEvent s c rev) w := by
  unfold clientEvent
  cases here : s.clients c with
  | none => exact Safe.done (Or.inl ⟨not_failed_ok, now⟩)
  | some clnt =>
    dsimp only
    split
    · exact K.tcpOnHup_safe (K.silent now (.drop c))
    have reading : Safe E.host (During As e) Mv (Shown Inv)
        (fun r w => Inv .rest r.2 w ∨ (Status.Failed r.1 ∧ Inv .rest (r.2.dropClient c) w))
        (clientRead s c clnt rev.pollin) w := by
      unfold clientRead
      split
      · exact K.tcpOnRead_safe (by rwa [setClient_self here])
      · exact Safe.done (Or.inl (K.tcpOnReadBlocked_kept here now))
    refine reading.bind ?_
    rintro ⟨st, s⟩ w h
    have writing : Safe E.host (During As e) Mv (Shown Inv)
        (fun r w => Inv .rest r.2 w ∨ (Status.Failed r.1 ∧ Inv .rest (r.2.dropClient c) w))
        (clientWrite s c st rev.pollout) w := by
      unfold clientWrite
      cases here : s.clients c with
      | none => exact Safe.done h
      | some clnt =>
        dsimp only
        split
        · rename_i fine
          have h := h.resolve_right fun hf => fine.1 hf.1
          refine (K.tcpOnWrite_safe (by rwa [setClient_self here])).mono ?_
          intro r w h
          exact Or.inl h
        · exact Safe.done h
    refine writing.bind ?_
    rintro ⟨st, s⟩ w h
    dsimp only at h ⊢
    split
    · refine K.tcpOnHup_safe ?_
      rcases h with h | h
      · exact K.silent h (.drop c)
      · exact h.2
    · rename_i fine
      exact Safe.done (Or.inl ⟨fine, h.resolve_right fun hf => fine hf.1⟩)

/-! ## Accepting and quitting -/

theorem acceptCalls_safe {s : Sender g} {c : Nat} {inBuf outBuf : List UInt8} {w : World g}
    (now : Inv .rest s w) :
    Safe E.host (During As (.accept c inBuf outBuf)) Mv (Shown Inv)
      (fun st w => (st = Status.ok ∧ Inv (.accepting c) s w) ∨ (Status.Failed st ∧ Inv .dead s w))
      (libCalls s [.sockAccept c, .sockSetTcpNodelay c, .signalAddHandler]) w := by
  refine K.accepted now ?_ ?_
  · intro w st h
    exact Safe.done (Or.inr ⟨st.2, K.silent h .fail⟩)
  intro w h ha new admitted
  have accepting := K.answered h ha (.accept new admitted)
  refine (K.libCalls_safe _ (by simp) accepting).mono ?_
  rintro st w ⟨rfl | hf, h⟩
  · exact Or.inl ⟨rfl, h⟩
  · exact Or.inr ⟨hf, K.silent h .fail⟩

theorem tcpOnAccept_safe {s : Sender g} {c : Nat} {inBuf outBuf : List UInt8} {w : World g}
    (inLen : inBuf.length = 16) (outLen : outBuf.length = pktSize g) (now : Inv .rest s w) :
    Safe E.host (During As (.accept c inBuf outBuf)) Mv (Shown Inv) (HandlerPost Inv)
      (tcpOnAccept s c inBuf outBuf) w := by
  refine (K.acceptCalls_safe now).bind ?_
  rintro st w (⟨rfl, h⟩ | ⟨hf, h⟩)
  case inr => exact (if_pos hf).symm ▸ Safe.done (Or.inr ⟨hf, h⟩)
  rw [if_neg not_failed_ok]
  refine (K.libCalls_safe _ (by simp) h).bind ?_
  rintro st w ⟨_, h⟩
  refine (K.libCalls_safe _ (by simp) h).bind ?_
  rintro st2 w ⟨_, h⟩
  dsimp only
  generalize (if Status.Failed st2 ∧ ¬ Status.Failed st then st2 else st) = st
  by_cases hf : Status.Failed st
  · rw [if_pos hf]
    refine (K.libCalls_safe _ (by simp) h).bind ?_
    rintro _ w ⟨_, h⟩
    refine Safe.done (Or.inr ⟨?_, K.silent h .fail⟩)
    dsimp only
    split
    · exact timeout_failed
    · exact hf
  rw [if_neg hf]
  refine (K.libCalls_safe _ (by simp) h).bind ?_
  rintro st w ⟨_, h⟩
  by_cases hf : Status.Failed st
  · rw [if_pos hf]
    refine (K.libCalls_safe _ (by simp) h).bind ?_
    rintro _ w ⟨_, h⟩
    exact Safe.done (Or.inr ⟨memory_failed, K.silent h .fail⟩)
  rw [if_neg hf]
  refine K.clock h ?_ ?_
  · intro w st h _
    exact Safe.done (Or.inr ⟨st.2, K.silent h .fail⟩)
  intro w time h _
  refine (K.libCalls_safe _ (by simp) (K.silent h (.join inBuf outBuf time inLen outLen))).bind ?_
  rintro st w ⟨_, h⟩
  by_cases hf : Status.Failed st
  · rw [if_pos hf]
    exact Safe.done (Or.inr ⟨hf, K.silent h .fail⟩)
  rw [if_neg hf]
  by_cases one : (s.setClient c (newClient inBuf outBuf time)).clientCount + 1 = 1
  · rw [if_pos one]
    have counted := K.silent (K.silent h (.countFirst one))
      (.tally time s.mcastSendTime s.nextStats)
    refine (K.libCalls_safe _ (by simp) counted).bind ?_
    rintro st w ⟨_, h⟩
    by_cases hf : Status.Failed st
    · rw [if_pos hf]
      exact Safe.done (Or.inr ⟨hf, K.silent h .fail⟩)
    rw [if_neg hf]
    refine K.clock h ?_ ?_
    · intro w st h _
      exact Safe.done (Or.inr ⟨st.2, K.silent h .fail⟩)
    intro w time' h _
    refine K.queueHead (K.silent h (.tally time time' s.nextStats)) ?_
    intro w h ha
    exact Safe.done (Or.inl ⟨not_failed_ok, K.answered h ha .jump⟩)
  · rw [if_neg one]
    exact Safe.done (Or.inl ⟨not_failed_ok, K.silent (K.silent h (.count one))
      (.tally time s.mcastSendTime s.nextStats)⟩)

theorem tcpWillQuitLoop_safe {s : Sender g} {c : Nat} {clnt : TcpClient} {w : World g}
    (rounds : Nat) (now : Inv (.telling c) (s.setClient c clnt) w) :
    Safe E.host (During As e) Mv (Shown Inv) (QuitPost Inv) (tcpWillQuitLoop c rounds s clnt) w := by
  induction rounds generalizing s clnt w with
  | zero => exact Safe.done (Or.inr ⟨failed_blocked, K.silent now .fail⟩)
  | succ rounds ih =>
    refine (K.tcpWriteBuf_safe (Or.inr rfl) now).bind ?_
    rintro ⟨st, s, clnt⟩ w h
    dsimp only at h ⊢
    split
    · rename_i hard
      exact Safe.done (Or.inr ⟨hard.2, K.silent h .fail⟩)
    split
    · exact ih h
    · rename_i none_left
      by_cases hf : Status.Failed st
      · exact Safe.done (Or.inr ⟨hf, K.silent h .fail⟩)
      · have told := K.silent h (.told (setClient_clients_same ..) (by omega))
        exact Safe.done (Or.inl ⟨hf, told⟩)

theorem willQuit_safe {rounds : Nat} {order : List Nat} {st : Int} {s : Sender g} {w : World g}
    (now : Inv .quitting s w) :
    Safe E.host (During As e) Mv (Shown Inv) (fun r w => ∃ ph, Inv ph r.2 w)
      (willQuit rounds order st s) w := by
  induction order generalizing st s w with
  | nil => exact Safe.done ⟨_, now⟩
  | cons c rest ih =>
    have telling : Safe E.host (During As e) Mv (Shown Inv) (QuitPost Inv)
        (tcpWillQuitFunc s c rounds) w := by
      unfold tcpWillQuitFunc
      cases here : s.clients c with
      | none => exact Safe.done (Or.inl ⟨not_failed_ok, now⟩)
      | some clnt => exact K.tcpWillQuitLoop_safe rounds (K.silent now (.tell here))
    refine telling.bind ?_
    rintro ⟨st, s⟩ w (⟨fine, h⟩ | ⟨hf, h⟩)
    · dsimp only at fine ⊢
      rw [if_neg fine]
      exact ih h
    · dsimp only at hf ⊢
      rw [if_pos hf]
      exact Safe.done ⟨_, h⟩

/-- Every handler is safe, from the phase it starts in. -/
theorem handle_safe {ph : Phase} {s : Sender g} {w : World g} (e : Event)
    (sized : sizedEvent g e) (allowed : E.allows e s w) (atRest : isQuit e = false → ph = .rest)
    (begins : Begins e s w) (assumed : As none s w) (now : Inv ph s w) :
    Safe E.host (During As e) Mv (Shown Inv) (TurnPost Inv) (handle s e) w := by
  have settle : ∀ (r : Int × Sender g) w, HandlerPost Inv r w →
      Safe E.host (During As e) Mv (Shown Inv) (TurnPost Inv) (.done (turn false r)) w := by
    rintro ⟨st, s⟩ w (⟨_, h⟩ | ⟨hf, h⟩)
    · exact Safe.done ⟨.rest, h, fun _ _ => rfl⟩
    · exact Safe.done ⟨.dead, h, fun _ fine => absurd hf fine⟩
  cases e with
  | accept c inBuf outBuf =>
    obtain rfl := atRest rfl
    simp only [sizedEvent, decide_eq_true_eq] at sized
    exact (K.tcpOnAccept_safe sized.1 sized.2 now).bind settle
  | mcast =>
    obtain rfl := atRest rfl
    exact (K.mcastOnWrite_safe now).bind settle
  | client c rev =>
    obtain rfl := atRest rfl
    exact (K.clientEvent_safe now).bind settle
  | quit order rounds =>
    refine (K.willQuit_safe (K.quits now assumed begins allowed)).bind ?_
    rintro r w ⟨ph, h⟩
    exact Safe.done ⟨ph, h, fun quit => nomatch quit⟩

/-- The run rule for kept predicates: what every configuration shows, from any one between
two handlers on. -/
theorem reaches_from {x₀ : Conf E.host} {ok : Conf E.host → Choice E.host → Conf E.host → Prop}
    (assumed : ∀ x ch y, E.host.next ch x = some y → ok x ch y → As y.waiting y.state y.world)
    (moves : ∀ x m y, E.host.next (.move m) x = some y → ok x (.move m) y →
      Mv m x.state x.world)
    (begins : ∀ x y e a, x.task = .done a → ok x (.start e) y → Begins e a.sndr x.world)
    {a₀ : Turn g} (idle : x₀.task = .done a₀) (init : TurnPost Inv a₀ x₀.world)
    (start : As none a₀.sndr x₀.world) {x : Conf E.host} (h : E.host.Reach ok x₀ x) :
    (∃ a, x.task = .done a ∧ TurnPost Inv a x.world) ∨
    (∃ s c k, x.task = .call s c k ∧ Shown Inv s c x.world) := by
  refine (Host.Reach.settled As Mv (Shown Inv) (TurnPost Inv) assumed moves ?_ ?_ ?_ h).shows
  · rintro a w m w' ⟨ph, h, atRest⟩ ha hmv hm
    exact ⟨ph, K.moved h ha hmv hm, atRest⟩
  · rintro x e a t ht hst hok ⟨ph, h, atRest⟩ ha
    have hb := begins x _ e a ht hok
    simp only [Env.host] at hst
    split at hst
    · cases hst
    rename_i able
    split at hst
    · rename_i fits
      obtain rfl := Option.some.inj hst
      refine K.handle_safe e fits.1 fits.2 (fun quit => atRest ?_ ?_) hb ha h
      · simpa using fun h => able (Or.inl h)
      · exact fun hf => able (Or.inr ⟨hf, quit⟩)
    · cases hst
  · exact ⟨a₀, idle, init, start⟩

/-- The same from a sender about to wait for its first event. -/
theorem reaches {s₀ : Sender g} {w₀ : World g}
    {ok : Conf E.host → Choice E.host → Conf E.host → Prop}
    (assumed : ∀ x ch y, E.host.next ch x = some y → ok x ch y → As y.waiting y.state y.world)
    (moves : ∀ x m y, E.host.next (.move m) x = some y → ok x (.move m) y →
      Mv m x.state x.world)
    (begins : ∀ x y e a, x.task = .done a → ok x (.start e) y → Begins e a.sndr x.world)
    (init : Inv .rest s₀ w₀) (start : As none s₀ w₀)
    {x : Conf E.host} (h : E.host.Reach ok (E.idleConf s₀ w₀) x) :
    (∃ a, x.task = .done a ∧ TurnPost Inv a x.world) ∨
    (∃ s c k, x.task = .call s c k ∧ Shown Inv s c x.world) :=
  K.reaches_from assumed moves begins rfl ⟨.rest, init, fun _ _ => rfl⟩ start h

/-- Every configuration of a run shows a kept predicate, in some phase. -/
theorem holds_from {x₀ : Conf E.host} {ok : Conf E.host → Choice E.host → Conf E.host → Prop}
    (assumed : ∀ x ch y, E.host.next ch x = some y → ok x ch y → As y.waiting y.state y.world)
    (moves : ∀ x m y, E.host.next (.move m) x = some y → ok x (.move m) y →
      Mv m x.state x.world)
    (begins : ∀ x y e a, x.task = .done a → ok x (.start e) y → Begins e a.sndr x.world)
    {a₀ : Turn g} (idle : x₀.task = .done a₀) (init : Inv .rest a₀.sndr x₀.world)
    (start : As none a₀.sndr x₀.world) {x : Conf E.host} (h : E.host.Reach ok x₀ x) :
    ∃ ph, Inv ph x.state x.world := by
  rcases K.reaches_from assumed moves begins idle ⟨.rest, init, fun _ _ => rfl⟩ start h with
    ⟨a, ht, ph, hp, _⟩ | ⟨s, c, k, ht, ph, hp, _⟩
  all_goals
    refine ⟨ph, ?_⟩
    simp only [Conf.state, ht]
    exact hp

/-- The same from a sender about to wait for its first event. -/
theorem holds {s₀ : Sender g} {w₀ : World g} {ok : Conf E.host → Choice E.host → Conf E.host → Prop}
    (assumed : ∀ x ch y, E.host.next ch x = some y → ok x ch y → As y.waiting y.state y.world)
    (moves : ∀ x m y, E.host.next (.move m) x = some y → ok x (.move m) y →
      Mv m x.state x.world)
    (begins : ∀ x y e a, x.task = .done a → ok x (.start e) y → Begins e a.sndr x.world)
    (init : Inv .rest s₀ w₀) (start : As none s₀ w₀)
    {x : Conf E.host} (h : E.host.Reach ok (E.idleConf s₀ w₀) x) :
    ∃ ph, Inv ph x.state x.world :=
  K.holds_from assumed moves begins rfl init start h

end Kept

end Lancaster
