import Mathlib.Data.List.Chain
import Lancaster.ChangeQueue

/-!
# What a call of the sender visits of the change queue

A call of `mcast_on_write` takes the head of the queue once and then reads the entries one
by one, from `last_q_idx` on. Its calls and their answers make up a trace; the entries it
visits are those it reads.
-/

namespace Lancaster

open Interleaving Sender

variable {g : Geometry}

abbrev Trace (g : Geometry) := List ((c : Call) × c.Ans g)

def visited (tr : Trace g) : List Nat :=
  tr.filterMap fun
    | ⟨.storageReadQueue q, _⟩ => some q
    | _ => none

theorem visited_append (as bs : Trace g) : visited (as ++ bs) = visited as ++ visited bs := by
  simp [visited]

/-- The datagrams that are offered to the multicast socket, with its failure if it does not
take one. -/
def attempts (tr : Trace g) : List (List UInt8 × Option Failure) :=
  tr.filterMap fun
    | ⟨.sockSendto data, .ok _⟩ => some (data, none)
    | ⟨.sockSendto data, .error e⟩ => some (data, some e)
    | _ => none

theorem attempts_append (as bs : Trace g) : attempts (as ++ bs) = attempts as ++ attempts bs := by
  simp [attempts]

def failure : (c : Call) × c.Ans g → Option Failure
  | ⟨.clockTime, .error e⟩ => some e
  | ⟨.lockStats, .error e⟩ => some e
  | ⟨.latencyOnSample _, .error e⟩ => some e
  | ⟨.sockSendto _, .error e⟩ => some e
  | ⟨.storageReadQueue _, .error e⟩ => some e
  | ⟨.recordReadLock _, .error e⟩ => some e
  | ⟨.recordCopy _, .error e⟩ => some e
  | ⟨.sockRead _ _, .error e⟩ => some e
  | ⟨.sockWrite _ _, .error e⟩ => some e
  | ⟨.lib _, .error e⟩ => some e
  | _ => none

def FailedWith (tr : Trace g) (st : Int) : Prop := ∃ r ∈ tr, ∃ e, failure r = some e ∧ st = e.val

theorem FailedWith.append_right {bs : Trace g} {st : Int} (h : FailedWith bs st) (as : Trace g) :
    FailedWith (as ++ bs) st := by
  obtain ⟨r, here, rest⟩ := h
  exact ⟨r, List.mem_append_right _ here, rest⟩

namespace Sender

variable {s s' : Sender g} {tr : Trace g} {st : Int}

def stamped (s : Sender g) (now : Int) : Sender g :=
  { s with pktBuf := Bytes.stLong s.pktBuf 8 (htonll now) }

/-- The place in the queue and the size of packets stay, and the packet buffer is not cut. -/
structure Keeps (s s' : Sender g) : Prop where
  last : s'.lastQIdx = s.lastQIdx
  mtu : s'.mcastMtu = s.mcastMtu
  len : s.pktBuf.length ≤ s'.pktBuf.length

namespace Keeps

theorem refl (s : Sender g) : Keeps s s := ⟨rfl, rfl, le_refl _⟩

theorem trans {s'' : Sender g} (h : Keeps s s') (h' : Keeps s' s'') : Keeps s s'' :=
  ⟨h'.last.trans h.last, h'.mtu.trans h.mtu, le_trans h.len h'.len⟩

theorem stamped (s : Sender g) (now : Int) : Keeps s (s.stamped now) :=
  ⟨rfl, rfl, Bytes.le_length_poke _ _ _⟩

theorem stageId (s : Sender g) (id : Int) (usedSz : Nat) : Keeps s (s.stageId id usedSz) := by
  simp only [Sender.stageId]
  split
  · exact ⟨rfl, rfl, le_trans (Bytes.le_length_poke _ _ _) (Bytes.le_length_poke _ _ _)⟩
  · exact ⟨rfl, rfl, Bytes.le_length_poke _ _ _⟩

theorem stageValue (s : Sender g) (id : Int) (r : Record g) : Keeps s (s.stageValue id r) :=
  ⟨rfl, rfl, Bytes.le_length_poke _ _ _⟩

end Keeps

/-- The statistics at the end of `mcast_send_pkt`. -/
theorem lockStats_ends {s₁ : Sender g} {count : Nat} (h : (Task.call s₁ Call.lockStats fun
      | .error st => .done (st.val, s₁)
      | .ok () => .done (Status.ok, { s₁ with nextStats := { s₁.nextStats with
          mcastBytesSent := s₁.nextStats.mcastBytesSent + count
          mcastPacketsSent := s₁.nextStats.mcastPacketsSent + 1 } }) :
        SenderTask g (Int × Sender g)).Ends tr (st, s'))
    (keeps : Keeps s s₁) (empty : s₁.pktNext = 0) :
    (tr = [] ∧ st = Status.sequenceOverflow ∨
      ∃ a : Except Failure Unit, tr = [⟨.lockStats, a⟩] ∧ s'.pktNext = 0 ∧
        st = match a with | .error e => e.val | .ok () => Status.ok) ∧ Keeps s s' := by
  obtain ⟨a, rest, rfl, done⟩ := Task.ends_call.mp h
  cases a with
  | error e =>
    obtain ⟨rfl, rfl, rfl⟩ := Task.ends_done_pair.mp done
    exact ⟨Or.inr ⟨_, rfl, empty, rfl⟩, keeps.last, keeps.mtu, keeps.len⟩
  | ok _ =>
    obtain ⟨rfl, rfl, rfl⟩ := Task.ends_done_pair.mp done
    exact ⟨Or.inr ⟨_, rfl, empty, rfl⟩, keeps.last, keeps.mtu, keeps.len⟩

/-- What sending a packet can come to: the clock fails, the socket fails, or the datagram
goes out; then only the lock of the statistics is still to be taken. -/
theorem mcastSendPkt_ends (h : (mcastSendPkt s).Ends tr (st, s')) :
    (∃ e : Failure, tr = [⟨.clockTime, .error e⟩] ∧ st = e.val ∧ s' = s) ∨
    (∃ now, ∃ e : Failure, tr = [⟨.clockTime, .ok now⟩,
        ⟨.sockSendto (s.stamped now).packet, .error e⟩] ∧ st = e.val ∧ s' = s.stamped now) ∨
    (∃ now n rest, tr = ⟨.clockTime, .ok now⟩ :: ⟨.sockSendto (s.stamped now).packet, .ok n⟩ :: rest ∧
      (rest = [] ∧ st = Status.sequenceOverflow ∨
        ∃ a : Except Failure Unit, rest = [⟨.lockStats, a⟩] ∧ s'.pktNext = 0 ∧
          st = match a with | .error e => e.val | .ok () => Status.ok) ∧ Keeps s s') := by
  unfold mcastSendPkt at h
  obtain ⟨a, rest, rfl, first⟩ := Task.ends_call.mp h
  clear h
  cases a with
  | error e =>
    obtain ⟨rfl, rfl, rfl⟩ := Task.ends_done_pair.mp first
    exact Or.inl ⟨e, rfl, rfl, rfl⟩
  | ok now =>
    right
    obtain ⟨b, rest, rfl, second⟩ := Task.ends_call.mp first
    clear first
    cases b with
    | error e =>
      obtain ⟨rfl, rfl, rfl⟩ := Task.ends_done_pair.mp second
      exact Or.inl ⟨now, e, rfl, rfl, rfl⟩
    | ok n =>
      refine Or.inr ⟨now, n, rest, rfl, ?_⟩
      -- the sequence counts data only, and stops below its limit
      by_cases data : 0 ≤ ntohll (Bytes.ldLong (Bytes.stLong s.pktBuf 8 (htonll now)) 0)
      · by_cases limit : s.nextSeq + 1 = sequenceMax
        · simp only [data, limit, and_self, ↓reduceIte] at second
          obtain ⟨rfl, rfl, rfl⟩ := Task.ends_done_pair.mp second
          exact ⟨Or.inl ⟨rfl, rfl⟩, rfl, rfl, Bytes.le_length_poke _ _ _⟩
        · simp only [data, limit, and_false, ↓reduceIte] at second
          exact lockStats_ends second ⟨rfl, rfl, Bytes.le_length_poke _ _ _⟩ rfl
      · simp only [data, false_and, ↓reduceIte] at second
        exact lockStats_ends second ⟨rfl, rfl, Bytes.le_length_poke _ _ _⟩ rfl

/-- Staging a record copies it and reads the clock. It sends nothing and reads nothing of
the queue. -/
theorem mcastStageRecord_ends {id : Int} {usedSz : Nat} {sent : Int}
    (h : (mcastStageRecord s id usedSz sent).Ends tr (st, s')) :
    visited tr = [] ∧ attempts tr = [] ∧ Keeps s s' ∧ (st = sent ∨ FailedWith tr st) := by
  have opened := Keeps.stageId s id usedSz
  unfold mcastStageRecord at h
  obtain ⟨a, rest, rfl, first⟩ := Task.ends_call.mp h
  clear h
  cases a with
  | error e =>
    obtain ⟨rfl, rfl, rfl⟩ := Task.ends_done_pair.mp first
    exact ⟨rfl, rfl, opened, Or.inr ⟨_, List.mem_cons_self .., e, rfl, rfl⟩⟩
  | ok r =>
    have filled := opened.trans (.stageValue (s.stageId id usedSz) id r)
    obtain ⟨a, rest, rfl, second⟩ := Task.ends_call.mp first
    clear first
    cases a with
    | error e =>
      obtain ⟨rfl, rfl, rfl⟩ := Task.ends_done_pair.mp second
      exact ⟨rfl, rfl, filled,
        Or.inr ⟨_, List.mem_cons_of_mem _ (List.mem_cons_self ..), e, rfl, rfl⟩⟩
    | ok now =>
      obtain ⟨a, rest, rfl, third⟩ := Task.ends_call.mp second
      clear second
      cases a with
      | error e =>
        obtain ⟨rfl, rfl, rfl⟩ := Task.ends_done_pair.mp third
        exact ⟨rfl, rfl, ⟨filled.last, filled.mtu, filled.len⟩, Or.inr ⟨_, List.mem_cons_of_mem _
          (List.mem_cons_of_mem _ (List.mem_cons_self ..)), e, rfl, rfl⟩⟩
      | ok _ =>
        obtain ⟨rfl, rfl, rfl⟩ := Task.ends_done_pair.mp third
        exact ⟨rfl, rfl, ⟨filled.last, filled.mtu, filled.len⟩, Or.inl rfl⟩

def Tight (s : Sender g) : Prop := sizeSub s.mcastMtu s.pktNext < 8 + g.valSize

/-- What a stretch of `mcast_on_write` offers to the socket: nothing, and then a full packet
is as it was, or one full packet, which stays where it is if the socket does not take it. -/
def Offers (s : Sender g) (tr : Trace g) (st : Int) (s' : Sender g) : Prop :=
  (attempts tr = [] ∧ (Tight s → s' = s)) ∨
  (∃ s₁ now out, attempts tr = [((s₁.stamped now).packet, out)] ∧ Tight s₁ ∧
    (Tight s → s₁ = s) ∧ (∀ e, out = some e → st = e.val ∧ s' = s₁.stamped now))

def Plain (st : Int) : Prop :=
  st = 0 ∨ st = 1 ∨ st = Status.sequenceOverflow ∨ st = Status.invalidRecord

/-- Looking at a record. A full packet is offered first, and then the record is staged. -/
structure Accum (s : Sender g) (tr : Trace g) (st : Int) (s' : Sender g) : Prop where
  unread : visited tr = []
  keeps : Keeps s s'
  offers : Offers s tr st s'
  ends : Plain st ∨ FailedWith tr st
  goesOn : st = 0 → attempts tr = []

theorem mcastAccumRecord_ends {id : Int} (h : (mcastAccumRecord s id).Ends tr (st, s')) :
    Accum s tr st s' := by
  unfold mcastAccumRecord at h
  split at h
  · obtain ⟨a, rest, rfl, first⟩ := Task.ends_call.mp h
    clear h
    cases a with
    | error e =>
      obtain ⟨rfl, rfl, rfl⟩ := Task.ends_done_pair.mp first
      exact ⟨rfl, .refl _, Or.inl ⟨rfl, fun _ => rfl⟩,
        Or.inr ⟨_, List.mem_cons_self .., e, rfl, rfl⟩, fun _ => rfl⟩
    | ok rev =>
      dsimp only at first
      split at first
      · obtain ⟨rfl, rfl, rfl⟩ := Task.ends_done_pair.mp first
        exact ⟨rfl, .refl _, Or.inl ⟨rfl, fun _ => rfl⟩, Or.inl (Or.inl rfl), fun _ => rfl⟩
      · split at first
        · rename_i tight
          obtain ⟨⟨st₁, s₁⟩, sending, staging, rfl, sends, stages⟩ := Task.ends_bind.mp first
          dsimp only at stages
          clear first
          rcases mcastSendPkt_ends sends with ⟨e, rfl, rfl, rfl⟩ | ⟨now, e, rfl, rfl, rfl⟩ |
            ⟨now, n, stats, rfl, outcome, keeps⟩
          · rw [if_pos e.2] at stages
            obtain ⟨rfl, rfl, rfl⟩ := Task.ends_done_pair.mp stages
            refine ⟨rfl, .refl _, Or.inl ⟨rfl, fun _ => rfl⟩, Or.inr ?_, fun _ => rfl⟩
            exact ⟨_, List.mem_cons_of_mem _ (List.mem_cons_self ..), e, rfl, rfl⟩
          · rw [if_pos e.2] at stages
            obtain ⟨rfl, rfl, rfl⟩ := Task.ends_done_pair.mp stages
            refine ⟨rfl, .stamped s now, Or.inr ⟨s, now, some e, rfl, tight, fun _ => rfl, ?_⟩,
              Or.inr ?_, ?_⟩
            · intro e' eq
              cases eq
              exact ⟨rfl, rfl⟩
            · exact ⟨⟨.sockSendto (s.stamped now).packet, .error e⟩, by simp, e, rfl, rfl⟩
            · have := e.2
              simp only [Status.Failed] at this
              omega
          · -- the datagram is out; the rest may fail, but sends no more
            have quiet : visited stats = [] ∧ attempts stats = [] := by
              rcases outcome with ⟨rfl, _⟩ | ⟨a, rfl, _⟩
              · exact ⟨rfl, rfl⟩
              · exact ⟨rfl, rfl⟩
            by_cases failed : Status.Failed st₁
            · rw [if_pos failed] at stages
              obtain ⟨rfl, rfl, rfl⟩ := Task.ends_done_pair.mp stages
              refine ⟨?_, keeps, Or.inr ⟨s, now, none, ?_, tight, fun _ => rfl, nofun⟩, ?_, ?_⟩
              · rw [List.append_nil]
                exact quiet.1
              · rw [List.append_nil]
                exact congrArg (List.cons _) quiet.2
              · rcases outcome with ⟨_, rfl⟩ | ⟨a, rfl, _, rfl⟩
                · exact Or.inl (Or.inr (Or.inr (Or.inl rfl)))
                · cases a with
                  | error e => exact Or.inr ⟨⟨.lockStats, .error e⟩, by simp, e, rfl, rfl⟩
                  | ok _ => exact absurd (show Status.Failed Status.ok from failed) (by decide)
              · simp only [Status.Failed] at failed
                omega
            · rw [if_neg failed] at stages
              obtain ⟨unread, unsent, keeps', ends⟩ := mcastStageRecord_ends stages
              refine ⟨?_, keeps.trans keeps',
                Or.inr ⟨s, now, none, ?_, tight, fun _ => rfl, nofun⟩, ?_, ?_⟩
              · have later := visited_append stats staging
                rw [quiet.1, unread, List.append_nil] at later
                exact later
              · have later := attempts_append stats staging
                rw [quiet.2, unsent, List.append_nil] at later
                exact congrArg (List.cons _) later
              · rcases ends with one | failed
                · exact Or.inl (Or.inr (Or.inl one))
                · exact Or.inr (failed.append_right (⟨.recordReadLock id, .ok rev⟩ :: _))
              · rcases ends with one | failed
                · omega
                · obtain ⟨_, _, e, _, eq⟩ := failed
                  have := e.2
                  simp only [Status.Failed] at this
                  omega
        · rename_i wide
          obtain ⟨unread, unsent, keeps, ends⟩ := mcastStageRecord_ends first
          refine ⟨unread, keeps, Or.inl ⟨unsent, fun tight => absurd tight wide⟩, ?_,
            fun _ => unsent⟩
          rcases ends with zero | failed
          · exact Or.inl (Or.inl zero)
          · exact Or.inr (failed.append_right [⟨.recordReadLock id, .ok rev⟩])
  · obtain ⟨rfl, rfl, rfl⟩ := Task.ends_done_pair.mp h
    exact ⟨rfl, .refl _, Or.inl ⟨rfl, fun _ => rfl⟩, Or.inl (Or.inr (Or.inr (Or.inr rfl))),
      fun _ => rfl⟩

/-- The queue loop from position `q` on, over at most `n` positions. It ends at `q'`. -/
structure Pass (s : Sender g) (q n : Nat) (tr : Trace g) (st : Int) (s' : Sender g) (q' : Nat) :
    Prop where
  low : q ≤ q'
  high : q' ≤ q + n
  keeps : Keeps s s'
  reads : visited tr = List.range' q (min n (q' - q + 1))
  passed : ∀ p, q ≤ p → p < q' → ∃ id, ⟨.storageReadQueue p, .ok id⟩ ∈ tr
  offers : Offers s tr st s'
  ends : Plain st ∨ FailedWith tr st
  all : st = 0 → q' = q + n

theorem mcastScanQueue_ends {n q q' : Nat}
    (h : (mcastScanQueue s n q).Ends tr (st, s', q')) : Pass s q n tr st s' q' := by
  induction n generalizing s q tr with
  | zero =>
    obtain ⟨rfl, eq⟩ := Task.ends_done.mp h
    cases eq
    exact ⟨le_refl _, le_refl _, .refl _, rfl, fun p low high => absurd high (by omega),
      Or.inl ⟨rfl, fun _ => rfl⟩, Or.inl (Or.inl rfl), fun _ => rfl⟩
  | succ n ih =>
    unfold mcastScanQueue at h
    obtain ⟨a, rest, rfl, first⟩ := Task.ends_call.mp h
    clear h
    cases a with
    | error e =>
      obtain ⟨rfl, eq⟩ := Task.ends_done.mp first
      cases eq
      refine ⟨le_refl _, by omega, .refl _, ?_, fun p low high => absurd high (by omega),
        Or.inl ⟨rfl, fun _ => rfl⟩, Or.inr ⟨_, List.mem_cons_self .., e, rfl, rfl⟩, ?_⟩
      · have one : min (n + 1) (q' - q' + 1) = 1 := by omega
        rw [one]
        rfl
      · intro zero
        exact absurd e.2 (by rw [zero]; decide)
    | ok id =>
      obtain ⟨⟨st₁, s₁⟩, looking, more, rfl, looks, goes⟩ := Task.ends_bind.mp first
      dsimp only at goes
      clear first
      have look := mcastAccumRecord_ends looks
      split at goes
      · rename_i stop
        obtain ⟨rfl, eq⟩ := Task.ends_done.mp goes
        cases eq
        refine ⟨le_refl _, by omega, look.keeps, ?_,
          fun p low high => absurd high (by omega), ?_, ?_, fun zero => absurd zero stop⟩
        · have one : min (n + 1) (q' - q' + 1) = 1 := by omega
          rw [one, List.append_nil]
          exact congrArg (List.cons q') look.unread
        · rw [List.append_nil]
          exact look.offers
        · rw [List.append_nil]
          exact look.ends.imp_right fun failed =>
            failed.append_right [⟨.storageReadQueue q', .ok id⟩]
      · rename_i goOn
        have zero : st₁ = 0 := by omega
        have unsent := look.goesOn zero
        have pass := ih goes
        refine ⟨by have := pass.low; omega, by have := pass.high; omega,
          look.keeps.trans pass.keeps, ?_, ?_, ?_, ?_, fun zero => by have := pass.all zero; omega⟩
        · have here := visited_append looking more
          rw [look.unread, pass.reads, List.nil_append] at here
          have low := pass.low
          have step : min (n + 1) (q' - q + 1) = min n (q' - (q + 1) + 1) + 1 := by omega
          rw [step, List.range'_succ, ← here]
          rfl
        · intro p low high
          by_cases first : p = q
          · subst first
            exact ⟨id, List.mem_cons_self ..⟩
          · obtain ⟨id', here⟩ := pass.passed p (by omega) high
            exact ⟨id', List.mem_cons_of_mem _ (List.mem_append_right _ here)⟩
        · have same : Tight s → s₁ = s := by
            rcases look.offers with ⟨_, same⟩ | ⟨_, _, _, here, _⟩
            · exact same
            · rw [unsent] at here
              cases here
          have later : attempts (⟨.storageReadQueue q, .ok id⟩ :: (looking ++ more)) =
              attempts more := by
            have := attempts_append looking more
            rw [unsent, List.nil_append] at this
            rw [← this]
            rfl
          unfold Offers
          rw [later]
          rcases pass.offers with ⟨empty, stay⟩ | ⟨s₂, now, out, here, tight, full, ends⟩
          · exact Or.inl ⟨empty, fun tight => by rw [stay (same tight ▸ tight), same tight]⟩
          · exact Or.inr ⟨s₂, now, out, here, tight,
              fun tight' => by rw [full (same tight' ▸ tight'), same tight'], ends⟩
        · exact pass.ends.imp_right fun failed =>
            failed.append_right (⟨.storageReadQueue q, .ok id⟩ :: looking)

/-- With nothing in the queue the packet is offered if it is old, or else a heartbeat; a
packet that holds something stays as it is until then. -/
theorem mcastOnEmptyQueue_ends (h : (mcastOnEmptyQueue s).Ends tr (st, s')) :
    visited tr = [] ∧ Keeps s s' ∧ (Plain st ∨ FailedWith tr st) ∧
    ((attempts tr = [] ∧ (s.pktNext ≠ 0 → s' = s)) ∨
     (∃ s₁ now out, attempts tr = [((s₁.stamped now).packet, out)] ∧
        (s.pktNext ≠ 0 → s₁ = s) ∧ ∀ e, out = some e → st = e.val)) := by
  unfold mcastOnEmptyQueue at h
  obtain ⟨a, rest, rfl, first⟩ := Task.ends_call.mp h
  clear h
  cases a with
  | error e =>
    obtain ⟨rfl, rfl, rfl⟩ := Task.ends_done_pair.mp first
    exact ⟨rfl, .refl _, Or.inr ⟨_, List.mem_cons_self .., e, rfl, rfl⟩,
      Or.inl ⟨rfl, fun _ => rfl⟩⟩
  | ok time =>
    -- the packet that is sent, if it is not the one at hand
    have sends : ∀ {s₁ : Sender g}, Keeps s s₁ → (s.pktNext ≠ 0 → s₁ = s) →
        (mcastSendPkt s₁).Ends rest (st, s') →
        visited rest = [] ∧ Keeps s s' ∧ (Plain st ∨ FailedWith rest st) ∧
        ((attempts rest = [] ∧ (s.pktNext ≠ 0 → s' = s)) ∨
         (∃ s₁ now out, attempts rest = [((s₁.stamped now).packet, out)] ∧
            (s.pktNext ≠ 0 → s₁ = s) ∧ ∀ e, out = some e → st = e.val)) := by
      intro s₁ keeps full sends
      rcases mcastSendPkt_ends sends with ⟨e, rfl, rfl, rfl⟩ | ⟨now, e, rfl, rfl, rfl⟩ |
        ⟨now, n, stats, rfl, outcome, keeps'⟩
      · exact ⟨rfl, keeps, Or.inr ⟨_, List.mem_cons_self .., e, rfl, rfl⟩, Or.inl ⟨rfl, full⟩⟩
      · refine ⟨rfl, keeps.trans (.stamped s₁ now), Or.inr ?_,
          Or.inr ⟨s₁, now, some e, rfl, full, ?_⟩⟩
        · exact ⟨⟨.sockSendto (s₁.stamped now).packet, .error e⟩, by simp, e, rfl, rfl⟩
        · intro e' eq
          cases eq
          rfl
      · refine ⟨?_, keeps.trans keeps', ?_, Or.inr ⟨s₁, now, none, ?_, full, nofun⟩⟩
        · rcases outcome with ⟨rfl, _⟩ | ⟨a, rfl, _⟩ <;> rfl
        · rcases outcome with ⟨_, rfl⟩ | ⟨a, rfl, _, rfl⟩
          · exact Or.inl (Or.inr (Or.inr (Or.inl rfl)))
          · cases a with
            | error e => exact Or.inr ⟨⟨.lockStats, .error e⟩, by simp, e, rfl, rfl⟩
            | ok _ => exact Or.inl (Or.inl rfl)
        · rcases outcome with ⟨rfl, _⟩ | ⟨a, rfl, _⟩ <;> rfl
    have cons : ∀ st, FailedWith rest st → FailedWith (⟨.clockTime, .ok time⟩ :: rest) st :=
      fun st failed => failed.append_right [⟨.clockTime, .ok time⟩]
    dsimp only at first
    split at first
    · obtain ⟨unread, keeps, ends, offers⟩ := sends (.refl s) (fun _ => rfl) first
      exact ⟨unread, keeps, ends.imp_right (cons st), offers⟩
    · split at first
      · have keeps : ∀ s₁ : Sender g, s₁ = (if s.pktNext = 0 then
            { s with pktBuf := Bytes.stLong s.pktBuf 0 (htonll (-s.nextSeq)), pktNext := s.pktNext + 16 }
            else s) → Keeps s s₁ ∧ (s.pktNext ≠ 0 → s₁ = s) := by
          rintro s₁ rfl
          split
          · exact ⟨⟨rfl, rfl, Bytes.le_length_poke _ _ _⟩, fun filled => absurd ‹_› filled⟩
          · exact ⟨.refl s, fun _ => rfl⟩
        obtain ⟨keeps, full⟩ := keeps _ rfl
        obtain ⟨unread, keeps', ends, offers⟩ := sends keeps full first
        exact ⟨unread, keeps', ends.imp_right (cons st), offers⟩
      · obtain ⟨rfl, rfl, rfl⟩ := Task.ends_done_pair.mp first
        exact ⟨rfl, .refl _, Or.inl (Or.inl rfl), Or.inl ⟨rfl, fun _ => rfl⟩⟩

/-- Where the queue loop begins, for a head ahead of `last_q_idx`. -/
def scanStart (s : Sender g) (head : Nat) : Nat :=
  if s.lastQIdx + g.qCapacity < head then head - s.lastQIdx - g.qCapacity else s.lastQIdx

/-- The branches of `mcast_on_write`, by the head that it finds: the queue is empty, it is overrun,
or the loop runs. -/
theorem mcastOnWrite_eq (s : Sender g) :
    mcastOnWrite s = .call s .storageGetQueueHead fun (head : Nat) =>
      if head ≤ s.lastQIdx then mcastOnEmptyQueue { s with lastQIdx := head }
      else if s.lastQIdx + g.qCapacity < head ∧ s.ignoreOverrun = false then
        .done (Status.changeQueueOverrun, s)
      else
        (mcastScanQueue { s with lastQIdx := s.scanStart head } (head - s.scanStart head)
          (s.scanStart head)).bind fun (st, s, qi) =>
            .done (if st = Status.blocked then Status.ok else st, { s with lastQIdx := qi }) := by
  unfold mcastOnWrite
  congr 1
  funext (head : Nat)
  dsimp only
  by_cases empty : head ≤ s.lastQIdx
  · rw [if_pos (show ((head : Int) - s.lastQIdx) ≤ 0 by omega), if_pos empty]
    split
    · rfl
    · have same : s.lastQIdx = head := by omega
      rw [← same]
  · have more : ¬ ((head : Int) - s.lastQIdx) ≤ 0 := by omega
    have ahead : ¬ ((head : Int) - s.lastQIdx) < 0 := by omega
    rw [if_neg more, if_neg ahead, if_neg empty]
    by_cases far : s.lastQIdx + g.qCapacity < head
    · have far' : (g.qCapacity : Int) < (head : Int) - s.lastQIdx := by omega
      have jump : ((head : Int) - s.lastQIdx - g.qCapacity).toNat = s.scanStart head := by
        rw [scanStart, if_pos far]
        omega
      simp only [far, far', true_and, ↓reduceIte, jump]
    · have near : ¬ (g.qCapacity : Int) < (head : Int) - s.lastQIdx := by omega
      have start : s.scanStart head = s.lastQIdx := by rw [scanStart, if_neg far]
      simp only [far, near, false_and, ↓reduceIte, start]

/-- What a call of `mcast_on_write` can come to: the queue is empty, it is overrun, or the
loop runs up to the head that was found. -/
theorem mcastOnWrite_ends (h : (mcastOnWrite s).Ends tr (st, s')) :
    ∃ (head : Nat) (rest : Trace g), tr = ⟨.storageGetQueueHead, head⟩ :: rest ∧
    ((head ≤ s.lastQIdx ∧ (mcastOnEmptyQueue { s with lastQIdx := head }).Ends rest (st, s')) ∨
     (s.lastQIdx + g.qCapacity < head ∧ s.ignoreOverrun = false ∧ rest = [] ∧
        st = Status.changeQueueOverrun ∧ s' = s) ∨
     (s.lastQIdx < head ∧ (s.lastQIdx + g.qCapacity < head → s.ignoreOverrun = true) ∧
        ∃ st₁ s₁ q', Pass { s with lastQIdx := s.scanStart head } (s.scanStart head)
            (head - s.scanStart head) rest st₁ s₁ q' ∧
          st = (if st₁ = Status.blocked then Status.ok else st₁) ∧
          s' = { s₁ with lastQIdx := q' })) := by
  rw [mcastOnWrite_eq] at h
  obtain ⟨(head : Nat), rest, rfl, first⟩ := Task.ends_call.mp h
  clear h
  refine ⟨head, rest, rfl, ?_⟩
  by_cases empty : head ≤ s.lastQIdx
  · rw [if_pos empty] at first
    exact Or.inl ⟨empty, first⟩
  · right
    rw [if_neg empty] at first
    by_cases strict : s.lastQIdx + g.qCapacity < head ∧ s.ignoreOverrun = false
    · rw [if_pos strict] at first
      obtain ⟨rfl, rfl, rfl⟩ := Task.ends_done_pair.mp first
      exact Or.inl ⟨strict.1, strict.2, rfl, rfl, rfl⟩
    · rw [if_neg strict] at first
      obtain ⟨⟨st₁, s₁, q'⟩, scan, last, rfl, scans, ends⟩ := Task.ends_bind.mp first
      obtain ⟨rfl, rfl, rfl⟩ := Task.ends_done_pair.mp ends
      rw [List.append_nil]
      refine Or.inr ⟨by omega, fun far => ?_, st₁, s₁, q', mcastScanQueue_ends scans, rfl, rfl⟩
      simpa using fun off => strict ⟨far, off⟩

end Sender

/-! ## Recovery from an overrun -/

/-- A call of `mcast_on_write`: the head of the queue that it finds, and its other calls. -/
structure WriteCall (g : Geometry) where
  before : Sender g
  head : Nat
  trace : Trace g
  status : Int
  after : Sender g

namespace WriteCall

def Runs (call : WriteCall g) : Prop :=
  (mcastOnWrite call.before).Ends (⟨.storageGetQueueHead, call.head⟩ :: call.trace)
    (call.status, call.after)

/-- The lowest position that is neither read yet nor overwritten. -/
def lowest (call : WriteCall g) : Nat := max call.before.lastQIdx (call.head - g.qCapacity)

/-- The call does not move back, visits what is left of the queue from its lowest position
on, and leaves no lapped position ahead. -/
def Recovers (call : WriteCall g) : Prop :=
  call.before.lastQIdx ≤ call.after.lastQIdx ∧ call.head ≤ call.after.lastQIdx + g.qCapacity ∧
  ∃ n, visited call.trace = List.range' call.lowest n ∧ call.lowest + n ≤ call.head

/-- The queue is not overrun, or it is and nothing of it has been read. -/
def Restartable (call : WriteCall g) : Prop :=
  call.head ≤ call.before.lastQIdx + g.qCapacity ∨ call.before.lastQIdx = 0

variable {call : WriteCall g}

/-- Where the loop begins is the lowest position exactly in these cases. -/
theorem scanStart_eq (h : call.Restartable) :
    call.before.scanStart call.head = call.lowest := by
  unfold Sender.scanStart lowest
  rcases h with near | zero
  · rw [if_neg (by omega)]
    omega
  · split <;> omega

theorem scanStart_lt (h : ¬ call.Restartable) :
    call.before.scanStart call.head < call.lowest ∧
      call.before.scanStart call.head < call.head := by
  unfold Restartable at h
  unfold Sender.scanStart lowest
  rw [if_pos (by omega)]
  omega

theorem recovers_iff (runs : call.Runs) (behind : call.before.lastQIdx ≤ call.head)
    (ignores : call.before.ignoreOverrun = true) : call.Recovers ↔ call.Restartable := by
  obtain ⟨head, rest, eq, outcome⟩ := mcastOnWrite_ends runs
  cases eq
  rcases outcome with ⟨empty, ends⟩ | ⟨_, strict, _⟩ | ⟨more, _, st₁, s₁, q', pass, _, after⟩
  · -- an empty queue: nothing is visited
    obtain ⟨unread, ⟨last, _, _⟩, _⟩ := mcastOnEmptyQueue_ends ends
    have same : call.head = call.before.lastQIdx := by omega
    have last : call.after.lastQIdx = call.head := last
    constructor
    · exact fun _ => Or.inl (by omega)
    · intro _
      refine ⟨by omega, by omega, 0, unread, ?_⟩
      unfold lowest
      omega
  · rw [strict] at ignores
    cases ignores
  · have last : call.after.lastQIdx = q' := by rw [after]
    have low := pass.low
    have high := pass.high
    have reads := pass.reads
    constructor
    · rintro ⟨_, _, n, visits, _⟩
      by_contra stuck
      obtain ⟨lower, inside⟩ := scanStart_lt stuck
      -- the first position that is visited lies below the lowest
      obtain ⟨k, visited⟩ : ∃ k, min (call.head - call.before.scanStart call.head)
          (q' - call.before.scanStart call.head + 1) = k + 1 :=
        Nat.exists_eq_succ_of_ne_zero (by omega)
      rw [visited, visits, List.range'_succ] at reads
      cases n with
      | zero => cases reads
      | succ n =>
        rw [List.range'_succ] at reads
        have := (List.cons.inj reads).1
        omega
    · intro fine
      have start := scanStart_eq fine
      rw [start] at low high reads
      refine ⟨?_, ?_, _, reads, ?_⟩
      · unfold lowest at low
        omega
      · unfold lowest at low
        omega
      · unfold lowest at *
        omega

/-- A later call begins where an earlier one ended, or further on. -/
theorem Recovers.ahead {calls : List (WriteCall g)}
    (follow : (call :: calls).IsChain fun a b => b.before.lastQIdx = a.after.lastQIdx)
    (forward : ∀ c ∈ calls, c.before.lastQIdx ≤ c.after.lastQIdx) :
    ∀ c ∈ calls, call.after.lastQIdx ≤ c.before.lastQIdx := by
  induction calls generalizing call with
  | nil =>
    intro c here
    cases here
  | cons next rest ih =>
    have joint := (List.isChain_cons_cons.mp follow).1
    have follow' := (List.isChain_cons_cons.mp follow).2
    intro c here
    rcases List.mem_cons.mp here with rfl | here
    · omega
    · have step := forward next (List.mem_cons_self ..)
      have far := ih follow' (fun c there => forward c (List.mem_cons_of_mem _ there)) c here
      omega

end WriteCall

/-- With overruns ignored, a call that finds `last_q_idx` at or behind the head recovers
exactly when the queue is not overrun or `last_q_idx` is zero. Calls that all do so visit
no position that was lapped at the time of an earlier one. -/
theorem overrun_recovery :
    (∀ call : WriteCall g, call.Runs → call.before.lastQIdx ≤ call.head →
      call.before.ignoreOverrun = true → (call.Recovers ↔ call.Restartable)) ∧
    (∀ calls : List (WriteCall g),
      (∀ c ∈ calls, c.Runs ∧ c.before.lastQIdx ≤ c.head ∧ c.before.ignoreOverrun = true ∧
        c.Restartable) →
      (calls.IsChain fun a b => b.before.lastQIdx = a.after.lastQIdx) →
      calls.Pairwise fun a b => ∀ q ∈ visited b.trace, a.head ≤ q + g.qCapacity) := by
  constructor
  · intro call runs behind ignores
    exact call.recovers_iff runs behind ignores
  · intro calls fine follow
    have recovers : ∀ c ∈ calls, c.Recovers := by
      intro c here
      obtain ⟨runs, behind, ignores, ok⟩ := fine c here
      exact (c.recovers_iff runs behind ignores).mpr ok
    clear fine
    induction calls with
    | nil => exact .nil
    | cons call rest ih =>
      have later : ∀ c ∈ rest, c.Recovers := fun c here => recovers c (List.mem_cons_of_mem _ here)
      refine .cons ?_ (ih follow.tail later)
      intro c here q visits
      have ahead := WriteCall.Recovers.ahead follow (fun c there => (later c there).1) c here
      obtain ⟨_, left, _⟩ := recovers call (List.mem_cons_self ..)
      obtain ⟨_, _, n, reads, _⟩ := later c here
      rw [reads, List.mem_range'_1] at visits
      have : c.before.lastQIdx ≤ c.lowest := le_max_left _ _
      omega

/-- A sender at position `last` of the queue, with overruns ignored. -/
def smallIgnoring (last : Nat) : Sender small :=
  { smallSender with lastQIdx := last, ignoreOverrun := true }

/-- The call at a sender, for a head of the queue and the answers to its further calls. -/
def WriteCall.play (before : Sender g) (head : Nat) (trace : Trace g) : Option (WriteCall g) :=
  ((mcastOnWrite before).result (⟨.storageGetQueueHead, head⟩ :: trace)).map fun (st, after) =>
    ⟨before, head, trace, st, after⟩

theorem WriteCall.play_runs {before : Sender g} {head : Nat} {trace : Trace g} {call : WriteCall g}
    (played : play before head trace = some call) :
    call.Runs ∧ call.before = before ∧ call.head = head := by
  obtain ⟨⟨st, after⟩, eq, rfl⟩ := Option.map_eq_some_iff.mp played
  exact ⟨Task.ends_of_result eq, rfl, rfl⟩

/-- Records 0 and 1 are found behind one another. The first fills a packet, which is sent to make
room for the second, and the call ends with this one staged. -/
def sendsOne (q : Nat) : Trace small :=
  [⟨.storageReadQueue q, .ok 0⟩, ⟨.recordReadLock 0, .ok 3⟩,
    ⟨.recordCopy 0, .ok ⟨3, 7, smallValue 5⟩⟩, ⟨.clockTime, .ok 7⟩, ⟨.latencyOnSample 0, .ok ()⟩,
    ⟨.storageReadQueue (q + 1), .ok 1⟩, ⟨.recordReadLock 1, .ok 4⟩, ⟨.clockTime, .ok 8⟩,
    ⟨.sockSendto (netLong 1 ++ netLong 8 ++ netLong 0 ++ [5]), .ok 25⟩, ⟨.lockStats, .ok ()⟩,
    ⟨.recordCopy 1, .ok ⟨4, 7, smallValue 6⟩⟩, ⟨.clockTime, .ok 8⟩, ⟨.latencyOnSample 1, .ok ()⟩]

/-- Record 1 is looked at again, and has been staged. -/
def skipsOne (q : Nat) : Trace small := [⟨.storageReadQueue q, .ok 1⟩, ⟨.recordReadLock 1, .ok 4⟩]

theorem overrun_recovery_small : ∃ first second : WriteCall small, first.status = 1 ∧
    first.before.lastQIdx + small.qCapacity < first.head ∧ second.after.lastQIdx = 5 ∧
      first.Recovers ∧
    [first, second].Pairwise fun a b => ∀ q ∈ visited b.trace, a.head ≤ q + small.qCapacity := by
  have ends : ((WriteCall.play (smallIgnoring 0) 5 (sendsOne 3)).bind fun first =>
      (WriteCall.play first.after 5 (skipsOne 4)).filter fun second =>
        decide (first.status = 1 ∧ first.after.lastQIdx = 4 ∧ first.after.ignoreOverrun = true ∧
          second.after.lastQIdx = 5)).isSome = true := by
    decide +kernel
  obtain ⟨second, eq⟩ := Option.isSome_iff_exists.mp ends
  obtain ⟨first, played, more⟩ := Option.bind_eq_some_iff.mp eq
  obtain ⟨played', facts⟩ := Option.filter_eq_some_iff.mp more
  obtain ⟨sent, middle, ignores, done⟩ := of_decide_eq_true facts
  obtain ⟨runs, before, head⟩ := WriteCall.play_runs played
  obtain ⟨runs', before', head'⟩ := WriteCall.play_runs played'
  have unread : first.before.lastQIdx = 0 := by rw [before]; rfl
  have fine : first.Runs ∧ first.before.lastQIdx ≤ first.head ∧ first.before.ignoreOverrun = true ∧
      first.Restartable := ⟨runs, by omega, by rw [before]; rfl, Or.inr unread⟩
  refine ⟨first, second, sent, by rw [unread, head]; decide, done,
    (overrun_recovery.1 first fine.1 fine.2.1 fine.2.2.1).mpr fine.2.2.2, ?_⟩
  apply overrun_recovery.2 [first, second]
  · intro c here
    rcases List.mem_cons.mp here with rfl | here
    · exact fine
    · obtain rfl := List.mem_singleton.mp here
      refine ⟨runs', ?_, by rw [before']; exact ignores, Or.inl ?_⟩
      · rw [before', middle, head']
        decide
      · rw [before', middle, head']
        decide
  · simpa using congrArg Sender.lastQIdx before'

/-- At position 100 with the head at 103 and a queue of two entries, the loop begins at
position 1 instead of 101, and ends at position 2. -/
theorem overrun_falls_back :
    ∃ call : WriteCall small, call.Runs ∧ call.before.lastQIdx ≤ call.head ∧
      call.before.ignoreOverrun = true ∧ call.status = 1 ∧ ¬ call.Recovers := by
  have ends : ((WriteCall.play (smallIgnoring 100) 103 (sendsOne 1)).filter fun call =>
      decide (call.status = 1 ∧ call.after.lastQIdx = 2)).isSome = true := by
    decide +kernel
  obtain ⟨call, eq⟩ := Option.isSome_iff_exists.mp ends
  obtain ⟨played, facts⟩ := Option.filter_eq_some_iff.mp eq
  obtain ⟨sent, after⟩ := of_decide_eq_true facts
  obtain ⟨runs, before, head⟩ := WriteCall.play_runs played
  refine ⟨call, runs, by rw [before, head]; decide, by rw [before]; rfl, sent, ?_⟩
  rintro ⟨back, _⟩
  rw [before, after] at back
  exact absurd back (by decide)

end Lancaster
