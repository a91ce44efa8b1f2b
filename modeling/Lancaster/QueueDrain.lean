import Lancaster.Dispatch
import Lancaster.PacketCodec

/-!
# Draining the change queue

While nothing is written and nothing fails, `mcast_on_write` is repeated until the sender has caught
up with the queue. A call that has sent a packet stops at the entry that it could not stage before;
the next call finds the record of that entry unchanged and goes on.
-/

namespace Lancaster

open Bytes Interleaving Sender

variable {g : Geometry}

/-- The answers that `mcast_on_write` gets while nothing is written and nothing fails. The calls of
the other handlers are not looked at. -/
def Steady (store : Storage g) : (c : Call) × c.Ans g → Prop
  | ⟨.storageGetQueueHead, head⟩ => head = store.qHead
  | ⟨.storageReadQueue q, a⟩ => a = store.storageReadQueue g.qCapacity q
  | ⟨.recordReadLock id, a⟩ => a = .ok (store.record id).rev
  | ⟨.recordCopy id, a⟩ => a = .ok (store.record id)
  | ⟨c, a⟩ => c.ofMcast → failure ⟨c, a⟩ = none

def steadyAnswer (store : Storage g) : (c : Call) → c.Ans g
  | .clockTime => .ok (0 : Int)
  | .lockStats => .ok ()
  | .latencyOnSample _ => .ok ()
  | .sockSendto _ => .ok (0 : Nat)
  | .storageGetQueueHead => store.qHead
  | .storageReadQueue q => store.storageReadQueue g.qCapacity q
  | .recordReadLock id => .ok (store.record id).rev
  | .recordCopy id => .ok (store.record id)
  | .sockRead _ _ => .error .blocked
  | .sockWrite _ _ => .error .blocked
  | .lib _ => .error .blocked

def window (store : Storage g) (q : Nat) : List Int :=
  (List.range' q (store.qHead - q)).map fun p => store.changeQ (Storage.slot g.qCapacity p)

/-- The records of `ids` whose revision is not the one in `revs`, each at its first occurrence. -/
def changed (store : Storage g) (revs : Int → Int) (ids : List Int) : List Int :=
  (ids.filter fun id => decide ((store.record id).rev ≠ revs (id - g.baseId))).eraseDups

def current (store : Storage g) (ids : List Int) : List (Int × Value g) :=
  ids.map fun id => (id, (store.record id).val)

def due (store : Storage g) (s : Sender g) (q : Nat) : List Int :=
  changed store s.recordRevs (window store q)

section Due

variable {store : Storage g} {revs : Int → Int} {id : Int} {ids : List Int}

theorem changed_cons_same (same : (store.record id).rev = revs (id - g.baseId)) :
    changed store revs (id :: ids) = changed store revs ids := by
  rw [changed, List.filter_cons_of_neg (by simp [same])]
  rfl

/-- A changed record is staged once, whatever comes behind it. -/
theorem changed_cons_new (new : (store.record id).rev ≠ revs (id - g.baseId)) :
    changed store revs (id :: ids) = id :: changed store
      (fun i => if i = id - g.baseId then (store.record id).rev else revs i) ids := by
  rw [changed, List.filter_cons_of_pos (by simpa using new), List.eraseDups_cons, List.filter_filter,
    changed]
  congr 2
  apply List.filter_congr
  intro x _
  by_cases same : x = id
  · simp [same]
  · have apart : x - g.baseId ≠ id - g.baseId := by omega
    simp [same, apart]

theorem window_succ {q : Nat} (more : q < store.qHead) :
    window store q = store.changeQ (Storage.slot g.qCapacity q) :: window store (q + 1) := by
  have count : store.qHead - q = (store.qHead - (q + 1)) + 1 := by omega
  rw [window, count, List.range'_succ]
  rfl

theorem window_end : window store store.qHead = [] := by simp [window]

theorem mem_window_of_le {q q' : Nat} (le : q ≤ q') (here : id ∈ window store q') :
    id ∈ window store q := by
  obtain ⟨p, inside, rfl⟩ := List.mem_map.mp here
  rw [List.mem_range'_1] at inside
  apply List.mem_map.mpr
  refine ⟨p, List.mem_range'_1.mpr ?_, rfl⟩
  omega

end Due

/-! ## One call -/

section Calls

variable {store : Storage g} {s s' : Sender g} {l l' : Ledger g} {q q' : Nat}

theorem Steady.sockets (store : Storage g) : OnlySockets (Steady store) := by
  rintro ⟨c, a⟩ steady blocked
  cases c with
  | sockSendto data | sockRead c n | sockWrite c data | lib f => rfl
  | storageGetQueueHead => cases blocked
  | storageReadQueue q =>
    obtain rfl : a = store.storageReadQueue g.qCapacity q := steady
    unfold Storage.storageReadQueue at blocked
    split at blocked
    · exact absurd (Option.some.inj blocked) (by decide)
    · cases blocked
  | recordReadLock id =>
    obtain rfl : a = .ok (store.record id).rev := steady
    cases blocked
  | recordCopy id =>
    obtain rfl : a = .ok (store.record id) := steady
    cases blocked
  | clockTime | lockStats | latencyOnSample d =>
    rw [steady rfl] at blocked
    cases blocked

/-- Nothing fails as long as there is a queue. -/
theorem Steady.reliable (store : Storage g) (queue : g.qCapacity ≠ 0) :
    ¬ Unreliable (Steady store) := by
  rintro ⟨⟨c, a⟩, steady, own, failed⟩
  cases c with
  | sockRead c n | sockWrite c data | lib f => cases own
  | storageGetQueueHead => cases failed
  | storageReadQueue q =>
    obtain rfl : a = store.storageReadQueue g.qCapacity q := steady
    rw [Storage.storageReadQueue, if_neg queue] at failed
    cases failed
  | recordReadLock id =>
    obtain rfl : a = .ok (store.record id).rev := steady
    cases failed
  | recordCopy id =>
    obtain rfl : a = .ok (store.record id) := steady
    cases failed
  | clockTime | lockStats | latencyOnSample d | sockSendto data =>
    rw [steady rfl] at failed
    cases failed

theorem steady_answer (c : Call) : Steady store ⟨c, steadyAnswer store c⟩ := by
  cases c with
  | sockRead c n | sockWrite c data | lib f => exact nofun
  | _ => first | rfl | exact fun _ => rfl

theorem steady_answered {β : Type} {t : SenderTask g β} {r : (c : Call) × c.Ans g}
    (here : r ∈ (t.answered (steadyAnswer store)).1) : Steady store r := by
  obtain ⟨c, a⟩ := r
  obtain rfl : a = steadyAnswer store c := Task.mem_answered here
  exact steady_answer c

theorem Steady.read {id : Int} (queue : g.qCapacity ≠ 0)
    (h : Steady store ⟨.storageReadQueue q, .ok id⟩) :
    id = store.changeQ (Storage.slot g.qCapacity q) := by
  have answer : Except.ok id = store.storageReadQueue g.qCapacity q := h
  rw [Storage.storageReadQueue, if_neg queue] at answer
  exact Except.ok.inj answer

theorem Steady.changes {id : Int} :
    Changes (Steady store) s id ↔ (store.record id).rev ≠ s.recordRevs (id - g.baseId) := by
  constructor
  · rintro ⟨rev, steady, differs⟩
    obtain rfl : rev = (store.record id).rev := Except.ok.inj steady
    exact differs
  · intro differs
    exact ⟨_, rfl, differs⟩

/-- The way from position `q` to position `q'`: what is staged on it is no longer due, and
each packet sent has taken a sequence. -/
structure Onward (store : Storage g) (s : Sender g) (q : Nat) (l : Ledger g)
    (s' : Sender g) (q' : Nat) (l' : Ledger g) : Prop where
  low : q ≤ q'
  high : q' ≤ store.qHead
  on : l'.mcast = true
  total : l'.total ++ current store (due store s' q') = l.total ++ current store (due store s q)
  seqs : s'.nextSeq + (due store s' q').length ≤ s.nextSeq + (due store s q).length

/-- How a scan ends. It stops before the end of the queue only if it has sent a packet and staged a
record, or if there is no sequence left. -/
def DrainPost (store : Storage g) (s : Sender g) (q : Nat) (l : Ledger g) (r : Int × Sender g × Nat)
    (l' : Ledger g) : Prop :=
  (r.1 = Status.sequenceOverflow ∧ r.2.2 < store.qHead ∧
    sequenceMax ≤ s.nextSeq + (due store s q).length) ∨
  ((r.1 = 0 ∨ r.1 = 1) ∧ Onward store s q l r.2.1 r.2.2 l' ∧
    (r.2.2 = store.qHead ∨ (due store r.2.1 r.2.2).length < (due store s q).length))

theorem Onward.trans {s₁ : Sender g} {l₁ : Ledger g} {q₁ : Nat} (h : Onward store s q l s₁ q₁ l₁)
    (h' : Onward store s₁ q₁ l₁ s' q' l') : Onward store s q l s' q' l' := by
  refine ⟨h.low.trans h'.low, h'.high, h'.on, h'.total.trans h.total, ?_⟩
  exact h'.seqs.trans h.seqs

/-- A step before a scan. -/
theorem Onward.then {s₁ : Sender g} {l₁ : Ledger g} {q₁ : Nat} {r : Int × Sender g × Nat}
    (h : Onward store s q l s₁ q₁ l₁) (fewer : (due store s₁ q₁).length ≤ (due store s q).length)
    (rest : DrainPost store s₁ q₁ l₁ r l') : DrainPost store s q l r l' := by
  rcases rest with ⟨overflow, before, spent⟩ | ⟨plain, onward, ended⟩
  · exact Or.inl ⟨overflow, before, spent.trans h.seqs⟩
  · refine Or.inr ⟨plain, h.trans onward, ended.imp id fun less => ?_⟩
    exact less.trans_le fewer

theorem due_same (more : q < store.qHead)
    (same : (store.record (store.changeQ (Storage.slot g.qCapacity q))).rev =
      s.recordRevs (store.changeQ (Storage.slot g.qCapacity q) - g.baseId)) :
    due store s q = due store s (q + 1) := by
  rw [due, window_succ more, changed_cons_same same]
  rfl

theorem due_new {id : Int} (more : q < store.qHead)
    (read : id = store.changeQ (Storage.slot g.qCapacity q))
    (new : (store.record id).rev ≠ s.recordRevs (id - g.baseId))
    (revs : s'.recordRevs =
      fun i => if i = id - g.baseId then (store.record id).rev else s.recordRevs i) :
    due store s q = id :: due store s' (q + 1) := by
  rw [due, window_succ more, ← read, changed_cons_new new, ← revs]
  rfl

/-- The entry that has just been staged is passed. -/
theorem due_staged {id : Int} (more : q < store.qHead)
    (read : id = store.changeQ (Storage.slot g.qCapacity q))
    (revs : s'.recordRevs =
      fun i => if i = id - g.baseId then (store.record id).rev else s.recordRevs i) :
    due store s' q = due store s' (q + 1) := by
  apply due_same more
  rw [← read, revs]
  exact (if_pos rfl).symm

/-- A record is looked at: it is passed, or staged, or there is no sequence left for it. -/
theorem Sender.AccumPost.onward {id st : Int}
    (looked : Sender.AccumPost (Steady store) s id l (st, s') l')
    (queue : g.qCapacity ≠ 0) (more : q < store.qHead)
    (read : id = store.changeQ (Storage.slot g.qCapacity q)) (holds : g.Holds id)
    (on : l.mcast = true) :
    (st = Status.sequenceOverflow ∧ sequenceMax ≤ s.nextSeq + (due store s q).length) ∨
    (st = 0 ∧ Onward store s q l s' (q + 1) l' ∧
      (due store s' (q + 1)).length ≤ (due store s q).length) ∨
    (st = 1 ∧ Onward store s q l s' q l' ∧ (due store s' q).length < (due store s q).length) := by
  have reliable := Steady.reliable store queue
  rcases looked with ⟨failed, cause, _⟩ | ⟨rfl, same, unmoved, rfl⟩ | ⟨rec, changes, copied, takes⟩
  · rcases cause with broken | unknown | ⟨broken | ⟨overflow, limit⟩, changes⟩
    · exact absurd broken reliable
    · exact absurd holds unknown
    · exact absurd broken reliable
    · refine Or.inl ⟨overflow, ?_⟩
      have first : due store s q = id :: due store { s with recordRevs := fun i =>
          if i = id - g.baseId then (store.record id).rev else s.recordRevs i } (q + 1) :=
        due_new more read (Steady.changes.mp changes) rfl
      rw [first, List.length_cons]
      omega
  · obtain rfl : s = s' := unmoved.symm
    have rev : s.recordRevs (id - g.baseId) = (store.record id).rev := Except.ok.inj same
    have pass : due store s q = due store s (q + 1) := due_same more (by rw [← read, rev])
    refine Or.inr (Or.inl ⟨rfl, ⟨Nat.le_succ q, more, on, ?_, ?_⟩, ?_⟩)
    · rw [pass]
    · rw [pass]
    · rw [pass]
  · obtain rfl : rec = store.record id := Except.ok.inj copied
    have first : due store s q = id :: due store s' (q + 1) :=
      due_new more read (Steady.changes.mp changes) takes.revs
    have next := takes.next
    have total : l'.total ++ current store (due store s' (q + 1)) =
        l.total ++ current store (due store s q) := by
      rw [first, takes.total, List.append_assoc]
      rfl
    dsimp only at next
    rcases takes.plain with rfl | rfl
    · refine Or.inr (Or.inl ⟨rfl, ⟨Nat.le_succ q, more, takes.on, total, ?_⟩, ?_⟩)
      · rw [first, List.length_cons]
        omega
      · rw [first, List.length_cons]
        exact Nat.le_succ _
    · have staged : due store s' q = due store s' (q + 1) := due_staged more read takes.revs
      refine Or.inr (Or.inr ⟨rfl, ⟨le_refl q, le_of_lt more, takes.on, ?_, ?_⟩, ?_⟩)
      · rw [staged]
        exact total
      · rw [staged, first, List.length_cons]
        omega
      · rw [staged, first, List.length_cons]
        exact Nat.lt_succ_self _

theorem Sender.Scans.drains {n : Nat} {r : Int × Sender g × Nat}
    (h : Scans (Steady store) s l q n r l') (queue : g.qCapacity ≠ 0) (size : q + n = store.qHead)
    (ids : ∀ id ∈ window store q, g.Holds id) (on : l.mcast = true) :
    DrainPost store s q l r l' := by
  induction h with
  | drained =>
    have caught : _ = store.qHead := size
    exact Or.inr ⟨Or.inl rfl, ⟨le_refl _, le_of_eq caught, on, rfl, le_refl _⟩, Or.inl caught⟩
  | unread failed =>
    have broken : Unreliable (Steady store) := ⟨_, failed, rfl, rfl⟩
    exact absurd broken (Steady.reliable store queue)
  | @stopped s s' l l' q n id st read looked stop =>
    have more : q < store.qHead := by omega
    have this : id = store.changeQ (Storage.slot g.qCapacity q) := Steady.read queue read
    have holds : g.Holds id := ids id (by rw [window_succ more, this]; exact List.mem_cons_self ..)
    rcases Sender.AccumPost.onward looked queue more this holds on with
      ⟨overflow, spent⟩ | ⟨zero, _, _⟩ | ⟨one, onward, fewer⟩
    · exact Or.inl ⟨overflow, more, spent⟩
    · exact absurd zero stop
    · exact Or.inr ⟨Or.inr one, onward, Or.inr fewer⟩
  | @passed s s₁ l l₁ l' q n id r read looked rest ih =>
    have more : q < store.qHead := by omega
    have this : id = store.changeQ (Storage.slot g.qCapacity q) := Steady.read queue read
    have holds : g.Holds id := ids id (by rw [window_succ more, this]; exact List.mem_cons_self ..)
    rcases Sender.AccumPost.onward looked queue more this holds on with
      ⟨overflow, _⟩ | ⟨_, onward, fewer⟩ | ⟨one, _, _⟩
    · cases overflow
    · have later := ih (by omega) (fun id here => ids id (mem_window_of_le (Nat.le_succ q) here)) onward.on
      exact onward.then fewer later
    · cases one

/-- As long as the queue is not drained, a call scans it from where the sender is. -/
theorem Sender.Writes.scans {r : Int × Sender g} (h : Writes (Steady store) s l r l')
    (more : s.lastQIdx < store.qHead) (near : store.qHead ≤ s.lastQIdx + g.qCapacity) :
    ∃ st s₁ q, Scans (Steady store) s l s.lastQIdx (store.qHead - s.lastQIdx) (st, s₁, q) l' ∧
      r = (if st = Status.blocked then Status.ok else st, { s₁ with lastQIdx := q }) := by
  cases h with
  | @idle head r l' found empty post =>
    obtain rfl : head = store.qHead := found
    omega
  | @overrun head found far =>
    obtain rfl : head = store.qHead := found
    omega
  | @scanned head q st s₁ l' found _ scans =>
    obtain rfl : head = store.qHead := found
    have start : s.scanStart store.qHead = s.lastQIdx := by
      rw [scanStart, if_neg (by omega)]
    rw [start] at scans
    exact ⟨st, s₁, q, scans, rfl⟩

/-- One call, as long as the queue is not drained. -/
theorem Sender.Writes.drains {r : Int × Sender g} (h : Writes (Steady store) s l r l')
    (more : s.lastQIdx < store.qHead) (near : store.qHead ≤ s.lastQIdx + g.qCapacity)
    (ids : ∀ id ∈ window store s.lastQIdx, g.Holds id) (on : l.mcast = true) :
    DrainPost store s s.lastQIdx l (r.1, r.2, r.2.lastQIdx) l' := by
  obtain ⟨st, s₁, q, scans, rfl⟩ := h.scans more near
  have post := scans.drains (by omega) (by omega) ids on
  have plain : st ≠ Status.blocked := by
    rcases post with ⟨rfl, _⟩ | ⟨rfl | rfl, _⟩
    · exact overflow_hard.2
    · decide
    · decide
  rw [if_neg plain]
  rcases post with spent | ⟨moved, onward, ended⟩
  · exact Or.inl spent
  · exact Or.inr ⟨moved, ⟨onward.low, onward.high, onward.on, onward.total, onward.seqs⟩, ended⟩

end Calls

/-! ## Repeated calls -/

/-- `mcast_on_write` is repeated until the queue is drained or a call fails: the answers of the
calls, and the status and the sender that the last one leaves. -/
inductive Repeated (store : Storage g) (s : Sender g) : List (Trace g) → Int × Sender g → Prop where
  | start : Repeated store s [] (Status.ok, s)
  | again {trs : List (Trace g)} {tr : Trace g} {st : Int} {s₁ : Sender g} {r : Int × Sender g}
      (before : Repeated store s trs (st, s₁)) (fine : ¬ Status.Failed st)
      (more : s₁.lastQIdx ≠ store.qHead) (ends : (mcastOnWrite s₁).Ends tr r)
      (steady : ∀ x ∈ tr, Steady store x) : Repeated store s (trs ++ [tr]) r

def steadyCall (store : Storage g) (s : Sender g) : Trace g × Int × Sender g :=
  (mcastOnWrite s).answered (steadyAnswer store)

/-- What the observer has noted over some calls, from a packet with what is staged on. -/
def notes (s : Sender g) (trs : List (Trace g)) : Ledger g :=
  trs.flatten.foldl Ledger.note ⟨true, s.staged, []⟩

theorem notes_append (s : Sender g) (trs : List (Trace g)) (tr : Trace g) :
    notes s (trs ++ [tr]) = tr.foldl Ledger.note (notes s trs) := by
  rw [notes, List.flatten_append, List.foldl_append]
  simp [notes]

section Repeated

variable {store : Storage g} {s s' : Sender g} {trs : List (Trace g)}

structure Ongoing (store : Storage g) (s : Sender g) (trs : List (Trace g)) (s' : Sender g) :
    Prop where
  sound : (notes s trs).Sound
  loaded : Loaded s' (notes s trs).staged
  onward : Onward store s s.lastQIdx (notes s []) s' s'.lastQIdx (notes s trs)
  count : s'.lastQIdx ≠ store.qHead →
    trs.length + (due store s' s'.lastQIdx).length ≤ (due store s s.lastQIdx).length
  bound : trs.length ≤ (due store s s.lastQIdx).length + 1

/-- The last call has found no sequence for another packet. -/
structure Exhausted (store : Storage g) (s : Sender g) (trs : List (Trace g)) (st : Int)
    (s' : Sender g) : Prop where
  status : st = Status.sequenceOverflow
  before : s'.lastQIdx ≠ store.qHead
  spent : sequenceMax ≤ s.nextSeq + (due store s s.lastQIdx).length
  bound : trs.length ≤ (due store s s.lastQIdx).length + 1

theorem Ongoing.start (loaded : Loaded s s.staged) (behind : s.lastQIdx ≤ store.qHead) :
    Ongoing store s [] s where
  sound := nofun
  loaded := loaded
  onward := ⟨le_refl _, behind, rfl, rfl, le_refl _⟩
  count := fun _ => by simp
  bound := by simp

/-- One more call. -/
theorem Ongoing.again (h : Ongoing store s trs s') (near : store.qHead ≤ s.lastQIdx + g.qCapacity)
    (ids : ∀ id ∈ window store s.lastQIdx, g.Holds id) (more : s'.lastQIdx ≠ store.qHead)
    {tr : Trace g} {r : Int × Sender g} (ends : (mcastOnWrite s').Ends tr r)
    (steady : ∀ x ∈ tr, Steady store x) :
    Exhausted store s (trs ++ [tr]) r.1 r.2 ∨
      (¬ Status.Failed r.1 ∧ Ongoing store s (trs ++ [tr]) r.2) := by
  obtain ⟨sound, loaded, onward, count, _⟩ := h
  have low := onward.low
  have high := onward.high
  have counted := count more
  obtain ⟨sound', writes⟩ :=
    (mcastOnWrite_along (Steady.sockets store) onward.on sound loaded).ends ends steady
  rw [← notes_append] at sound' writes
  have length : (trs ++ [tr]).length = trs.length + 1 := by simp
  have post := writes.drains (by omega) (by omega)
    (fun id here => ids id (mem_window_of_le low here)) onward.on
  rcases post with ⟨overflow, before, spent⟩ | ⟨plain, onward', ended⟩
  · exact Or.inl ⟨overflow, ne_of_lt before, spent.trans onward.seqs, by omega⟩
  · dsimp only at plain onward' ended
    have fine : ¬ Status.Failed r.1 := by
      rcases plain with plain | plain
      · rw [plain]
        decide
      · rw [plain]
        decide
    refine Or.inr ⟨fine, sound', writes.loaded loaded fine, onward.trans onward', ?_, by omega⟩
    intro notYet
    have fewer := ended.resolve_left notYet
    omega

theorem Repeated.outcome {r : Int × Sender g} (h : Repeated store s trs r)
    (loaded : Loaded s s.staged)
    (behind : s.lastQIdx ≤ store.qHead) (near : store.qHead ≤ s.lastQIdx + g.qCapacity)
    (ids : ∀ id ∈ window store s.lastQIdx, g.Holds id) :
    Exhausted store s trs r.1 r.2 ∨ (¬ Status.Failed r.1 ∧ Ongoing store s trs r.2) := by
  induction h with
  | start => exact Or.inr ⟨not_failed_ok, .start loaded behind⟩
  | again _ fine more ends steady ih =>
    rcases ih with ⟨rfl, _⟩ | ⟨_, ongoing⟩
    · exact absurd overflow_hard.1 fine
    · exact ongoing.again near ids more ends steady

/-- As long as the queue is not drained, another call is possible. -/
theorem Repeated.steadily {r : Int × Sender g} (h : Repeated store s trs r)
    (fine : ¬ Status.Failed r.1) (more : r.2.lastQIdx ≠ store.qHead) :
    Repeated store s (trs ++ [(steadyCall store r.2).1]) (steadyCall store r.2).2 :=
  .again h fine more (Task.ends_answered (steadyAnswer store) _) fun _ => steady_answered

end Repeated

/-- From every state between two handlers, however the calls are answered while nothing is written
and nothing fails: `mcast_on_write` is repeated at most once for each changed record of the queue,
and once more. It ends with the queue drained, unless the packets on the way use up the sequences.
Once the queue is drained, exactly the changed records have been staged behind what was staged
before, each once, in the order of their first entries and with their current values: the datagrams
carry them, and the packet holds the rest. -/
theorem queue_drained {ifaceMtu mtu : Nat} {buf : List UInt8} {ignoreOverrun : Bool}
    {heartbeatUsec maxPktAgeUsec now : Int} {store₀ : Storage g} {peers : Nat → Peer g}
    (created : initMtu g ifaceMtu = .ok mtu) (len : buf.length = mtu) {x : Conf (openEnv g).host}
    (reached : (openEnv g).host.Reachable ((openEnv g).idleConf
      (Sender.init mtu buf ignoreOverrun heartbeatUsec maxPktAgeUsec now)
      (World.start store₀ peers)) x)
    {a : Turn g} (idle : x.task = .done a) (alive : a.hasQuit = false)
    (fine : ¬ Status.Failed a.status) (behind : a.sndr.lastQIdx ≤ x.world.store.qHead)
    (near : x.world.store.qHead ≤ a.sndr.lastQIdx + g.qCapacity)
    (ids : ∀ id ∈ window x.world.store a.sndr.lastQIdx, g.Holds id)
    {trs : List (Trace g)} {st : Int} {s' : Sender g}
    (calls : Repeated x.world.store a.sndr trs (st, s')) :
    let todo := due x.world.store a.sndr a.sndr.lastQIdx
    trs.length ≤ todo.length + 1 ∧
    (Status.Failed st →
      st = Status.sequenceOverflow ∧ sequenceMax ≤ a.sndr.nextSeq + todo.length) ∧
    (¬ Status.Failed st → s'.lastQIdx ≠ x.world.store.qHead →
      ∃ tr r, Repeated x.world.store a.sndr (trs ++ [tr]) r) ∧
    (s'.lastQIdx = x.world.store.qHead →
      (notes a.sndr trs).total = a.sndr.staged ++ current x.world.store todo ∧
      (notes a.sndr trs).Sound ∧ s'.staged = (notes a.sndr trs).staged) := by
  intro todo
  obtain ⟨roomy, small⟩ := initMtu_ok created
  have loaded := loaded_of_rest
    (rest_of_reachable (streamInv_empty roomy small len) reached idle alive fine)
  have outcome := calls.outcome loaded behind near ids
  refine ⟨?_, ?_, fun ended more => ⟨_, _, calls.steadily ended more⟩, ?_⟩
  · rcases outcome with exhausted | ⟨_, ongoing⟩
    · exact exhausted.bound
    · exact ongoing.bound
  · intro failed
    rcases outcome with exhausted | ⟨notFailed, _⟩
    · exact ⟨exhausted.status, exhausted.spent⟩
    · exact absurd failed notFailed
  · intro drained
    rcases outcome with exhausted | ⟨_, ongoing⟩
    · exact absurd drained exhausted.before
    · refine ⟨?_, ongoing.sound, ongoing.loaded.staged_eq⟩
      have total := ongoing.onward.total
      dsimp only at total drained
      rw [drained, due, window_end] at total
      simpa [notes, Ledger.total, changed, current] using total

def twoWritten : List (Choice (openEnv small).host) :=
  acceptFirst (openEnv small) 0 0 ++
  [.move (OpenMove.commit 0 ⟨1, 0, smallValue 7⟩), .move (OpenMove.commit 1 ⟨1, 0, smallValue 8⟩),
   .move (OpenMove.queue 2 fun p => p)]

/-- Two calls drain a queue of two changed records: the first one stops at the second record. -/
def drainsInTwo (x : Conf (openEnv small).host) : Bool :=
  match x.task with
  | .done a =>
    let store := x.world.store
    let first := steadyCall store a.sndr
    let second := steadyCall store first.2.2
    a.hasQuit = false ∧ a.status = Status.ok ∧ a.sndr.clientCount = 1 ∧ a.sndr.lastQIdx = 0 ∧
      store.qHead = 2 ∧ window store a.sndr.lastQIdx = [0, 1] ∧
      due store a.sndr a.sndr.lastQIdx = [0, 1] ∧ first.2.1 = 1 ∧ first.2.2.lastQIdx = 1 ∧
        second.2.2.lastQIdx = 2
  | .call _ _ _ => false

theorem queue_drained_small : ∃ (x : Conf (openEnv small).host) (a : Turn small)
    (trs : List (Trace small)) (r : Int × Sender small),
    (openEnv small).host.Reachable ((openEnv small).idleConf smallSender (World.init smallStore)) x ∧
    x.task = .done a ∧ a.sndr.clientCount = 1 ∧ due x.world.store a.sndr a.sndr.lastQIdx = [0, 1] ∧
    Repeated x.world.store a.sndr trs r ∧ trs.length = 2 ∧
    (notes a.sndr trs).total = a.sndr.staged ++ current x.world.store [0, 1] := by
  have run : ((openEnv small).host.run twoWritten
      ((openEnv small).idleConf smallSender (World.init smallStore))).any drainsInTwo = true := by
    decide +kernel
  obtain ⟨x, reached, two⟩ := Host.reach_of_any _ twoWritten (fun _ _ _ _ _ => trivial) run
  unfold drainsInTwo at two
  split at two
  · rename_i a idle
    obtain ⟨alive, fine, count, last, head, ids, todo, stopped, passed, caught⟩ :=
      of_decide_eq_true two
    have none_yet : Repeated x.world.store a.sndr [] (Status.ok, a.sndr) := .start
    have first := none_yet.steadily not_failed_ok (by rw [last, head]; decide)
    have second := first.steadily (by rw [stopped]; decide) (by rw [passed, head]; decide)
    have drained := queue_drained (by rfl : initMtu small 53 = .ok 25) (by rfl) reached idle alive
      (by rw [fine]; decide) (by omega) (by rw [last, head]; decide) (by rw [ids]; decide) second
    have all := (drained.2.2.2 (by rw [head]; exact caught)).1
    rw [todo] at all
    exact ⟨x, a, _, _, reached, idle, count, todo, second, rfl, all⟩
  · cases two

/-! ## The last sequence

A sender whose packets hold one record sends one for each update, until a packet takes the last
sequence. -/

/-- The answers of a world at rest are given if no record is locked. -/
theorem reply_steady {store : Storage g} (free : ∀ id, 0 ≤ (store.record id).rev) (c : Call)
    (w : World g) (same : w.store = store) :
    ∃ w', (openEnv g).host.reply c (steadyAnswer store c) w = some w' ∧ w'.store = store := by
  subst same
  cases c with
  | storageGetQueueHead => exact ⟨w, if_pos rfl, rfl⟩
  | storageReadQueue q =>
    refine ⟨w, ?_, rfl⟩
    simp only [Env.host, openEnv, World.reply, steadyAnswer, Storage.storageReadQueue]
    by_cases unqueued : g.qCapacity = 0
    · simp [unqueued]
    · simp [unqueued]
  | recordReadLock id => exact ⟨w, if_pos ⟨free id, rfl⟩, rfl⟩
  | recordCopy id => exact ⟨w, if_pos ⟨free id, rfl⟩, rfl⟩
  | sockSendto data => exact ⟨_, rfl, rfl⟩
  | lib f => cases f <;> exact ⟨w, rfl, rfl⟩
  | _ => exact ⟨w, rfl, rfl⟩

/-- A call of `mcast_on_write` in a run. -/
theorem reach_steadyCall {x : Conf (openEnv g).host} {a : Turn g} (idle : x.task = .done a)
    (alive : a.hasQuit = false) (fine : ¬ Status.Failed a.status)
    (free : ∀ id, 0 ≤ (x.world.store.record id).rev) :
    ∃ y : Conf (openEnv g).host, (openEnv g).host.Reachable x y ∧
      y.task = .done (turn false (steadyCall x.world.store a.sndr).2) ∧
      y.world.store = x.world.store := by
  have starts : (openEnv g).host.next (.start Event.mcast) x =
      some ⟨some Event.mcast, a.sndr.handle .mcast, x.world⟩ := by
    have able : ¬ (a.hasQuit = true ∨ (Status.Failed a.status ∧ isQuit Event.mcast = false)) := by
      rintro (quit | ⟨failed, _⟩)
      · rw [alive] at quit
        cases quit
      · exact fine failed
    simp only [Host.next, idle, Env.host, able, ↓reduceIte]
    rfl
  obtain ⟨w, run, same⟩ := Host.reach_answered (reply_steady free) (some Event.mcast)
    (a.sndr.handle .mcast) rfl
  refine ⟨_, Host.Reach.trans _ (.step _ .refl starts trivial) run, ?_, same⟩
  show Task.done _ = _
  rw [handle, Task.answered_bind]
  rfl

section Single

variable {store : Storage g} {s : Sender g} {l l' : Ledger g} {r : Int × Sender g}

/-- A call that finds one entry in the queue. -/
theorem Sender.Writes.single (h : Writes (Steady store) s l r l') (queue : g.qCapacity ≠ 0)
    (one : store.qHead = s.lastQIdx + 1) :
    ∃ st s₁, Sender.AccumPost (Steady store) s (store.changeQ (Storage.slot g.qCapacity s.lastQIdx)) l
        (st, s₁) l' ∧
      r = (if st = Status.blocked then Status.ok else st,
        { s₁ with lastQIdx := if st = 0 then store.qHead else s.lastQIdx }) := by
  obtain ⟨st, s₁, q, scans, rfl⟩ := h.scans (by omega) (by omega)
  have count : store.qHead - s.lastQIdx = 0 + 1 := by omega
  rw [count] at scans
  cases scans with
  | unread failed =>
    have broken : Unreliable (Steady store) := ⟨_, failed, rfl, rfl⟩
    exact absurd broken (Steady.reliable store queue)
  | stopped read looked stop =>
    obtain rfl := Steady.read queue read
    exact ⟨st, s₁, looked, by rw [if_neg stop]⟩
  | passed read looked rest =>
    obtain rfl := Steady.read queue read
    cases rest
    exact ⟨0, s₁, looked, by rw [one]; rfl⟩

/-- A record that has not changed is passed. -/
theorem Sender.Writes.known {id : Int} (h : Writes (Steady store) s l r l')
    (queue : g.qCapacity ≠ 0)
    (one : store.qHead = s.lastQIdx + 1)
    (entry : store.changeQ (Storage.slot g.qCapacity s.lastQIdx) = id)
    (holds : g.Holds id) (same : (store.record id).rev = s.recordRevs (id - g.baseId)) :
    r = (0, { s with lastQIdx := store.qHead }) := by
  obtain ⟨st, s₁, looked, rfl⟩ := h.single queue one
  rw [entry] at looked
  have unchanged : ¬ Changes (Steady store) s id := fun changes => Steady.changes.mp changes same
  rcases looked with ⟨_, cause, _⟩ | ⟨rfl, _, unmoved, rfl⟩ | ⟨_, changes, _⟩
  · rcases cause with broken | unknown | ⟨_, changes⟩
    · exact absurd broken (Steady.reliable store queue)
    · exact absurd holds unknown
    · exact absurd changes unchanged
  · obtain rfl : s = s₁ := unmoved.symm
    rfl
  · exact absurd changes unchanged

/-- A changed record that finds a full packet. -/
theorem Sender.Writes.flushes {id : Int} (h : Writes (Steady store) s l r l')
    (queue : g.qCapacity ≠ 0) (one : store.qHead = s.lastQIdx + 1)
    (entry : store.changeQ (Storage.slot g.qCapacity s.lastQIdx) = id) (holds : g.Holds id)
    (new : (store.record id).rev ≠ s.recordRevs (id - g.baseId)) (tight : Tight s) :
    r.2.lastQIdx = s.lastQIdx ∧
    ((r.1 = Status.sequenceOverflow ∧ s.nextSeq + 1 = sequenceMax) ∨
     (r.1 = 1 ∧ r.2.nextSeq = s.nextSeq + 1 ∧ r.2.mcastMtu = s.mcastMtu ∧
       r.2.recordRevs (id - g.baseId) = (store.record id).rev ∧ l'.staged ≠ [] ∧
       Loaded r.2 l'.staged)) := by
  obtain ⟨st, s₁, looked, rfl⟩ := h.single queue one
  rw [entry] at looked
  rcases looked with ⟨_, cause, _⟩ | ⟨_, same, _⟩ | ⟨rec, _, copied, takes⟩
  · rcases cause with broken | unknown | ⟨broken | ⟨rfl, limit⟩, _⟩
    · exact absurd broken (Steady.reliable store queue)
    · exact absurd holds unknown
    · exact absurd broken (Steady.reliable store queue)
    · exact ⟨rfl, Or.inl ⟨rfl, limit⟩⟩
  · exact absurd (Except.ok.inj same).symm new
  · obtain rfl : rec = store.record id := Except.ok.inj copied
    obtain rfl : st = 1 := takes.full tight
    refine ⟨rfl, Or.inr ⟨rfl, takes.next, takes.mtu, ?_, takes.nonempty, ?_⟩⟩
    · show s₁.recordRevs (id - g.baseId) = _
      rw [takes.revs]
      exact if_pos rfl
    · exact takes.loaded.congr ⟨rfl, rfl, rfl, rfl, rfl, rfl⟩

end Single

/-- A packet with a record has no room for a second one if it is not long enough for two. -/
theorem Sender.Loaded.tight {s : Sender g} {recs : List (Int × Value g)} (h : Loaded s recs)
    (nonempty : recs ≠ []) (narrow : s.mcastMtu < 16 + 2 * (8 + g.valSize)) : Tight s := by
  have used := h.used_le
  rcases h.packet with ⟨_, _, empty⟩ | ⟨_, pkt⟩
  · exact absurd empty nonempty
  · obtain ⟨stamp, len, bytes⟩ := pkt.bytes
    have fits := pkt.fits
    have length := congrArg List.length bytes
    have pos := List.length_pos_iff.mpr nonempty
    have least : 8 + g.valSize ≤ recs.length * (8 + g.valSize) := Nat.le_mul_of_pos_left _ pos
    rw [Sender.packet, List.length_take, Nat.min_eq_left fits, List.append_nil,
      length_datagram len] at length
    rw [Tight, sizeSub_eq used h.small]
    omega

theorem steadyCall_writes (store : Storage g) {s : Sender g} (loaded : Loaded s s.staged) :
    ∃ l', Writes (Steady store) s ⟨true, s.staged, []⟩ (steadyCall store s).2 l' := by
  have along := mcastOnWrite_along (l := ⟨true, s.staged, []⟩) (Steady.sockets store) rfl
    nofun loaded
  exact ⟨_, (along.ends (Task.ends_answered (steadyAnswer store) _) fun _ => steady_answered).2⟩

theorem steadyCall_clients (store : Storage g) (s : Sender g) :
    (steadyCall store s).2.2.clientCount = s.clientCount :=
  (mcastOnWrite_meets _ _ (Task.ends_answered (steadyAnswer store) (mcastOnWrite s))).2.2

def smallConf : Conf (openEnv small).host :=
  (openEnv small).idleConf smallSender (World.init smallStore)

/-- A sender that has caught up with the queue and holds a full packet with its only record. -/
structure Poised (x : Conf (openEnv small).host) (a : Turn small) : Prop where
  reached : (openEnv small).host.Reachable smallConf x
  idle : x.task = .done a
  alive : a.hasQuit = false
  fine : ¬ Status.Failed a.status
  clients : a.sndr.clientCount = 1
  mtu : a.sndr.mcastMtu = 25
  tight : Tight a.sndr
  caught : a.sndr.lastQIdx = x.world.store.qHead
  known : a.sndr.recordRevs 0 = (x.world.store.record 0).rev
  free : ∀ id, 0 ≤ (x.world.store.record id).rev

def rewritten (store : Storage small) : Storage small where
  record := (store.setRecord 0 ⟨nextRev (store.record 0).rev, 0, smallValue 7⟩).record
  qHead := store.qHead + 1
  changeQ := fun _ => 0

theorem reach_rewritten (x : Conf (openEnv small).host) : ∃ y : Conf (openEnv small).host,
    (openEnv small).host.Reachable x y ∧ y.task = x.task ∧
    y.world.store = rewritten x.world.store := by
  have nonneg : 0 ≤ nextRev (x.world.store.record 0).rev := by
    unfold nextRev
    omega
  have commits : (openEnv small).host.next
      (.move (OpenMove.commit 0 ⟨nextRev (x.world.store.record 0).rev, 0, smallValue 7⟩)) x =
      some { x with world :=
        x.world.commit 0 ⟨nextRev (x.world.store.record 0).rev, 0, smallValue 7⟩ } := by
    simp only [Host.next, Env.host, openEnv, World.openMove, nonneg, ↓reduceIte, Option.map_some]
  refine ⟨_, .step (.move (OpenMove.queue (x.world.store.qHead + 1) fun _ => 0))
    (.step _ .refl commits trivial) rfl trivial, rfl, rfl⟩

theorem rewritten_free {store : Storage small} (free : ∀ id, 0 ≤ (store.record id).rev) (id : Int) :
    0 ≤ ((rewritten store).record id).rev := by
  simp only [rewritten, Storage.setRecord]
  split
  · simp only [nextRev]
    omega
  · exact free id

theorem rewritten_new (store : Storage small) :
    ((rewritten store).record 0).rev ≠ (store.record 0).rev := by
  simp only [rewritten, Storage.setRecord, ↓reduceIte, nextRev]
  omega

namespace Poised

variable {x y : Conf (openEnv small).host} {a : Turn small}

theorem loaded (h : Poised x a) : Loaded a.sndr a.sndr.staged :=
  loaded_of_rest (rest_of_reachable (streamInv_empty (by decide : 24 + small.valSize ≤ 25) (by decide)
    rfl) h.reached h.idle h.alive h.fine)

/-- The next call after an update sends the packet, and stages the record if there is a sequence
left for it. -/
theorem call (h : Poised x a) {l' : Ledger small} {r : Int × Sender small}
    (writes : Writes (Steady (rewritten x.world.store)) a.sndr ⟨true, a.sndr.staged, []⟩ r l') :
    r.2.lastQIdx = a.sndr.lastQIdx ∧
    ((r.1 = Status.sequenceOverflow ∧ a.sndr.nextSeq + 1 = sequenceMax) ∨
     (r.1 = 1 ∧ r.2.nextSeq = a.sndr.nextSeq + 1 ∧ r.2.mcastMtu = 25 ∧
       r.2.recordRevs 0 = ((rewritten x.world.store).record 0).rev ∧ Tight r.2 ∧
       Loaded r.2 r.2.staged)) := by
  have new : ((rewritten x.world.store).record 0).rev ≠ a.sndr.recordRevs (0 - small.baseId) := by
    show _ ≠ a.sndr.recordRevs 0
    rw [h.known]
    exact rewritten_new x.world.store
  have one : (rewritten x.world.store).qHead = a.sndr.lastQIdx + 1 := by
    rw [h.caught]
    rfl
  have holds : small.Holds 0 := by decide
  obtain ⟨stays, outcome⟩ := writes.flushes (by decide) one rfl holds new h.tight
  refine ⟨stays, outcome.imp id ?_⟩
  rintro ⟨status, next, mtu, revs, nonempty, loaded⟩
  have width : r.2.mcastMtu = 25 := mtu.trans h.mtu
  refine ⟨status, next, width, revs, loaded.tight nonempty ?_, ?_⟩
  · rw [width]
    decide
  · rw [loaded.staged_eq]
    exact loaded

/-- An update and two calls later, the packet with the update before has been sent. -/
theorem round (h : Poised x a) (below : a.sndr.nextSeq + 1 < sequenceMax) :
    ∃ y b, Poised y b ∧ b.sndr.nextSeq = a.sndr.nextSeq + 1 := by
  obtain ⟨y, updated, task, store⟩ := reach_rewritten x
  have free : ∀ id, 0 ≤ ((rewritten x.world.store).record id).rev := rewritten_free h.free
  obtain ⟨y₁, first, task₁, store₁⟩ :=
    reach_steadyCall (task.trans h.idle) h.alive h.fine (by rw [store]; exact free)
  rw [store] at task₁ store₁
  obtain ⟨l₁, writes₁⟩ := steadyCall_writes (rewritten x.world.store) h.loaded
  obtain ⟨stays, ⟨_, limit⟩ | ⟨status, next, mtu, revs, tight, loaded⟩⟩ := h.call writes₁
  · omega
  · have clients := steadyCall_clients (rewritten x.world.store) a.sndr
    generalize (steadyCall (rewritten x.world.store) a.sndr).2 = r at *
    obtain ⟨y₂, second, task₂, store₂⟩ := reach_steadyCall task₁ rfl
      (show ¬ Status.Failed r.1 by rw [status]; decide) (by rw [store₁]; exact free)
    rw [store₁] at task₂ store₂
    -- the second call passes the entry that the first one has staged
    obtain ⟨l₂, writes₂⟩ := steadyCall_writes (rewritten x.world.store) loaded
    have holds : small.Holds 0 := by decide
    have one : (rewritten x.world.store).qHead = r.2.lastQIdx + 1 := by
      rw [stays, h.caught]
      rfl
    have passed := writes₂.known (by decide) one rfl holds revs.symm
    have result : (steadyCall (rewritten x.world.store) (turn false r).sndr).2 =
        (0, { r.2 with lastQIdx := (rewritten x.world.store).qHead }) := passed
    rw [result] at task₂
    refine ⟨y₂, _, ⟨?_, task₂, rfl, not_failed_ok, clients.trans h.clients, mtu, tight, ?_, ?_, ?_⟩, next⟩
    · exact ((h.reached.trans _ updated).trans _ first).trans _ second
    · rw [store₂]
      rfl
    · rw [store₂]
      exact revs
    · rw [store₂]
      exact free

end Poised

def fillPacket : List (Choice (openEnv small).host) :=
  acceptFirst (openEnv small) 0 0 ++ stageAndSend.take 9

def unlocking : Choice (openEnv small).host → Bool
  | .move (.hold _ _) => false
  | _ => true

/-- Records stay free as long as no writer takes one. -/
theorem free_next {ch : Choice (openEnv small).host} {x y : Conf (openEnv small).host}
    (h : (openEnv small).host.next ch x = some y) (released : unlocking ch = true)
    (free : ∀ id, 0 ≤ (x.world.store.record id).rev) (id : Int) :
    0 ≤ (y.world.store.record id).rev := by
  rcases Host.next_cases _ h with ⟨m, w, rfl, moved, rfl⟩ | ⟨s, c, k, a, w, _, replied, rfl⟩ |
    ⟨e, a, t, _, _, _, rfl⟩
  · cases m with
    | commit id' r =>
      simp only [Env.host, openEnv, World.openMove] at moved
      split at moved
      · rename_i nonneg
        obtain rfl := Option.some.inj moved
        simp only [World.commit, Storage.setRecord]
        split
        · exact nonneg
        · exact free id
      · cases moved
    | hold id' r => cases released
    | queue head q =>
      obtain rfl := Option.some.inj moved
      exact free id
  · rw [(reply_same replied).1]
    exact free id
  · exact free id

def isPoised (x : Conf (openEnv small).host) : Bool :=
  match x.task with
  | .done a =>
    a.hasQuit = false ∧ a.status = Status.ok ∧ a.sndr.clientCount = 1 ∧ a.sndr.mcastMtu = 25 ∧
      sizeSub a.sndr.mcastMtu a.sndr.pktNext < 9 ∧ a.sndr.lastQIdx = x.world.store.qHead ∧
      a.sndr.recordRevs 0 = (x.world.store.record 0).rev ∧ a.sndr.nextSeq = 1
  | .call _ _ _ => false

theorem poised_first : ∃ x a, Poised x a ∧ a.sndr.nextSeq = 1 := by
  have run : ((openEnv small).host.run fillPacket smallConf).any isPoised =
    true := by decide +kernel
  have released : ∀ ch ∈ fillPacket, unlocking ch = true := by decide +kernel
  obtain ⟨x, reached, poised⟩ : ∃ x, (openEnv small).host.Reach (fun _ ch _ => unlocking ch = true)
      smallConf x ∧ isPoised x = true :=
    Host.reach_of_any _ fillPacket (fun _ ch here _ _ => released ch here) run
  have free : ∀ id, 0 ≤ (x.world.store.record id).rev :=
    Host.Reach.invariant _ (fun x => ∀ id, 0 ≤ (x.world.store.record id).rev) (fun _ => le_refl _)
      (fun _ _ _ free hn unheld => free_next hn unheld free) reached
  unfold isPoised at poised
  split at poised
  · rename_i a idle
    obtain ⟨alive, fine, clients, mtu, tight, caught, known, first⟩ := of_decide_eq_true poised
    refine ⟨x, a, ⟨reached.mono _ fun _ _ _ _ => trivial, idle, alive, ?_, clients, mtu, tight, caught,
      known, free⟩, first⟩
    rw [fine]
    exact not_failed_ok
  · cases poised

/-- Every sequence but the last is reached. -/
theorem poised_at (n : Nat) (below : (n : Int) + 1 < sequenceMax) :
    ∃ x a, Poised x a ∧ a.sndr.nextSeq = n + 1 := by
  induction n with
  | zero => simpa using poised_first
  | succ n ih =>
    obtain ⟨x, a, poised, next⟩ := ih (by omega)
    obtain ⟨y, b, poised', next'⟩ := poised.round (by omega)
    refine ⟨y, b, poised', ?_⟩
    omega

/-- With one sequence left, the update of one record is never drained: the packet before it takes
the sequence, and the call ends with SEQUENCE_OVERFLOW. -/
theorem drain_overflows : ∃ (x : Conf (openEnv small).host) (a : Turn small),
    (openEnv small).host.Reachable smallConf x ∧ x.task = .done a ∧ a.hasQuit = false ∧
    ¬ Status.Failed a.status ∧ 0 < a.sndr.clientCount ∧
    x.world.store.qHead = a.sndr.lastQIdx + 1 ∧ window x.world.store a.sndr.lastQIdx = [0] ∧
    (∀ id, 0 ≤ (x.world.store.record id).rev) ∧ (∃ tr r, Repeated x.world.store a.sndr [tr] r) ∧
    ∀ trs r, Repeated x.world.store a.sndr trs r → r.2.lastQIdx ≠ x.world.store.qHead := by
  obtain ⟨x, a, poised, next⟩ := poised_at 9223372036854775805 (by decide)
  obtain ⟨y, updated, task, store⟩ := reach_rewritten x
  have one : y.world.store.qHead = a.sndr.lastQIdx + 1 := by
    rw [store, poised.caught]
    rfl
  have never : ∀ trs r, Repeated y.world.store a.sndr trs r → r.2.lastQIdx = a.sndr.lastQIdx ∧
      (r = (Status.ok, a.sndr) ∨ Status.Failed r.1) := by
    intro trs r calls
    induction calls with
    | start => exact ⟨rfl, Or.inl rfl⟩
    | @again trs tr st s₁ r _ fine _ ends steady ih =>
      rcases ih.2 with same | failed
      · obtain ⟨rfl, rfl⟩ := Prod.mk.inj same
        rw [store] at steady
        have along := mcastOnWrite_along (l := ⟨true, a.sndr.staged, []⟩)
          (Steady.sockets (rewritten x.world.store)) rfl nofun poised.loaded
        obtain ⟨stays, ⟨overflow, _⟩ | ⟨_, further, _, _, _, loaded⟩⟩ :=
          poised.call (along.ends ends steady).2
        · exact ⟨stays, Or.inr (by rw [overflow]; exact overflow_hard.1)⟩
        · have limit := loaded.below
          unfold sequenceMax at limit
          omega
      · exact absurd failed fine
  have none_yet : Repeated y.world.store a.sndr [] (Status.ok, a.sndr) := .start
  have first := none_yet.steadily not_failed_ok (by rw [one]; exact Nat.ne_of_lt (Nat.lt_succ_self _))
  refine ⟨y, a, poised.reached.trans _ updated, task.trans poised.idle, poised.alive,
    poised.fine, ?_, one, ?_, ?_, ⟨_, _, first⟩, ?_⟩
  · rw [poised.clients]
    decide
  · rw [window_succ (by omega), ← one, window_end, store]
    rfl
  · rw [store]
    exact rewritten_free poised.free
  · intro trs r calls
    have stays := (never trs r calls).1
    omega

end Lancaster
