import Lancaster.Transitions

/-!
# The writer and the change queue

One writer updates records: it locks one, unlocks it with the next revision, writes its
identifier into a slot of the ring and then moves the head. `log` remembers which
identifier was written at which position; the ring still has it while the writer is less
than a whole round ahead.
-/

namespace Lancaster

open Interleaving Sender

variable {g : Geometry}

inductive WriterMove (g : Geometry) where
  | lock (id : Int) (ts : Int) (val : Value g)
  | unlock
  | slot
  | bump

/-- The first half of `storage_write_queue`: the slot behind the head. -/
def Storage.writeSlot (st : Storage g) (id : Int) : Storage g :=
  { st with changeQ := fun j => if j = slot g.qCapacity st.qHead then id else st.changeQ j }

/-- The steps of `batch_write_records`. Without a queue the last two never happen: then
`storage_write_queue` fails. -/
def World.writerMove (m : WriterMove g) (w : World g) : Option (World g) :=
  match m, w.writer with
  | .lock id ts val, .idle =>
    if g.Holds id ∧ 0 ≤ (w.store.record id).rev then
      some { w with
        store := w.store.setRecord id { w.store.record id with
          rev := lockedWord (w.store.record id).rev }
        writer := .locked id ⟨nextRev (w.store.record id).rev, ts, val⟩ }
    else none
  | .unlock, .locked id r => some { w.commit id r with writer := .unlocked id }
  | .slot, .unlocked id =>
    if g.qCapacity = 0 then none
    else some { w with
      store := w.store.writeSlot id
      log := fun q => if q = w.store.qHead then id else w.log q
      writer := .slotted id }
  | .bump, .slotted _ => some { w with
      store := { w.store with qHead := w.store.qHead + 1 }
      writer := .idle }
  | _, _ => none

/-- Everything a step of the writer can do. -/
theorem writerMove_cases {m : WriterMove g} {w w' : World g}
    (h : World.writerMove m w = some w') :
    (∃ id ts val, w.writer = .idle ∧ g.Holds id ∧ 0 ≤ (w.store.record id).rev ∧
      w' = { w with
        store := w.store.setRecord id { w.store.record id with
          rev := lockedWord (w.store.record id).rev }
        writer := .locked id ⟨nextRev (w.store.record id).rev, ts, val⟩ }) ∨
    (∃ id r, w.writer = .locked id r ∧ w' = { w.commit id r with writer := .unlocked id }) ∨
    (∃ id, w.writer = .unlocked id ∧ g.qCapacity ≠ 0 ∧ w' = { w with
      store := w.store.writeSlot id
      log := fun q => if q = w.store.qHead then id else w.log q
      writer := .slotted id }) ∨
    (∃ id, w.writer = .slotted id ∧ w' = { w with
      store := { w.store with qHead := w.store.qHead + 1 }
      writer := .idle }) := by
  unfold World.writerMove at h
  split at h
  · rename_i id ts val hw
    split at h
    · rename_i ok
      exact Or.inl ⟨id, ts, val, hw, ok.1, ok.2, (Option.some.inj h).symm⟩
    · cases h
  · rename_i id r hw
    exact Or.inr (Or.inl ⟨id, r, hw, (Option.some.inj h).symm⟩)
  · rename_i id hw
    split at h
    · cases h
    · rename_i queue
      exact Or.inr (Or.inr (Or.inl ⟨id, hw, queue, (Option.some.inj h).symm⟩))
  · rename_i id hw
    exact Or.inr (Or.inr (Or.inr ⟨id, hw, (Option.some.inj h).symm⟩))
  · cases h

namespace Writer

/-- The writer is between the lock of record `id` and the end of `storage_write_queue`. -/
def Updates : Writer g → Int → Prop
  | .idle, _ => False
  | .locked i _, id => i = id
  | .unlocked i, id => i = id
  | .slotted i, id => i = id

end Writer

namespace World

/-- The queue positions that have been written, one that is not announced included. -/
def written (w : World g) : Nat :=
  match w.writer with
  | .slotted _ => w.store.qHead + 1
  | _ => w.store.qHead

theorem head_le_written (w : World g) : w.store.qHead ≤ w.written := by
  unfold written
  split <;> omega

def Queued (w : World g) (q : Nat) (id : Int) : Prop :=
  ∃ p, q ≤ p ∧ p < w.store.qHead ∧ w.log p = id

theorem Queued.mono {w : World g} {q q' : Nat} {id : Int} (h : w.Queued q id) (le : q' ≤ q) :
    w.Queued q' id := by
  obtain ⟨p, low, high, here⟩ := h
  exact ⟨p, by omega, high, here⟩

/-- The entry at `q` is another one. -/
theorem Queued.next {w : World g} {q : Nat} {id : Int} (h : w.Queued q id) (other : w.log q ≠ id) :
    w.Queued (q + 1) id := by
  obtain ⟨p, low, high, here⟩ := h
  have hne : p ≠ q := by
    rintro rfl
    exact other here
  exact ⟨p, by omega, high, here⟩

end World

/-- The writer is at most one round ahead of the position the sender reads from. -/
def NotOverrun (s : Sender g) (w : World g) : Prop := w.written ≤ s.lastQIdx + g.qCapacity

instance (s : Sender g) (w : World g) : Decidable (NotOverrun s w) :=
  inferInstanceAs (Decidable (_ ≤ _))

/-- The writer has not come round to what the sender has still to read: not to its place when it
looks at the head, not to the entry that it reads. In between it is at most two rounds ahead of
the place where the sender began. -/
def undisturbed (s : Sender g) (w : World g) : Option (Event × Call) → Bool
  | some (.mcast, .storageGetQueueHead) => decide (NotOverrun s w)
  | some (.mcast, .storageReadQueue q) => decide (w.written ≤ q + g.qCapacity)
  | some (.mcast, _) => decide (w.written ≤ s.lastQIdx + 2 * g.qCapacity)
  | _ => true

/-- The ring holds the entries of the last round. -/
structure QueueInv (w : World g) : Prop where
  intact : ∀ q, q < w.written → w.written ≤ q + g.qCapacity →
    w.store.changeQ (Storage.slot g.qCapacity q) = w.log q
  slotted : ∀ id, w.writer = .slotted id → w.log w.store.qHead = id

theorem queueInv_init (store : Storage g) (peers : Nat → Peer g) :
    QueueInv (World.start store peers) where
  intact := fun _ _ _ => rfl
  slotted := nofun

theorem QueueInv.moved {w w' : World g} {m : WriterMove g} (h : QueueInv w)
    (hm : World.writerMove m w = some w') : QueueInv w' := by
  rcases writerMove_cases hm with ⟨id, ts, val, hw, _, _, rfl⟩ | ⟨id, r, hw, rfl⟩ |
    ⟨id, hw, _, rfl⟩ | ⟨id, hw, rfl⟩
  · refine ⟨?_, by simp⟩
    simpa only [World.written, hw, Storage.setRecord] using h.intact
  · refine ⟨?_, by simp⟩
    simpa only [World.written, hw, World.commit, Storage.setRecord] using h.intact
  · constructor
    · intro q below near
      simp only [World.written, Storage.writeSlot] at below near ⊢
      by_cases hq : q = w.store.qHead
      · simp [hq]
      · have other : Storage.slot g.qCapacity q ≠ Storage.slot g.qCapacity w.store.qHead :=
          Storage.slot_ne (by omega) (by omega)
        rw [if_neg other, if_neg hq]
        apply h.intact q <;> simp only [World.written, hw] <;> omega
    · intro i hi
      obtain rfl := Writer.slotted.inj hi
      simp [Storage.writeSlot]
  · refine ⟨?_, by simp⟩
    simpa only [World.written, hw] using h.intact

/-! ## The place of the sender in the queue -/

namespace Phase

/-- The first queue position that is still to be looked at. -/
def cursor (s : Sender g) : Phase → Nat
  | .scan q _ => q
  | .look q _ _ => q
  | .want q _ _ => q
  | .flush q _ _ => q
  | .flushed q _ _ => q
  | .fill q _ _ _ => q
  | .staged q _ _ => q + 1
  | .failing q _ => q
  | _ => s.lastQIdx

def Reads (s : Sender g) (w : World g) (q e : Nat) (id : Int) : Prop :=
  s.lastQIdx ≤ q ∧ q < e ∧ e ≤ w.store.qHead ∧ w.log q = id

def Place (s : Sender g) (w : World g) : Phase → Prop
  | .scan q e => s.lastQIdx ≤ q ∧ q ≤ e ∧ e ≤ w.store.qHead
  | .look q e id => Reads s w q e id
  | .want q e id => Reads s w q e id
  | .flush q e id => Reads s w q e id
  | .flushed q e id => Reads s w q e id
  | .fill q e id _ => Reads s w q e id
  | .staged q e _ => s.lastQIdx ≤ q ∧ q < e ∧ e ≤ w.store.qHead
  | .failing q e => s.lastQIdx ≤ q ∧ q ≤ e ∧ e ≤ w.store.qHead
  | _ => s.lastQIdx ≤ w.store.qHead

variable {s s' : Sender g} {w w' : World g} {ph ph' : Phase}

theorem Place.cursor_le (h : ph.Place s w) : ph.cursor s ≤ w.store.qHead := by
  cases ph <;> simp only [Place, Reads] at h <;> simp only [cursor] <;> omega

theorem Place.from_last (h : ph.Place s w) : s.lastQIdx ≤ ph.cursor s := by
  cases ph <;> simp only [Place, Reads] at h <;> simp only [cursor] <;> omega

/-- The queue grows, and no entry that is there changes. -/
theorem Place.grow (h : ph.Place s w) (last : s'.lastQIdx = s.lastQIdx)
    (head : w.store.qHead ≤ w'.store.qHead) (log : ∀ q, q < w.store.qHead → w'.log q = w.log q) :
    ph.Place s' w' := by
  have read : ∀ q e id, Reads s w q e id → Reads s' w' q e id := by
    rintro q e id ⟨low, before, high, here⟩
    refine ⟨by omega, before, by omega, ?_⟩
    rw [log q (by omega)]
    exact here
  cases ph <;> simp only [Place] at h ⊢ <;> first | exact read _ _ _ h | omega

theorem Place.onFail (h : ph.Place s w) : ph.onFail.Place s w := by
  cases ph <;> simp only [Place, Reads, Phase.onFail] at h ⊢ <;> omega

/-- Without the answer of a call the sender moves back in the queue at most. -/
theorem Place.silent (h : ph.Place s w) (step : Silent ph s ph' s') :
    ph'.Place s' w ∧ ph'.cursor s' ≤ ph.cursor s := by
  cases step with
  | tally => exact ⟨h.grow rfl (le_refl _) fun _ _ => rfl, by cases ph <;> exact le_refl _⟩
  | fail => exact ⟨h.onFail, by cases ph <;> simp [cursor, Phase.onFail]⟩
  | settle | drained =>
    simp only [Place] at h
    exact ⟨by simp only [Place]; omega, le_refl _⟩
  | blocked =>
    simp only [Place, Reads] at h
    exact ⟨by simp only [Place]; omega, le_refl _⟩
  | broke =>
    simp only [Place] at h
    exact ⟨by simp only [Place]; omega, by simp [cursor]⟩
  | goOn =>
    simp only [Place] at h
    exact ⟨by simp only [Place]; omega, le_refl _⟩
  | room | reopen =>
    refine ⟨h.grow ?_ (le_refl _) fun _ _ => rfl, le_refl _⟩
    simp only [stageId]
    split <;> rfl
  | sendTime now writing here =>
    exact ⟨h.grow rfl (le_refl _) fun _ _ => rfl, by cases ph <;> exact le_refl _⟩
  | _ => exact ⟨h, le_refl _⟩

end Phase

structure CursorInv (ph : Phase) (s : Sender g) (w : World g) : Prop where
  ring : QueueInv w
  place : ph.Place s w

namespace CursorInv

variable {s s' : Sender g} {w w' : World g} {ph ph' : Phase}

theorem moved (h : CursorInv ph s w) {m : WriterMove g} (hm : World.writerMove m w = some w') :
    CursorInv ph s w' := by
  refine ⟨h.ring.moved hm, ?_⟩
  rcases writerMove_cases hm with ⟨id, ts, val, hw, _, _, rfl⟩ | ⟨id, r, hw, rfl⟩ |
    ⟨id, hw, _, rfl⟩ | ⟨id, hw, rfl⟩
  · exact h.place.grow rfl (le_refl _) fun _ _ => rfl
  · exact h.place.grow rfl (le_refl _) fun _ _ => rfl
  · refine h.place.grow rfl (le_refl _) fun q hq => ?_
    simp [Nat.ne_of_lt hq]
  · exact h.place.grow rfl (Nat.le_succ _) fun _ _ => rfl

theorem silent (h : CursorInv ph s w) (step : Silent ph s ph' s') : CursorInv ph' s' w :=
  ⟨h.ring, (h.place.silent step).1⟩

/-- The writer has not come round to the entry that is read. -/
theorem entry (h : CursorInv ph s w) {q e : Nat} (near : w.written ≤ q + g.qCapacity)
    (phase : ph = .scan q e) (before : q < e) :
    w.store.changeQ (Storage.slot g.qCapacity q) = w.log q := by
  subst phase
  obtain ⟨low, _, high⟩ := h.place
  have head := w.head_le_written
  exact h.ring.intact q (by omega) near

/-- Less than one round ahead of the place where it began, the writer disturbs no answer. -/
theorem calm {E : Env g} {e : Event} {call : Call} (h : CursorInv ph s w)
    (ahead : e = .mcast → NotOverrun s w) (step : Answer E e call ph s w ph' s' w') :
    undisturbed s w (some (e, call)) := by
  unfold undisturbed
  split
  · rename_i same
    cases same
    exact decide_eq_true (ahead rfl)
  · rename_i q same
    cases same
    have near := ahead rfl
    have place := h.place
    cases step with
    | readQueue =>
      simp only [NotOverrun, Phase.Place] at near place
      exact decide_eq_true (by omega)
  · rename_i same
    cases same
    have near := ahead rfl
    simp only [NotOverrun] at near
    exact decide_eq_true (by omega)
  · rfl

theorem answered {E : Env g} {e : Event} {call : Call} (h : CursorInv ph s w)
    (calm : undisturbed s w (some (e, call))) (step : Answer E e call ph s w ph' s' w') :
    CursorInv ph' s' w' := by
  have place := h.place
  cases step with
  | idle small => exact ⟨h.ring, le_refl _⟩
  | opens more fits => exact ⟨h.ring, le_refl _, by omega, le_refl _⟩
  | overrun past ignored jump =>
    have near : NotOverrun s w := of_decide_eq_true calm
    have head := w.head_le_written
    simp only [NotOverrun] at near
    omega
  | @readQueue q n _ _ id before queue read =>
    obtain ⟨low, _, high⟩ := place
    refine ⟨h.ring, low, before, high, ?_⟩
    rw [read]
    exact (h.entry (of_decide_eq_true calm) rfl before).symm
  | skip known free same =>
    obtain ⟨low, before, high, here⟩ := place
    exact ⟨h.ring, by omega, before, high⟩
  | changed => exact ⟨h.ring, place⟩
  | stamp now sends due =>
    refine ⟨h.ring, ?_⟩
    cases sends <;> exact place
  | send sends due below =>
    generalize (if 0 ≤ Bytes.bswap64 (Bytes.ldLong s.pktBuf 0) then s.nextSeq + 1
      else s.nextSeq) = n
    refine ⟨⟨h.ring.intact, h.ring.slotted⟩, ?_⟩
    cases sends <;> exact place
  | overflow sends due data limit =>
    refine ⟨⟨h.ring.intact, h.ring.slotted⟩, ?_⟩
    cases sends with
    | flush =>
      obtain ⟨low, before, high, here⟩ := place
      exact ⟨low, by omega, high⟩
    | _ => exact place
  | copy known free =>
    obtain ⟨low, before, high, here⟩ := place
    exact ⟨h.ring, low, before, high⟩
  | accept new admitted => exact ⟨⟨h.ring.intact, h.ring.slotted⟩, place⟩
  | jump => exact ⟨h.ring, le_refl _⟩
  | read | readLast | readBad => exact ⟨⟨h.ring.intact, h.ring.slotted⟩, place⟩
  | write count writing =>
    refine ⟨⟨h.ring.intact, h.ring.slotted⟩, ?_⟩
    exact place.grow rfl (le_refl _) fun _ _ => rfl
  | reply | unused => exact ⟨h.ring, place⟩

end CursorInv

end Lancaster
