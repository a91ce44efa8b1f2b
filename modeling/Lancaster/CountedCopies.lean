import Lancaster.Copying
import Lancaster.Network
import Lancaster.StagedFresh

/-!
# Copies beside a writer that counts revisions up

Every update of a writer gives its record a higher revision, as long as revisions do not wrap
around. So a record that has the revision at which its copy began has not changed since: the loop of
`recordCopy` finds what one step would have found, and a run of the sender with its loops is a run
with copies made at once.
-/

namespace Lancaster

open Interleaving Sender

variable {g : Geometry}

/-- The others write the storage as one writer does, or not at all. -/
def Env.OneWriter (E : Env g) : Prop :=
  ∀ m w w', E.move m w = some w' →
    (∃ m', World.writerMove m' w = some w') ∨ (w'.store = w.store ∧ w'.writer = w.writer)

theorem netEnv_oneWriter : (netEnv g).OneWriter := by
  intro m w w' moved
  rcases netMove_cases moved with write | ⟨c, p, rfl, _⟩
  · exact Or.inl write
  · exact Or.inr ⟨rfl, rfl⟩

theorem writerEnv_oneWriter : (writerEnv g).OneWriter := fun m _ _ moved => Or.inl ⟨m, moved⟩

/-- The next update does not wrap a revision. -/
def Unwrapped (w : World g) : Prop := ∀ id, (w.store.record id).rev < spinMax

/-- No update wraps a revision, and every step that is not one of a copy meets the conditions of
`ok`. -/
def Env.CountKept (E : Env g) (ok : Conf E.host → Choice E.host → Conf E.host → Prop)
    (x : Conf E.copyHost) (ch : Choice E.copyHost) (y : Conf E.copyHost) : Prop :=
  (∀ m, ch = .move (.others m) → Unwrapped x.world.world) ∧
    ∀ ch', E.coarseChoice ch = some ch' → ok (E.coarse x) ch' (E.coarse y)

/-- The revision at which a copy began is not above that of its record, nor is that which the writer
is about to give it. -/
structure Behind (c : Copy g) (w : World g) : Prop where
  nonneg : 0 ≤ c.rev
  free : 0 ≤ (w.store.record c.id).rev → c.rev ≤ (w.store.record c.id).rev
  next : ∀ r, w.writer = .locked c.id r → c.rev < r.rev

/-- A record that the writer is about to unlock is locked, and no copy is ahead of its record. -/
structure Counted (x : CopyWorld g) : Prop where
  agrees : x.Agrees
  locked : ∀ id r, x.world.writer = .locked id r → (x.world.store.record id).rev < 0
  behind : ∀ c ∈ x.copy, Behind c x.world

theorem counted_start (store : Storage g) (peers : Nat → Peer g) :
    Counted (⟨World.start store peers, none⟩ : CopyWorld g) := by
  refine ⟨(CopyWorld.idle_none _).agrees, nofun, ?_⟩
  rintro c ⟨⟩

namespace Counted

variable {x y : CopyWorld g}

/-- The storage and the writer stay as they are; the copy is given up, or begun, or goes on. -/
theorem same (h : Counted x) (agrees : y.Agrees) (store : y.world.store = x.world.store)
    (writer : y.world.writer = x.world.writer)
    (copy : ∀ c ∈ y.copy, (∃ c' ∈ x.copy, c'.id = c.id ∧ c'.rev = c.rev) ∨
      (0 ≤ c.rev ∧ c.rev = (x.world.store.record c.id).rev)) : Counted y := by
  refine ⟨agrees, ?_, fun c here => ?_⟩
  · rw [store, writer]
    exact h.locked
  · rcases copy c here with ⟨c', here', id, rev⟩ | ⟨low, begun⟩
    · obtain ⟨nonneg, free, next⟩ := h.behind c' here'
      rw [id, rev] at free
      refine ⟨rev ▸ nonneg, store ▸ free, ?_⟩
      rw [writer, ← id, ← rev]
      exact next
    · refine ⟨low, ?_, ?_⟩
      · rw [store, begun]
        exact fun _ => le_refl _
      · -- the record is not locked, so the writer is not about to unlock it
        intro r busy
        rw [writer] at busy
        have := h.locked c.id r busy
        omega

/-- The writer locks a record whose revision is not the greatest. -/
theorem locks (h : Counted x) {id ts : Int} {val : Value g}
    (free : 0 ≤ (x.world.store.record id).rev) (below : (x.world.store.record id).rev < spinMax) :
    Counted ⟨{ x.world with
      store := x.world.store.setRecord id { x.world.store.record id with
        rev := lockedWord (x.world.store.record id).rev }
      writer := .locked id ⟨nextRev (x.world.store.record id).rev, ts, val⟩ }, x.copy⟩ := by
  have up : nextRev (x.world.store.record id).rev = (x.world.store.record id).rev + 1 := by
    simp only [spinMax] at below
    rw [nextRev]
    omega
  have neg : lockedWord (x.world.store.record id).rev < 0 := lockedWord_neg (le_of_lt below)
  refine ⟨fun c here same => ?_, ?_, fun c here => ?_⟩
  · have nonneg := (h.behind c here).nonneg
    by_cases hid : c.id = id
    · rw [hid] at same
      simp only [Storage.setRecord_same] at same
      omega
    · simp only [Storage.setRecord, if_neg hid] at same ⊢
      exact h.agrees c here same
  · intro i r eq
    cases eq
    simp only [Storage.setRecord_same]
    exact neg
  · obtain ⟨nonneg, behind, _⟩ := h.behind c here
    by_cases hid : c.id = id
    · subst hid
      refine ⟨nonneg, ?_, ?_⟩
      · simp only [Storage.setRecord_same]
        omega
      · intro r eq
        cases eq
        have := behind free
        dsimp only
        omega
    · refine ⟨nonneg, ?_, ?_⟩
      · simpa only [Storage.setRecord, if_neg hid] using behind
      · intro r eq
        cases eq
        exact absurd rfl hid

/-- The writer unlocks a record, which now has a revision that no copy began at. -/
theorem commits (h : Counted x) {id : Int} {r : Record g} (busy : x.world.writer = .locked id r) :
    Counted ⟨{ x.world.commit id r with writer := .unlocked id }, x.copy⟩ := by
  refine ⟨fun c here same => ?_, by simp, fun c here => ?_⟩
  · by_cases hid : c.id = id
    · subst hid
      have later := (h.behind c here).next r busy
      simp only [World.commit, Storage.setRecord_same] at same
      omega
    · simp only [World.commit, Storage.setRecord, if_neg hid] at same ⊢
      exact h.agrees c here same
  · obtain ⟨nonneg, behind, next⟩ := h.behind c here
    refine ⟨nonneg, ?_, by simp⟩
    by_cases hid : c.id = id
    · subst hid
      have later := next r busy
      simp only [World.commit, Storage.setRecord_same]
      omega
    · simpa only [World.commit, Storage.setRecord, if_neg hid] using behind

/-- The writer has no record locked, and leaves all of them as they are. -/
theorem leaves (h : Counted x) {w : World g} (records : w.store.record = x.world.store.record)
    (out : ∀ id r, w.writer ≠ .locked id r) : Counted ⟨w, x.copy⟩ := by
  refine ⟨fun c here => ?_, fun id r eq => absurd eq (out id r), fun c here => ?_⟩
  · dsimp only
    rw [records]
    exact h.agrees c here
  · obtain ⟨nonneg, behind, _⟩ := h.behind c here
    exact ⟨nonneg, records ▸ behind, fun r eq => absurd eq (out c.id r)⟩

/-- A step of the writer, which does not wrap a revision. -/
theorem moved (h : Counted x) (below : Unwrapped x.world) {m : WriterMove g} {w : World g}
    (hm : World.writerMove m x.world = some w) : Counted ⟨w, x.copy⟩ := by
  rcases writerMove_cases hm with ⟨id, ts, val, idle, known, free, rfl⟩ | ⟨id, r, busy, rfl⟩ |
    ⟨id, unlocked, _, rfl⟩ | ⟨id, slotted, rfl⟩
  · exact h.locks free (below id)
  · exact h.commits busy
  · exact h.leaves rfl (by simp)
  · exact h.leaves rfl (by simp)

end Counted

namespace Env

variable {E : Env g}

/-- The steps of a copy leave the world alone, and go on with the copy unless they begin one. -/
theorem copyMove_own {m : CopyMove E} {x y : CopyWorld g} (own : ∀ m', m ≠ .others m')
    (h : E.copyMove m x = some y) : y.world = x.world ∧
      ∀ c ∈ y.copy, (∃ c' ∈ x.copy, c'.id = c.id ∧ c'.rev = c.rev) ∨
        (0 ≤ c.rev ∧ c.rev = (x.world.store.record c.id).rev) := by
  cases m with
  | others m => exact absurd rfl (own m)
  | readLock id =>
    simp only [copyMove] at h
    split at h
    · rename_i able
      obtain rfl := Option.some.inj h
      refine ⟨rfl, ?_⟩
      rintro c ⟨⟩
      exact Or.inr ⟨able.2, rfl⟩
    · cases h
  | byte i =>
    obtain ⟨c, here, rfl⟩ := Option.map_eq_some_iff.mp h
    refine ⟨rfl, ?_⟩
    rintro _ ⟨⟩
    exact Or.inl ⟨c, here, rfl, rfl⟩
  | timestamp =>
    obtain ⟨c, here, rfl⟩ := Option.map_eq_some_iff.mp h
    refine ⟨rfl, ?_⟩
    rintro _ ⟨⟩
    exact Or.inl ⟨c, here, rfl, rfl⟩
  | retry =>
    obtain ⟨c, _, again⟩ := Option.bind_eq_some_iff.mp h
    split at again
    · obtain rfl := Option.some.inj again
      refine ⟨rfl, ?_⟩
      rintro _ ⟨⟩
    · cases again

/-- So do the answers. -/
theorem copyReply_own {c : Call} {a : c.Ans g} {x y : CopyWorld g}
    (h : E.copyReply c a x = some y) :
    y.world.store = x.world.store ∧ y.world.writer = x.world.writer ∧
      ∀ c ∈ y.copy, (∃ c' ∈ x.copy, c'.id = c.id ∧ c'.rev = c.rev) ∨
        (0 ≤ c.rev ∧ c.rev = (x.world.store.record c.id).rev) := by
  unfold copyReply at h
  split at h
  · split at h
    · obtain rfl := Option.some.inj h
      refine ⟨rfl, rfl, ?_⟩
      rintro c ⟨⟩
    · cases h
  · rename_i id rev
    split at h
    · obtain ⟨w, replied, rfl⟩ := Option.map_eq_some_iff.mp h
      refine ⟨(reply_same replied).1, reply_writer replied, ?_⟩
      rintro c ⟨⟩
      obtain ⟨_, found⟩ := Option.ite_none_right_eq_some.mp replied
      obtain ⟨⟨low, now⟩, _⟩ := Option.ite_none_right_eq_some.mp found
      exact Or.inr ⟨low, now⟩
    · cases h
  · split at h
    · obtain ⟨w, replied, rfl⟩ := Option.map_eq_some_iff.mp h
      exact ⟨(reply_same replied).1, reply_writer replied, fun c here => Or.inl ⟨c, here, rfl, rfl⟩⟩
    · cases h

/-- No step of a run with one writer puts a copy ahead of its record. -/
theorem counted_next (one : E.OneWriter) {x y : Conf E.copyHost} {ch : Choice E.copyHost}
    (counted : Counted x.world) (h : E.copyHost.next ch x = some y)
    (below : ∀ m, ch = .move (.others m) → Unwrapped x.world.world) :
    Counted y.world ∧ ∀ m, ch = .move (.others m) → E.KeepsCopy m x.world := by
  cases ch with
  | move m =>
    obtain ⟨v, moved, rfl⟩ := Option.map_eq_some_iff.mp h
    by_cases others : ∃ m', m = .others m'
    · obtain ⟨m, rfl⟩ := others
      obtain ⟨w, written, rfl⟩ := Option.map_eq_some_iff.mp moved
      have after : Counted (⟨w, x.world.copy⟩ : CopyWorld g) := by
        rcases one m x.world.world w written with ⟨m', write⟩ | ⟨store, writer⟩
        · exact counted.moved (below m rfl) write
        · refine counted.same (fun c here => ?_) store writer fun c here => Or.inl ⟨c, here, rfl, rfl⟩
          rw [store]
          exact counted.agrees c here
      refine ⟨after, ?_⟩
      intro _ eq c here w' written' same
      cases eq
      obtain rfl := Option.some.inj (written.symm.trans written')
      exact after.agrees c here same
    · have own : ∀ m', m ≠ .others m' := fun m' eq => others ⟨m', eq⟩
      obtain ⟨world, copy⟩ := copyMove_own own moved
      obtain ⟨agrees, _⟩ := copyMove_agrees counted.agrees moved fun m' eq => absurd eq (own m')
      exact ⟨counted.same agrees (congrArg _ world) (congrArg _ world) copy, fun m' eq =>
        absurd (Choice.move.inj eq) (own m')⟩
  | reply c a =>
    refine ⟨?_, by simp⟩
    simp only [Host.next] at h
    split at h
    · cases h
    · split at h
      · rename_i same
        subst same
        obtain ⟨v, replied, rfl⟩ := Option.map_eq_some_iff.mp h
        obtain ⟨store, writer, copy⟩ := copyReply_own replied
        exact counted.same (copyReply_agrees counted.agrees replied).1 store writer copy
      · cases h
  | start e =>
    refine ⟨?_, by simp⟩
    simp only [Host.next] at h
    split at h
    · obtain ⟨t, _, rfl⟩ := Option.map_eq_some_iff.mp h
      exact counted
    · cases h

/-- Beside one writer, as long as no update wraps a revision: every run with the loops is a run, and
meets the same conditions, when every copy is made at once. -/
theorem counted_copies (one : E.OneWriter) {ok : Conf E.host → Choice E.host → Conf E.host → Prop}
    {s : Sender g} {store : Storage g} {peers : Nat → Peer g} {x : Conf E.copyHost}
    (run : E.copyHost.Reach (E.CountKept ok) (E.copyIdle s (World.start store peers)) x) :
    E.host.Reach ok (E.idleConf s (World.start store peers)) (E.coarse x) := by
  refine copy_refines (run.refines E.copyHost E.copyHost id (fun x => Counted x.world)
    (counted_start store peers) ?_).2
  rintro x ch y counted next ⟨below, allowed⟩
  obtain ⟨after, keeps⟩ := counted_next one counted next below
  exact ⟨after, Or.inr ⟨ch, next, keeps, allowed⟩⟩

end Env

section

variable {s : Sender g} {store : Storage g} {peers : Nat → Peer g}

/-- The closed system of the sender, one writer and the receivers. -/
theorem netEnv_copies {ok : Conf (netEnv g).host → Choice (netEnv g).host →
    Conf (netEnv g).host → Prop}
    {x : Conf (netEnv g).copyHost}
    (run : (netEnv g).copyHost.Reach ((netEnv g).CountKept ok)
      ((netEnv g).copyIdle s (World.start store peers)) x) :
    (netEnv g).host.Reach ok ((netEnv g).idleConf s (World.start store peers))
    ((netEnv g).coarse x) :=
  Env.counted_copies netEnv_oneWriter run

/-- A sender and one writer, whoever connects. -/
theorem writerEnv_copies {ok : Conf (writerEnv g).host → Choice (writerEnv g).host →
    Conf (writerEnv g).host → Prop}
    {x : Conf (writerEnv g).copyHost}
    (run : (writerEnv g).copyHost.Reach ((writerEnv g).CountKept ok)
      ((writerEnv g).copyIdle s (World.start store peers)) x) :
    (writerEnv g).host.Reach ok ((writerEnv g).idleConf s (World.start store peers))
      ((writerEnv g).coarse x) :=
  Env.counted_copies writerEnv_oneWriter run

end

end Lancaster
