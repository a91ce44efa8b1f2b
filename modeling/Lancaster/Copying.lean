import Lancaster.World

/-!
# Copying a record

The call `recordCopy` stands for a loop of the sender, which `World.reply` answers in one step. Here
the loop is taken apart: the revision is read once the record is not locked, then the value byte by
byte and the time stamp, and then the revision again. If that is another one, the loop begins anew.
The others may move before each of these reads.

Nothing but the revisions is compared. While a record is copied it must not get back the revision at
which the copy began, unless it has the bytes that have been copied by then. As long as that is
kept, the loop comes to what one step would have come to.
-/

namespace Lancaster

open Interleaving Sender

variable {g : Geometry}

/-- The copy of a record: the revision at which it began, and what has been copied. -/
structure Copy (g : Geometry) where
  id : Int
  rev : Int
  byte : Fin g.valSize → Option UInt8
  ts : Option Int

namespace Copy

def start (id rev : Int) : Copy g := ⟨id, rev, fun _ => none, none⟩

def Blank (c : Copy g) : Prop := (∀ i, c.byte i = none) ∧ c.ts = none

/-- What has been copied is in the record. -/
def Agrees (c : Copy g) (r : Record g) : Prop :=
  (∀ i, ∀ b ∈ c.byte i, r.val.get i = b) ∧ ∀ t ∈ c.ts, r.ts = t

def Whole (c : Copy g) : Prop := ∀ i, (c.byte i).isSome

/-- The loop ends with `r`: the record, as it is now, has the revision at which the copy began. Only
the queue loop copies the time stamp. -/
def Yields (c : Copy g) (now r : Record g) : Prop :=
  now.rev = c.rev ∧ r.rev = c.rev ∧ (∀ i, c.byte i = some (r.val.get i)) ∧ c.ts.getD now.ts = r.ts

instance (c : Copy g) : Decidable c.Blank := inferInstanceAs (Decidable (_ ∧ _))

instance (c : Copy g) (r : Record g) : Decidable (c.Agrees r) := inferInstanceAs (Decidable (_ ∧ _))

instance (c : Copy g) : Decidable c.Whole := inferInstanceAs (Decidable (∀ _, _))

instance (c : Copy g) (now r : Record g) : Decidable (c.Yields now r) :=
    inferInstanceAs (Decidable (_ ∧ _))

variable {c : Copy g} {now r : Record g}

theorem Blank.agrees (h : c.Blank) (r : Record g) : c.Agrees r := by
  constructor
  · intro i b here
    rw [h.1 i] at here
    cases here
  · intro t here
    rw [h.2] at here
    cases here

theorem blank_start (id rev : Int) : (start id rev : Copy g).Blank := ⟨fun _ => rfl, rfl⟩

/-- What agrees with the record and is all of it is the record. -/
theorem Yields.eq (h : c.Yields now r) (agrees : c.Agrees now) : r = now := by
  obtain ⟨rev, revs, bytes, ts⟩ := h
  have val : r.val = now.val := by
    apply Vector.ext
    intro i hi
    exact (agrees.1 ⟨i, hi⟩ _ (bytes ⟨i, hi⟩)).symm
  have stamp : r.ts = now.ts := by
    rw [← ts]
    cases copied : c.ts with
    | none => rfl
    | some t => exact (agrees.2 t copied).symm
  cases r
  cases now
  simp only at val stamp revs rev
  rw [val, stamp, revs, rev]

end Copy

structure CopyWorld (g : Geometry) where
  world : World g
  copy : Option (Copy g)

namespace CopyWorld

def Idle (x : CopyWorld g) : Prop := ∀ c ∈ x.copy, c.Blank

/-- As long as the record has the revision at which the copy began, what has been copied is in
it. -/
def Agrees (x : CopyWorld g) : Prop :=
  ∀ c ∈ x.copy, (x.world.store.record c.id).rev = c.rev → c.Agrees (x.world.store.record c.id)

/-- The loop for record `id` ends with `r`. For a record that was never updated a gap answer copies
nothing. -/
def Finds (x : CopyWorld g) (id : Int) (r : Record g) : Prop :=
  (∃ c ∈ x.copy, c.id = id ∧ c.Yields (x.world.store.record id) r) ∨
    (x.Idle ∧ r = x.world.store.record id ∧ r.rev = 0)

instance (x : CopyWorld g) : Decidable x.Idle := inferInstanceAs (Decidable (∀ _ ∈ x.copy, _))

instance (x : CopyWorld g) (id : Int) (r : Record g) : Decidable (x.Finds id r) :=
  inferInstanceAs (Decidable (_ ∨ _))

theorem idle_none (w : World g) : Idle ⟨w, none⟩ := by
  rintro c ⟨⟩

theorem Idle.agrees {x : CopyWorld g} (h : x.Idle) : x.Agrees := fun c here _ => (h c here).agrees _

theorem Finds.eq {x : CopyWorld g} {id : Int} {r : Record g} (h : x.Finds id r)
    (agrees : x.Agrees) :
    r = x.world.store.record id := by
  rcases h with ⟨c, here, rfl, yields⟩ | ⟨_, found, _⟩
  · exact yields.eq (agrees c here yields.1)
  · exact found

end CopyWorld

/-- The moves of the others, and the steps of the copy. -/
inductive CopyMove (E : Env g) where
  | others (m : E.Move)
  /-- `record_read_lock` -/
  | readLock (id : Int)
  /-- a byte of `memcpy` -/
  | byte (i : Fin g.valSize)
  /-- `record_get_timestamp` -/
  | timestamp
  /-- `record_get_revision` finds another revision -/
  | retry

namespace Env

variable (E : Env g)

/-- A revision that was read and not used, as that of a record that is skipped, is forgotten. -/
def copyMove : CopyMove E → CopyWorld g → Option (CopyWorld g)
  | .others m, x => (E.move m x.world).map fun w => { x with world := w }
  | .readLock id, x =>
    if x.Idle ∧ 0 ≤ (x.world.store.record id).rev then
      some { x with copy := some (.start id (x.world.store.record id).rev) }
    else none
  | .byte i, x => x.copy.map fun c => { x with copy := some { c with
      byte := fun j => if j = i then some ((x.world.store.record c.id).val.get i) else c.byte j } }
  | .timestamp, x => x.copy.map fun c => { x with copy := some { c with
      ts := some (x.world.store.record c.id).ts } }
  | .retry, x => x.copy.bind fun c =>
    if c.Whole ∧ (x.world.store.record c.id).rev ≠ c.rev then some { x with copy := none } else none

/-- The loop ends, or it finds the record locked for too long; other calls are made before it. The
queue loop has read the revision before. -/
def copyReply : (c : Call) → c.Ans g → CopyWorld g → Option (CopyWorld g)
  | .recordCopy id, .ok r, x =>
    if E.admits (.recordCopy id) (.ok r) x.world ∧ 0 ≤ r.rev ∧
      x.Finds id r then some ⟨x.world, none⟩ else none
  | .recordReadLock id, .ok rev, x =>
    if x.Idle then
      (E.host.reply (.recordReadLock id) (.ok rev) x.world).map fun w => ⟨w, some (.start id rev)⟩
    else none
  | c, a, x => if x.Idle then (E.host.reply c a x.world).map fun w => { x with world := w } else none

/-- The sender, which copies a record in a loop, in its environment. -/
def copyHost : Host (Sender g) Call (Call.Ans g) (Turn g) (CopyWorld g) where
  Move := CopyMove E
  move := E.copyMove
  reply := E.copyReply
  Event := Event
  start := fun e a x => if x.Idle then E.host.start e a x.world else none
  out := Turn.sndr

def copyIdle (s : Sender g) (w : World g) : Conf E.copyHost :=
    ⟨none, .done ⟨Status.ok, s, false⟩, ⟨w, none⟩⟩

/-- What others do to a record while it is copied does not give it back the revision at which the
copy began, unless it has what has been copied. -/
def KeepsCopy (m : E.Move) (x : CopyWorld g) : Prop :=
  ∀ c ∈ x.copy, ∀ w ∈ E.move m x.world, (w.store.record c.id).rev = c.rev →
    c.Agrees (w.store.record c.id)

instance (m : E.Move) (x : CopyWorld g) : Decidable (E.KeepsCopy m x) :=
  inferInstanceAs (Decidable (∀ _ ∈ x.copy, ∀ _ ∈ E.move m x.world, _))

/-- The configuration with the copy left out. -/
def coarse (x : Conf E.copyHost) : Conf E.host := ⟨x.last, x.task, x.world.world⟩

/-- A choice that is not a step of the copy. -/
def coarseChoice : Choice E.copyHost → Option (Choice E.host)
  | .move (.others m) => some (.move m)
  | .move _ => none
  | .reply c a => some (.reply c a)
  | .start e => some (.start e)

/-- A choice of a run whose copies are made at once, where it is not a copy. -/
def fine : Choice E.host → Choice E.copyHost
  | .move m => .move (.others m)
  | .reply c a => .reply c a
  | .start e => .start e

variable {E}

/-- The steps of a copy keep it in agreement with its record. -/
theorem copyMove_agrees {m : CopyMove E} {x y : CopyWorld g} (agrees : x.Agrees)
    (h : E.copyMove m x = some y) (keeps : ∀ m', m = .others m' → E.KeepsCopy m' x) :
    y.Agrees ∧ ((∃ m', m = .others m' ∧ E.move m' x.world = some y.world) ∨
      ((∀ m', m ≠ .others m') ∧ y.world = x.world)) := by
  cases m with
  | others m =>
    obtain ⟨w, moved, rfl⟩ := Option.map_eq_some_iff.mp h
    exact ⟨fun c here => keeps m rfl c here w moved, Or.inl ⟨m, rfl, moved⟩⟩
  | readLock id =>
    simp only [copyMove] at h
    split at h
    · obtain rfl := Option.some.inj h
      refine ⟨CopyWorld.Idle.agrees ?_, Or.inr ⟨nofun, rfl⟩⟩
      rintro c ⟨⟩
      exact Copy.blank_start id _
    · cases h
  | byte i =>
    obtain ⟨c, here, rfl⟩ := Option.map_eq_some_iff.mp h
    refine ⟨?_, Or.inr ⟨nofun, rfl⟩⟩
    rintro _ ⟨⟩ same
    obtain ⟨bytes, ts⟩ := agrees c here same
    refine ⟨fun j b copied => ?_, ts⟩
    dsimp only at copied
    split at copied
    · rename_i eq
      subst eq
      exact Option.some.inj copied
    · exact bytes j b copied
  | timestamp =>
    obtain ⟨c, here, rfl⟩ := Option.map_eq_some_iff.mp h
    refine ⟨?_, Or.inr ⟨nofun, rfl⟩⟩
    rintro _ ⟨⟩ same
    refine ⟨(agrees c here same).1, ?_⟩
    rintro _ ⟨⟩
    rfl
  | retry =>
    obtain ⟨c, _, again⟩ := Option.bind_eq_some_iff.mp h
    split at again
    · obtain rfl := Option.some.inj again
      exact ⟨(CopyWorld.idle_none x.world).agrees, Or.inr ⟨nofun, rfl⟩⟩
    · cases again

/-- An answer is one that the call gets in one step. -/
theorem copyReply_agrees {c : Call} {a : c.Ans g} {x y : CopyWorld g} (agrees : x.Agrees)
    (h : E.copyReply c a x = some y) : y.Agrees ∧ E.host.reply c a x.world = some y.world := by
  unfold copyReply at h
  split at h
  · rename_i id r
    split at h
    · rename_i found
      obtain rfl := Option.some.inj h
      obtain ⟨admitted, low, finds⟩ := found
      refine ⟨(CopyWorld.idle_none x.world).agrees, ?_⟩
      show (if E.admits (.recordCopy id) (.ok r) x.world then World.reply (.recordCopy id) (.ok r) x.world
        else none) = some x.world
      rw [if_pos admitted]
      exact if_pos ⟨low, finds.eq agrees⟩
    · cases h
  · rename_i id rev
    split at h
    · obtain ⟨w, replied, rfl⟩ := Option.map_eq_some_iff.mp h
      refine ⟨CopyWorld.Idle.agrees ?_, replied⟩
      rintro c ⟨⟩
      exact Copy.blank_start id rev
    · cases h
  · split at h
    · rename_i idle
      obtain ⟨w, replied, rfl⟩ := Option.map_eq_some_iff.mp h
      exact ⟨CopyWorld.Idle.agrees idle, replied⟩
    · cases h

/-- A step of the sender that copies in a loop is a step of the one that copies at once, or none. -/
theorem copy_next {x y : Conf E.copyHost} {ch : Choice E.copyHost} (agrees : x.world.Agrees)
    (h : E.copyHost.next ch x = some y) (keeps : ∀ m, ch = .move (.others m) → E.KeepsCopy m x.world) :
    y.world.Agrees ∧ ((E.coarseChoice ch = none ∧ E.coarse y = E.coarse x) ∨
      ∃ ch', E.coarseChoice ch = some ch' ∧ E.host.next ch' (E.coarse x) = some (E.coarse y)) := by
  cases ch with
  | move m =>
    obtain ⟨v, moved, rfl⟩ := Option.map_eq_some_iff.mp h
    obtain ⟨kept, ⟨m', rfl, others⟩ | ⟨own, same⟩⟩ :=
      copyMove_agrees agrees moved fun m' eq => keeps m' (eq ▸ rfl)
    · refine ⟨kept, Or.inr ⟨.move m', rfl, ?_⟩⟩
      exact Option.map_eq_some_iff.mpr ⟨v.world, others, rfl⟩
    · refine ⟨kept, Or.inl ⟨?_, ?_⟩⟩
      · cases m with
        | others m' => exact absurd rfl (own m')
        | _ => rfl
      · rw [coarse, same, coarse]
  | reply c a =>
    simp only [Host.next] at h
    split at h
    · cases h
    · rename_i s c' k task
      split at h
      · rename_i same
        subst same
        obtain ⟨v, replied, rfl⟩ := Option.map_eq_some_iff.mp h
        obtain ⟨kept, answered⟩ := copyReply_agrees agrees replied
        refine ⟨kept, Or.inr ⟨.reply c a, rfl, ?_⟩⟩
        simp only [Host.next, coarse, task, ↓reduceDIte]
        exact Option.map_eq_some_iff.mpr ⟨v.world, answered, rfl⟩
      · cases h
  | start e =>
    simp only [Host.next] at h
    split at h
    · rename_i a task
      obtain ⟨t, started, rfl⟩ := Option.map_eq_some_iff.mp h
      simp only [copyHost] at started
      split at started
      · refine ⟨agrees, Or.inr ⟨.start e, rfl, ?_⟩⟩
        simp only [Host.next, coarse, task]
        exact Option.map_eq_some_iff.mpr ⟨t, started, rfl⟩
      · cases started
    · cases h

theorem coarseChoice_move {ch : Choice E.copyHost} {m : E.Move}
    (h : E.coarseChoice ch = some (.move m)) :
    ch = .move (.others m) := by
  cases ch with
  | move m' =>
    cases m' with
    | others m'' =>
      cases Option.some.inj h
      rfl
    | _ => cases h
  | _ => cases h

section Runs

variable (E) (ok : Conf E.host → Choice E.host → Conf E.host → Prop)

/-- The steps that keep the record that is copied, and as far as they are seen without the copies
meet the conditions of `ok`. -/
def CopyKept (x : Conf E.copyHost) (ch : Choice E.copyHost) (y : Conf E.copyHost) : Prop :=
  (∀ m, ch = .move (.others m) → E.KeepsCopy m x.world) ∧
    ∀ ch', E.coarseChoice ch = some ch' → ok (E.coarse x) ch' (E.coarse y)

variable {E ok} {s : Sender g} {w : World g}

/-- A run in which no record gets back its revision while it is copied is a run, and meets the same
conditions, when every copy is made at once. -/
theorem copy_refines {x : Conf E.copyHost}
    (run : E.copyHost.Reach (E.CopyKept ok) (E.copyIdle s w) x) :
    E.host.Reach ok (E.idleConf s w) (E.coarse x) := by
  refine (run.refines E.copyHost E.host E.coarse (fun x => x.world.Agrees)
    (CopyWorld.idle_none w).agrees ?_).2
  rintro x ch y agrees next ⟨keeps, allowed⟩
  obtain ⟨kept, ⟨_, same⟩ | ⟨ch', seen, step⟩⟩ := copy_next agrees next keeps
  · exact ⟨kept, Or.inl same⟩
  · exact ⟨kept, Or.inr ⟨ch', step, allowed ch' seen⟩⟩

/-- Bytes are copied one after the other. -/
theorem copy_bytes {x₀ x : Conf E.copyHost}
    (run : E.copyHost.Reach (E.CopyKept ok) x₀ x) {c : Copy g}
    (copy : x.world.copy = some c) (is : List (Fin g.valSize)) :
    ∃ c' : Copy g, E.copyHost.Reach (E.CopyKept ok) x₀ { x with world := ⟨x.world.world, some c'⟩ } ∧
      c'.id = c.id ∧ c'.rev = c.rev ∧ c'.ts = c.ts ∧
      ∀ i ∈ is, c'.byte i = some ((x.world.world.store.record c.id).val.get i) := by
  induction is with
  | nil => exact ⟨c, copy ▸ run, rfl, rfl, rfl, nofun⟩
  | cons i is ih =>
    obtain ⟨c', before, id, rev, ts, copied⟩ := ih
    refine ⟨{ c' with byte := fun j =>
      if j = i then some ((x.world.world.store.record c'.id).val.get i) else c'.byte j },
      .step (.move (.byte i)) before rfl ⟨nofun, nofun⟩, id, rev, ts, ?_⟩
    intro j here
    dsimp only
    split
    · rename_i same
      rw [id, same]
    · rename_i other
      exact copied j ((List.mem_cons.mp here).resolve_left other)

/-- A record that is not locked is copied at once. -/
theorem copy_record {x₀ x : Conf E.copyHost} (run : E.copyHost.Reach (E.CopyKept ok) x₀ x)
    (idle : x.world.Idle) {id : Int} (free : 0 ≤ (x.world.world.store.record id).rev) :
    ∃ c : Copy g, E.copyHost.Reach (E.CopyKept ok) x₀ { x with world := ⟨x.world.world, some c⟩ } ∧
      c.id = id ∧ c.Yields (x.world.world.store.record id) (x.world.world.store.record id) := by
  have begun : E.copyHost.Reach (E.CopyKept ok) x₀ { x with
      world := ⟨x.world.world, some (.start id (x.world.world.store.record id).rev)⟩ } := by
    refine .step (.move (.readLock id)) run ?_ ⟨nofun, nofun⟩
    exact Option.map_eq_some_iff.mpr ⟨_, if_pos ⟨idle, free⟩, rfl⟩
  obtain ⟨c, whole, same, rev, ts, bytes⟩ := copy_bytes begun rfl (List.finRange g.valSize)
  refine ⟨c, whole, same, rev.symm, rev.symm, fun i => bytes i (List.mem_finRange i), ?_⟩
  rw [ts]
  rfl

/-- Before a call that is answered in one step, its copy can be made. -/
theorem copyReply_atOnce {x₀ x : Conf E.copyHost} (run : E.copyHost.Reach (E.CopyKept ok) x₀ x)
    (idle : x.world.Idle) {c : Call} {a : c.Ans g} {w' : World g}
    (replied : E.host.reply c a x.world.world = some w') :
    ∃ copy, E.copyHost.Reach (E.CopyKept ok) x₀ { x with world := ⟨x.world.world, copy⟩ } ∧
      ∃ v, E.copyReply c a ⟨x.world.world, copy⟩ = some v ∧ v.world = w' ∧ v.Idle := by
  have simple : (E.host.reply c a x.world.world).map (fun w => (⟨w, x.world.copy⟩ : CopyWorld g)) =
      some ⟨w', x.world.copy⟩ := by
    rw [replied]
    rfl
  cases c with
  | recordCopy id =>
    cases a with
    | error st => exact ⟨x.world.copy, run, _, (if_pos idle).trans simple, rfl, idle⟩
    | ok r =>
      obtain ⟨admitted, found⟩ := Option.ite_none_right_eq_some.mp replied
      obtain ⟨⟨low, rfl⟩, same⟩ := Option.ite_none_right_eq_some.mp found
      obtain rfl := Option.some.inj same
      obtain ⟨copy, copied, rfl, yields⟩ := copy_record run idle low
      refine ⟨some copy, copied, ⟨x.world.world, none⟩,
        if_pos ⟨admitted, low, Or.inl ⟨copy, rfl, rfl, yields⟩⟩, rfl, CopyWorld.idle_none _⟩
  | recordReadLock id =>
    cases a with
    | error st => exact ⟨x.world.copy, run, _, (if_pos idle).trans simple, rfl, idle⟩
    | ok rev =>
      refine ⟨x.world.copy, run, ⟨w', some (.start id rev)⟩, (if_pos idle).trans ?_, rfl, ?_⟩
      · exact Option.map_eq_some_iff.mpr ⟨w', replied, rfl⟩
      · rintro c ⟨⟩
        exact Copy.blank_start id rev
  | _ => exact ⟨x.world.copy, run, _, (if_pos idle).trans simple, rfl, idle⟩

/-- Every run in which the copies are made at once is one of the loops, in which nothing happens to
a record that is being copied. -/
theorem copy_atOnce {x : Conf E.host} (run : E.host.Reach ok (E.idleConf s w) x) :
    ∃ y, E.copyHost.Reach (E.CopyKept ok) (E.copyIdle s w) y ∧ E.coarse y = x ∧ y.world.Idle := by
  induction run with
  | refl => exact ⟨E.copyIdle s w, .refl, rfl, CopyWorld.idle_none w⟩
  | @step x z ch _ next allowed ih =>
    obtain ⟨y, before, rfl, idle⟩ := ih
    cases ch with
    | move m =>
      obtain ⟨w', moved, rfl⟩ := Option.map_eq_some_iff.mp next
      refine ⟨{ y with world := ⟨w', y.world.copy⟩ },
        .step (.move (.others m)) before ?_ ⟨?_, ?_⟩, rfl, idle⟩
      · exact Option.map_eq_some_iff.mpr ⟨⟨w', y.world.copy⟩,
          Option.map_eq_some_iff.mpr ⟨w', moved, rfl⟩, rfl⟩
      · intro _ eq c here _ _ _
        cases eq
        exact (idle c here).agrees _
      · intro _ eq
        cases eq
        exact allowed
    | reply c a =>
      simp only [Host.next] at next
      split at next
      · cases next
      · rename_i s c' k task
        split at next
        · rename_i same
          subst same
          obtain ⟨w', replied, rfl⟩ := Option.map_eq_some_iff.mp next
          obtain ⟨copy, copied, v, answered, rfl, idle'⟩ := copyReply_atOnce before idle replied
          refine ⟨⟨y.last, k a, v⟩, .step (.reply c a) copied ?_ ⟨by simp, ?_⟩, rfl, idle'⟩
          · simp only [coarse] at task
            simp only [Host.next, task, ↓reduceDIte]
            exact Option.map_eq_some_iff.mpr ⟨v, answered, rfl⟩
          · intro _ eq
            cases eq
            exact allowed
        · cases next
    | start e =>
      simp only [Host.next] at next
      split at next
      · rename_i a task
        obtain ⟨t, started, rfl⟩ := Option.map_eq_some_iff.mp next
        refine ⟨⟨some e, t, y.world⟩, .step (.start e) before ?_ ⟨by simp, ?_⟩, rfl, idle⟩
        · simp only [coarse] at task
          simp only [Host.next, task]
          exact Option.map_eq_some_iff.mpr ⟨t, (if_pos idle).trans started, rfl⟩
        · intro _ eq
          cases eq
          exact allowed
      · cases next

end Runs

end Env

end Lancaster
