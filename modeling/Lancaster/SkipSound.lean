import Lancaster.Copying
import Lancaster.Transitions
import Lancaster.Packet

/-!
# Skipped records

`mcast_accum_record` skips a queued record whose revision is the one it was last staged
with. That is sound as long as a revision stands for one value. Writers count revisions
up, but erasing sets them back, compacting and copying take them from other records, and
the recovery of a crashed writer's lock keeps the old one whatever was written by then. And
a value that is staged is one value as long as its record does not get back the revision at
which its copy began.
-/

namespace Lancaster

open Bytes Interleaving Sender

variable {g : Geometry}

def unlockedWord (v : Int) : Int := if v < 0 then v + 9223372036854775808 else v

theorem unlockedWord_lockedWord {v : Int} (low : 0 ≤ v) (high : v ≤ spinMax) :
    unlockedWord (lockedWord v) = v := by
  simp only [spinMax] at high
  rw [lockedWord, if_neg (by omega), unlockedWord, if_pos (by omega)]
  omega

/-- What the library's operations do to a record that is shared with the sender. -/
inductive LibMove (g : Geometry) where
  /-- `record_write_lock` -/
  | writeLock (id : Int)
  /-- the holder of the lock writes to the record -/
  | write (id : Int) (ts : Int) (val : Value g)
  /-- `record_set_revision(rec, NEXT_REV(rev))` behind an update -/
  | setNextRev (id : Int)
  /-- `record_set_revision(rec, rev)` behind a lock under which nothing was written -/
  | release (id : Int)
  /-- `storage_clear_record` -/
  | clearRecord (id : Int)
  /-- `record_set_revision` with the revision of another record -/
  | setRevision (id : Int) (rev : Int)
  /-- what `storage_create` does to a record that is still locked -/
  | recover (id : Int)
  | writeQueue (id : Int)

/-- What the holder of record `id` leaves when it gives the lock back. -/
def LibMove.leaves (w : World g) : LibMove g → Option (Int × Record g)
  | .setNextRev id => some (id, { w.store.record id with
      rev := nextRev (unlockedWord (w.store.record id).rev) })
  | .clearRecord id => some (id, ⟨0, 0, Vector.replicate g.valSize 0⟩)
  | .setRevision id rev => some (id, { w.store.record id with rev := rev })
  | .recover id => some (id, { w.store.record id with rev := unlockedWord (w.store.record id).rev })
  | _ => none

def World.libMove (m : LibMove g) (w : World g) : Option (World g) :=
  match m with
  | .writeLock id =>
    if 0 ≤ (w.store.record id).rev then
      some { w with store := w.store.setRecord id { w.store.record id with
        rev := lockedWord (w.store.record id).rev } }
    else none
  | .write id ts val =>
    if (w.store.record id).rev < 0 then
      some { w with store := w.store.setRecord id { w.store.record id with ts := ts, val := val } }
    else none
  | .release id =>
    match (w.commits id).getLast? with
    | some r =>
      if (w.store.record id).rev < 0 ∧ (w.store.record id).ts = r.ts ∧
          (w.store.record id).val = r.val then
        some { w with store := w.store.setRecord id r }
      else none
    | none => none
  | .writeQueue id =>
    match w.store.storageWriteQueue g.qCapacity id with
    | .ok store => some { w with store := store }
    | .error _ => none
  | m =>
    match m.leaves w with
    | some (id, r) =>
      if (w.store.record id).rev < 0 ∧ 0 ≤ r.rev ∧ r.rev ≤ spinMax then some (w.commit id r)
      else none
    | none => none

/-- The sender beside any users of the library. -/
def libEnv (g : Geometry) : Env g where
  Move := LibMove g
  move := World.libMove
  admits := fun _ _ _ => true
  allows := fun _ _ _ => true

/-- The revision of `r` is above the one that record `id` was last staged with, or it is
that one and the value is the staged one. -/
def Fresh (s : Sender g) (id : Int) (r : Record g) : Prop :=
  s.recordRevs (id - g.baseId) < r.rev ∨
    (s.recordRevs (id - g.baseId) = r.rev ∧ s.lastStaged id = some r.val)

/-- Updates do not wrap the revision around, and what erasing, compacting, copying or a
recovery leaves is fresh. -/
def KeepsRevisions (m : LibMove g) (s : Sender g) (w : World g) : Prop :=
  match m with
  | .setNextRev id => unlockedWord (w.store.record id).rev ≠ spinMax
  | m => ∀ id r, m.leaves w = some (id, r) → Fresh s id r

/-- The last revision a record was given is fresh, and a lock hides it at most. -/
structure RecordInv (s : Sender g) (w : World g) (id : Int) (r : Record g) : Prop where
  last : (w.commits id).getLast? = some r
  low : 0 ≤ r.rev
  high : r.rev ≤ spinMax
  fresh : Fresh s id r
  stored : w.store.record id = r ∨ (w.store.record id).rev = lockedWord r.rev

def SkipInv (_ : Phase) (s : Sender g) (w : World g) : Prop := ∀ id, ∃ r, RecordInv s w id r

namespace RecordInv

variable {s s' : Sender g} {w w' : World g} {id : Int} {r : Record g}

theorem free (h : RecordInv s w id r) (free : 0 ≤ (w.store.record id).rev) :
    w.store.record id = r := by
  rcases h.stored with same | locked
  · exact same
  · have := lockedWord_neg h.high
    omega

theorem held (h : RecordInv s w id r) (held : (w.store.record id).rev < 0) :
    (w.store.record id).rev = lockedWord r.rev := by
  rcases h.stored with same | locked
  · have := h.low
    rw [same] at held
    omega
  · exact locked

/-- The sender and the record stay as they are. -/
theorem same (h : RecordInv s w id r) (revs : s'.recordRevs = s.recordRevs)
    (staged : s'.lastStaged = s.lastStaged) (record : w'.store.record id = w.store.record id)
    (commits : w'.commits id = w.commits id) : RecordInv s' w' id r := by
  refine ⟨?_, h.low, h.high, ?_, ?_⟩
  · rw [commits]
    exact h.last
  · rw [Fresh, revs, staged]
    exact h.fresh
  · rw [record]
    exact h.stored

end RecordInv

/-- The lock of record `id` is given back with `r`. -/
theorem SkipInv.commit {ph : Phase} {s : Sender g} {w : World g} (h : SkipInv ph s w) {id : Int}
    {r : Record g} (low : 0 ≤ r.rev) (high : r.rev ≤ spinMax) (fresh : Fresh s id r) :
    SkipInv ph s (w.commit id r) := by
  intro i
  by_cases hi : i = id
  · subst hi
    refine ⟨r, ?_, low, high, fresh, Or.inl ?_⟩
    · simp [World.commit]
    · simp [World.commit]
  · obtain ⟨r', hr⟩ := h i
    refine ⟨r', hr.same rfl rfl ?_ ?_⟩
    · simp [World.commit, Storage.setRecord, hi]
    · simp [World.commit, hi]

theorem SkipInv.setRecord {ph : Phase} {s : Sender g} {w : World g} (h : SkipInv ph s w) {id : Int}
    {r : Record g} (stored : ∀ r₀, RecordInv s w id r₀ → r = r₀ ∨ r.rev = lockedWord r₀.rev) :
    SkipInv ph s { w with store := w.store.setRecord id r } := by
  intro i
  obtain ⟨r', hr⟩ := h i
  by_cases hi : i = id
  · subst hi
    refine ⟨r', hr.last, hr.low, hr.high, hr.fresh, ?_⟩
    simpa using stored r' hr
  · exact ⟨r', hr.same rfl rfl (by simp [Storage.setRecord, hi]) rfl⟩

/-- The moves that give a lock back with a revision that may be any. -/
theorem SkipInv.leaves {ph : Phase} {s : Sender g} {w w' : World g} (h : SkipInv ph s w)
    {m : LibMove g} (fresh : ∀ id r, m.leaves w = some (id, r) → (w.store.record id).rev < 0 →
      0 ≤ r.rev → r.rev ≤ spinMax → Fresh s id r)
    (hm : (match m.leaves w with
      | some (id, r) =>
        if (w.store.record id).rev < 0 ∧ 0 ≤ r.rev ∧ r.rev ≤ spinMax then some (w.commit id r)
        else none
      | none => none) = some w') : SkipInv ph s w' := by
  split at hm
  · rename_i id r leaves
    split at hm
    · rename_i ok
      obtain rfl := Option.some.inj hm
      exact h.commit ok.2.1 ok.2.2 (fresh id r leaves ok.1 ok.2.1 ok.2.2)
    · cases hm
  · cases hm

theorem SkipInv.moved {ph : Phase} {s : Sender g} {w w' : World g} {m : LibMove g}
    (h : SkipInv ph s w) (keeps : KeepsRevisions m s w) (hm : World.libMove m w = some w') :
    SkipInv ph s w' := by
  cases m with
  | writeLock id =>
    simp only [World.libMove] at hm
    split at hm
    · rename_i free
      obtain rfl := Option.some.inj hm
      refine h.setRecord fun r₀ hr => Or.inr ?_
      rw [hr.free free]
    · cases hm
  | write id ts val =>
    simp only [World.libMove] at hm
    split at hm
    · rename_i held
      obtain rfl := Option.some.inj hm
      exact h.setRecord fun r₀ hr => Or.inr (hr.held held)
    · cases hm
  | release id =>
    simp only [World.libMove] at hm
    split at hm
    · rename_i r last
      split at hm
      · obtain rfl := Option.some.inj hm
        refine h.setRecord fun r₀ hr => Or.inl ?_
        exact Option.some.inj (last.symm.trans hr.last)
      · cases hm
    · cases hm
  | writeQueue id =>
    simp only [World.libMove, Storage.storageWriteQueue] at hm
    split at hm
    · rename_i store queued
      obtain rfl := Option.some.inj hm
      split at queued
      · cases queued
      · obtain rfl := Except.ok.inj queued
        intro i
        obtain ⟨r, hr⟩ := h i
        exact ⟨r, hr.same rfl rfl rfl rfl⟩
    · cases hm
  | setNextRev id =>
    refine h.leaves (m := .setNextRev id) ?_ hm
    intro i r leaves held _ _
    obtain ⟨rfl, rfl⟩ := Prod.mk.inj (Option.some.inj leaves)
    -- the holder took the lock at a revision that was fresh then
    obtain ⟨r₀, hr⟩ := h id
    have old : unlockedWord (w.store.record id).rev = r₀.rev := by
      rw [hr.held held]
      exact unlockedWord_lockedWord hr.low hr.high
    have count : unlockedWord (w.store.record id).rev ≠ spinMax := keeps
    have low := hr.low
    have high := hr.high
    left
    simp only [nextRev, old]
    rw [old] at count
    simp only [spinMax] at count high
    rcases hr.fresh with above | ⟨same, _⟩ <;> omega
  | clearRecord id => exact h.leaves (fun i r leaves _ _ _ => keeps i r leaves) hm
  | setRevision id rev => exact h.leaves (fun i r leaves _ _ _ => keeps i r leaves) hm
  | recover id => exact h.leaves (fun i r leaves _ _ _ => keeps i r leaves) hm

theorem SkipInv.silent {ph ph' : Phase} {s s' : Sender g} {w : World g} (h : SkipInv ph s w)
    (step : Silent ph s ph' s') : SkipInv ph' s' w := by
  have same := step.sameRevs
  intro id
  obtain ⟨r, hr⟩ := h id
  exact ⟨r, hr.same same.1 same.2 rfl rfl⟩

/-- Answers of calls: a record that is staged has the revision and the value it was
staged with. -/
theorem SkipInv.answered {ph ph' : Phase} {s s' : Sender g} {w w' : World g} {E : Env g}
    {e : Event} {call : Call} (h : SkipInv ph s w) (step : Answer E e call ph s w ph' s' w') :
    SkipInv ph' s' w' := by
  intro i
  obtain ⟨r, hr⟩ := h i
  cases step with
  | @copy q n id sent _ _ known free =>
    by_cases hi : i = id
    · subst hi
      have same := hr.free free
      refine ⟨r, hr.last, hr.low, hr.high, Or.inr ?_, hr.stored⟩
      simp [stageValue, same]
    · refine ⟨r, hr.last, hr.low, hr.high, ?_, hr.stored⟩
      have other : ¬ i - g.baseId = id - g.baseId := by omega
      simpa [Fresh, stageValue, other, hi] using hr.fresh
  | _ => exact ⟨r, hr.same rfl rfl rfl rfl⟩

theorem skipKept : Kept (libEnv g) (fun _ _ _ => True) KeepsRevisions (fun _ _ _ => True)
    SkipInv where
  moved := fun h _ keeps hm => h.moved keeps hm
  silent := fun h step => h.silent step
  answered := fun h _ step => h.answered step
  quits := fun h _ _ _ => h

/-- The read lock of record `id` is about to find the revision it was last staged with. -/
def Skips (x : Conf (libEnv g).host) (id : Int) : Prop :=
  ∃ s k, x.task = .call s (.recordReadLock id) k ∧ 0 ≤ (x.world.store.record id).rev ∧
    (x.world.store.record id).rev = s.recordRevs (id - g.baseId)

/-- Updates do not wrap a revision, and all that erasing, compacting, copying and lock recovery
leave is fresh. -/
def KeepsValues (x : Conf (libEnv g).host) (ch : Choice (libEnv g).host)
    (_ : Conf (libEnv g).host) : Prop :=
  ∀ m, ch = .move m → KeepsRevisions m x.state x.world

/-- When every copy is made at once, a record that is skipped has the value it was last staged
with. -/
theorem skips_lastStaged {mtu : Nat} {buf : List UInt8} {ignoreOverrun : Bool}
    {heartbeatUsec maxPktAgeUsec now : Int} {store : Storage g}
    (free : ∀ id, 0 ≤ (store.record id).rev ∧ (store.record id).rev ≤ spinMax)
    {x : Conf (libEnv g).host}
    (run : (libEnv g).host.Reach KeepsValues
      ((libEnv g).idleConf (Sender.init mtu buf ignoreOverrun heartbeatUsec maxPktAgeUsec now)
        (World.init store)) x)
    {id : Int} (skips : Skips x id) :
    x.state.lastStaged id = some (x.world.store.record id).val := by
  have init : SkipInv .rest (Sender.init mtu buf ignoreOverrun heartbeatUsec maxPktAgeUsec now)
      (World.init store) := by
    intro id
    obtain ⟨low, high⟩ := free id
    refine ⟨store.record id, rfl, low, high, Or.inl ?_, Or.inl rfl⟩
    simp only [Sender.init]
    omega
  obtain ⟨ph, h⟩ := skipKept.holds (fun _ _ _ _ _ => trivial) (fun _ m _ _ keeps => keeps m rfl)
    (fun _ _ _ _ _ _ => trivial) init trivial run
  obtain ⟨s, k, task, locked, rev⟩ := skips
  obtain ⟨r, hr⟩ := h id
  have same := hr.free locked
  have shown : x.state = s := by
    rw [Conf.state, task]
  rcases hr.fresh with above | ⟨_, staged⟩
  · rw [same, ← shown] at rev
    omega
  · rw [staged, same]

/-- In every run in which updates do not wrap a revision, all that erasing, compacting, copying and
lock recovery leave is fresh, and no record gets back, while it is copied, the revision at which its
copy began: a record is only skipped while it has the value it was last staged with. -/
theorem skipped_is_staged {mtu : Nat} {buf : List UInt8} {ignoreOverrun : Bool}
    {heartbeatUsec maxPktAgeUsec now : Int} {store : Storage g}
    (free : ∀ id, 0 ≤ (store.record id).rev ∧ (store.record id).rev ≤ spinMax)
    {x : Conf (libEnv g).copyHost}
    (run : (libEnv g).copyHost.Reach ((libEnv g).CopyKept KeepsValues)
      ((libEnv g).copyIdle (Sender.init mtu buf ignoreOverrun heartbeatUsec maxPktAgeUsec now)
        (World.init store)) x)
    {id : Int} (skips : Skips ((libEnv g).coarse x) id) :
    x.state.lastStaged id = some (x.world.world.store.record id).val :=
  skips_lastStaged free (Env.copy_refines run) skips

abbrev LibChoice : Type := Choice (libEnv small).copyHost

def libMoves (ms : List (LibMove small)) : List LibChoice := ms.map fun m => .move (.others m)

/-- Record 0 is updated to the value of byte `b` and queued. -/
def writeByte (b : UInt8) : List (LibMove small) :=
  [.writeLock 0, .write 0 0 (smallValue b), .setNextRev 0, .writeQueue 0]

/-- The value of record 0 and its time stamp are copied, and `during` happens in between. -/
def copyByte (during : List (LibMove small)) : List LibChoice :=
  [.move (.readLock 0), .move (.byte ⟨0, Nat.one_pos⟩)] ++ libMoves during ++ [.move .timestamp]

/-- With a client connected, record 0 is updated, and staged with byte `b` and revision `rev` when
it has been copied. -/
def stageUpdate (copied : List LibChoice) (rev : Int) (b : UInt8) : List LibChoice :=
  (acceptFirst (libEnv small) 0 0).map (libEnv small).fine ++ libMoves (writeByte 7) ++
  [.start Event.mcast, .reply .storageGetQueueHead (1 : Nat),
   .reply (.storageReadQueue 0) (.ok (0 : Int)),
     .reply (.recordReadLock 0) (.ok (1 : Int))] ++ copied ++
  [.reply (.recordCopy 0) (.ok ⟨rev, 0, smallValue b⟩), .reply .clockTime (.ok (0 : Int)),
   .reply (.latencyOnSample 0) (.ok ())]

def lookAgain : List LibChoice :=
  [.start Event.mcast, .reply .storageGetQueueHead (2 : Nat),
   .reply (.storageReadQueue 1) (.ok (0 : Int))]

/-- Record 0 is about to be skipped with the byte `b`; byte `staged` was staged last. -/
def skipsWith (b staged : UInt8) (x : Conf (libEnv small).copyHost) : Bool :=
  match x.task with
  | .call s (.recordReadLock 0) _ =>
    decide (0 ≤ (x.world.world.store.record 0).rev ∧
      (x.world.world.store.record 0).rev = s.recordRevs (0 - small.baseId) ∧
      (x.world.world.store.record 0).val = smallValue b ∧ s.lastStaged 0 = some (smallValue staged))
  | _ => false

theorem skipsWith_spec {b staged : UInt8} {x : Conf (libEnv small).copyHost}
    (h : skipsWith b staged x = true) :
    Skips ((libEnv small).coarse x) 0 ∧ (x.world.world.store.record 0).val = smallValue b ∧
      x.state.lastStaged 0 = some (smallValue staged) := by
  unfold skipsWith at h
  split at h
  · rename_i s k task
    obtain ⟨free, revs, val, last⟩ := of_decide_eq_true h
    refine ⟨⟨s, k, task, free, revs⟩, val, ?_⟩
    rw [Conf.state, task]
    exact last
  · cases h

/-- A move counts a revision up, or leaves one above that which was staged. -/
def risesAbove (s : Sender small) (w : World small) : LibMove small → Bool
  | .setNextRev id => decide (unlockedWord (w.store.record id).rev ≠ spinMax)
  | m => (m.leaves w).all fun (id, r) => decide (s.recordRevs (id - small.baseId) < r.rev)

theorem risesAbove_keeps {s : Sender small} {w : World small} {m : LibMove small}
    (h : risesAbove s w m = true) : KeepsRevisions m s w := by
  cases m with
  | setNextRev id => simpa [KeepsRevisions, risesAbove] using h
  | _ =>
    intro id r leaves
    simp only [risesAbove, leaves, Option.all_some, decide_eq_true_eq] at h
    exact Or.inl h

/-- A test of the moves of the others. -/
def onOthers {E : Env g} (test : E.Move → Bool) : Choice E.copyHost → Bool
  | .move (.others m) => test m
  | .move _ => true
  | .reply _ _ => true
  | .start _ => true

/-- A record that is queued twice is skipped the second time. It was updated again while it was
copied, and copied anew. -/
theorem skipped_is_staged_small : ∃ x : Conf (libEnv small).copyHost, Skips ((libEnv small).coarse x) 0 ∧
    x.state.lastStaged 0 = some (smallValue 8) ∧
    x.state.lastStaged 0 = some (x.world.world.store.record 0).val := by
  have ends : ((libEnv small).copyHost.runWhile
      (fun x ch _ => onOthers
        (fun m => risesAbove x.state x.world.world m && decide ((libEnv small).KeepsCopy m x.world)) ch)
      (stageUpdate (copyByte (writeByte 8) ++ .move .retry :: copyByte []) 2 8 ++ lookAgain)
      ((libEnv small).copyIdle smallSender (World.init smallStore))).any (skipsWith 8 8) =
        true := by
    decide +kernel
  obtain ⟨x, run, skips⟩ := Host.reach_of_runWhile _ _ ends
  have run : (libEnv small).copyHost.Reach ((libEnv small).CopyKept KeepsValues)
      ((libEnv small).copyIdle smallSender (World.init smallStore)) x := by
    refine run.mono _ fun x ch y allowed => ⟨?_, ?_⟩
    · rintro m rfl
      exact of_decide_eq_true (Bool.and_eq_true _ _ ▸ allowed).2
    · rintro ch' seen m rfl
      obtain rfl := Env.coarseChoice_move seen
      exact risesAbove_keeps (Bool.and_eq_true _ _ ▸ allowed).1
  obtain ⟨skips, _, staged⟩ := skipsWith_spec skips
  exact ⟨x, skips, staged, skipped_is_staged (fun _ => by simp [smallStore, spinMax]) run skips⟩

/-- Erased and updated again, the record is back at its old revision: the new value is skipped. If
that happens while it is copied, all that the others leave is fresh, and a value is staged that the
record no longer has. -/
theorem skipped_but_changed :
    (∃ x, (libEnv small).copyHost.Reachable
      ((libEnv small).copyIdle smallSender (World.init smallStore)) x ∧
      ∃ id, Skips ((libEnv small).coarse x) id ∧
        x.state.lastStaged id ≠ some (x.world.world.store.record id).val) ∧
    ∃ x, (libEnv small).copyHost.Reach
      (fun x ch _ => ∀ m, ch = .move (.others m) → KeepsRevisions m x.state x.world.world)
      ((libEnv small).copyIdle smallSender (World.init smallStore)) x ∧
      ∃ id, Skips ((libEnv small).coarse x) id ∧
        x.state.lastStaged id ≠ some (x.world.world.store.record id).val := by
  have erased : ((libEnv small).copyHost.run
      (stageUpdate (copyByte []) 1 7 ++ libMoves ([.writeLock 0, .clearRecord 0] ++ writeByte 9) ++ lookAgain)
      ((libEnv small).copyIdle smallSender (World.init smallStore))).any (skipsWith 9 7) =
        true := by
    decide +kernel
  have torn : ((libEnv small).copyHost.runWhile
      (fun x ch _ => onOthers (risesAbove x.state x.world.world) ch)
      (stageUpdate (copyByte ([.writeLock 0, .clearRecord 0] ++ writeByte 9)) 1 7 ++ lookAgain)
      ((libEnv small).copyIdle smallSender (World.init smallStore))).any (skipsWith 9 7) =
        true := by
    decide +kernel
  constructor
  · obtain ⟨x, run, skips⟩ := Host.reach_of_any _ _ (fun _ _ _ _ _ => trivial) erased
    obtain ⟨skips, val, staged⟩ := skipsWith_spec skips
    refine ⟨x, run, 0, skips, ?_⟩
    rw [staged, val]
    decide
  · obtain ⟨x, run, skips⟩ := Host.reach_of_runWhile _ _ torn
    obtain ⟨skips, val, staged⟩ := skipsWith_spec skips
    refine ⟨x, run.mono _ ?_, 0, skips, ?_⟩
    · rintro x ch y allowed m rfl
      exact risesAbove_keeps allowed
    · rw [staged, val]
      decide

end Lancaster
