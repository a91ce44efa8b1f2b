import Lancaster.Batch
import Mathlib.Data.List.Induction

/-!
# A reader of changes

Writers append identifiers to the change queue, and a reader calls `batch_read_changed_records`
with the head that the call before has left. No write falls between a round's look at the head
of the queue and its last entry. Up to the first call that fails, the reader is given what was
written, each entry once and in order; and what fails a round is the distance to the head.
-/

namespace Lancaster

variable {g : Geometry}

/-- The storage behind a series of calls of `storage_write_queue`. -/
def queueAfter (st : Storage g) (written : List Int) : Storage g :=
  written.foldl (fun st id =>
    match st.storageWriteQueue g.qCapacity id with
    | .ok st => st
    | .error _ => st) st

/-- What happens up to a poll and behind it: the identifiers that are written before, the
records that are copied, and the calls of `check_done`. -/
structure ReadTurn (g : Geometry) where
  writes : List Int
  record : Int → Int → Record g
  sleep : Except Failure Unit
  clock : Except Failure Int

/-- What the poll finds. No signal is raised, and no record is locked. -/
def ReadTurn.poll (t : ReadTurn g) (st : Storage g) : Poll g where
  head := st.qHead
  readQueue := fun q => st.storageReadQueue g.qCapacity q.toNat
  copy := fun q id => .ok (t.record q id)
  check := ⟨.ok (), t.sleep, t.clock⟩

def pollsOf (st : Storage g) (written : List Int) : List (ReadTurn g) → List (Poll g)
  | [] => []
  | t :: rest =>
    t.poll (queueAfter st (written ++ t.writes)) :: pollsOf st (written ++ t.writes) rest

/-- A call of `batch_read_changed_records`, and the identifiers written since the one before. -/
structure ReadCall (g : Geometry) where
  before : List Int
  args : ReadArgs
  clock : Except Failure Int
  turns : List (ReadTurn g)

structure ReadReport (g : Geometry) where
  call : ReadCall g
  status : Option Int
  state : ReadState

/-- The call as it runs, and everything that is written when it ends. -/
def ReadCall.run (c : ReadCall g) (st : Storage g) (written : List Int) (head : Int) :
    ReadReport g × List Int :=
  let written := written ++ c.before
  let (status, x) := batchReadChangedRecords c.args g.qCapacity c.clock
    (queueAfter st written).qHead (pollsOf st written c.turns) head
  (⟨c, status, x⟩, written ++ (c.turns.take x.polls).flatMap ReadTurn.writes)

/-- The calls one after the other, up to the first that fails or does not return. -/
def readSession (st : Storage g) : List (ReadCall g) → List Int → Int →
    List (ReadReport g) × List Int
  | [], written, _ => ([], written)
  | c :: rest, written, head =>
    let (report, written) := c.run st written head
    match report.status with
    | none => ([report], written)
    | some status =>
      if Status.Failed status then ([report], written)
      else
        let (reports, written) := readSession st rest written report.state.head
        (report :: reports, written)

def ReadReport.Succeeded (r : ReadReport g) : Prop := ∃ n, r.status = some n ∧ ¬ Status.Failed n

instance (r : ReadReport g) : Decidable r.Succeeded :=
  match h : r.status with
  | none => isFalse (by rintro ⟨n, found, _⟩; rw [h] at found; cases found)
  | some n =>
    if fine : ¬ Status.Failed n then isTrue ⟨n, h, fine⟩
    else isFalse (by rintro ⟨m, found, ok⟩; rw [h] at found; cases found; exact fine ok)

/-- The identifiers at positions `a` up to but not including `b`. -/
def slice (written : List Int) (a b : Int) : List Int := (written.take b.toNat).drop a.toNat

/-! ## The ring -/

variable {st : Storage g} {written : List Int}

theorem queueAfter_concat (queue : g.qCapacity ≠ 0) (id : Int) :
    queueAfter st (written ++ [id]) =
      { queueAfter st written with
        changeQ := fun j => if j = Storage.slot g.qCapacity (queueAfter st written).qHead then id
          else (queueAfter st written).changeQ j
        qHead := (queueAfter st written).qHead + 1 } := by
  have last : queueAfter st (written ++ [id]) = queueAfter (queueAfter st written) [id] := by
    rw [queueAfter, List.foldl_append, queueAfter, queueAfter]
  rw [last, queueAfter, List.foldl_cons, List.foldl_nil, Storage.storageWriteQueue, if_neg queue]

theorem queueAfter_head (queue : g.qCapacity ≠ 0) (fresh : st.qHead = 0) :
    (queueAfter st written).qHead = written.length := by
  induction written using List.reverseRecOn with
  | nil => exact fresh
  | append_singleton written id ih =>
    rw [queueAfter_concat queue, List.length_append]
    exact congrArg (· + 1) ih

/-- The ring holds what was written last. -/
theorem queueAfter_entry (queue : g.qCapacity ≠ 0) (fresh : st.qHead = 0) {q : Nat} {id : Int}
    (there : written[q]? = some id) (near : written.length ≤ q + g.qCapacity) :
    (queueAfter st written).changeQ (Storage.slot g.qCapacity q) = id := by
  induction written using List.reverseRecOn with
  | nil => cases there
  | append_singleton written last ih =>
    rw [queueAfter_concat queue, queueAfter_head queue fresh]
    rw [List.length_append, List.length_singleton] at near
    by_cases newest : q = written.length
    · subst newest
      rw [List.getElem?_append_right (le_refl _)] at there
      simp only [Nat.sub_self, List.getElem?_cons_zero, Option.some.injEq] at there
      simp [there]
    · have inside : q < written.length := by
        have bound := (List.getElem?_eq_some_iff.mp there).1
        rw [List.length_append, List.length_singleton] at bound
        omega
      have apart : Storage.slot g.qCapacity q ≠ Storage.slot g.qCapacity written.length :=
        Storage.slot_ne inside (by omega)
      rw [List.getElem?_append_left inside] at there
      simp only [apart, ↓reduceIte]
      exact ih there (by omega)

/-! ## A round -/

theorem slice_append (more : List Int) {a b : Int} (inside : b ≤ written.length) :
    slice (written ++ more) a b = slice written a b := by
  rw [slice, List.take_append_of_le_length (by omega), slice]

theorem slice_self (a : Int) : slice written a a = [] := by
  rw [slice, List.drop_eq_nil_iff, List.length_take]
  omega

theorem slice_trans {a b c : Int} (first : a ≤ b) (second : b ≤ c) (inside : c ≤ written.length) :
    slice written a b ++ slice written b c = slice written a c := by
  have before : (written.take c.toNat).take b.toNat = written.take b.toNat := by
    rw [List.take_take, min_eq_left (by omega)]
  have enough : a.toNat ≤ (written.take b.toNat).length := by
    rw [List.length_take]
    omega
  rw [slice, slice, slice, ← List.drop_append_of_le_length enough, ← before,
    List.take_append_drop]

theorem length_slice {a b : Int} (inside : b ≤ written.length) :
    (slice written a b).length = b.toNat - a.toNat := by
  rw [slice, List.length_drop, List.length_take]
  omega

/-- A call that reads on from `first`: what it has read, and no round of it has failed. -/
structure Following (cap : Nat) (written : List Int) (first : Int) (x : ReadState) : Prop where
  position : 0 ≤ first
  inside : x.head ≤ written.length
  counted : x.head = first + x.n
  read : x.cols.ids = slice written first x.head
  sound : ∀ r ∈ x.rounds, ¬ Status.Failed r.status ∧ (r.queueHead : Int) - r.head ≤ cap

theorem Following.grow {cap : Nat} {first : Int} {x : ReadState}
    (h : Following cap written first x) (more : List Int) :
    Following cap (written ++ more) first x := by
  refine ⟨h.position, ?_, h.counted, ?_, h.sound⟩
  · have inside := h.inside
    rw [List.length_append]
    omega
  · rw [slice_append _ h.inside]
    exact h.read

/-- The entries of a round are copied one after the other. -/
theorem readEntries_ids {args : ReadArgs} (wanted : args.ids = true) {p : Poll g} (ids : List Int)
    (q : Int) (cols : Columns)
    (there : ∀ (i : Nat) id, ids[i]? = some id →
      p.readQueue (q + i) = .ok id ∧ g.Holds id ∧ ∃ r, p.copy (q + i) id = .ok r) :
    ∃ cols', readEntries args p ids.length q cols = (Status.ok, cols') ∧
      cols'.ids = cols.ids ++ ids := by
  induction ids generalizing q cols with
  | nil => exact ⟨cols, rfl, (List.append_nil _).symm⟩
  | cons id rest ih =>
    obtain ⟨read, known, r, copied⟩ := there 0 id rfl
    rw [Int.natCast_zero, Int.add_zero] at read copied
    obtain ⟨cols', eq, all⟩ := ih (q + 1) (cols.store args id r) (by
      intro i id' here
      have next := there (i + 1) id' here
      push_cast at next
      rwa [add_comm (i : Int) 1, ← add_assoc] at next)
    refine ⟨cols', ?_, ?_⟩
    · rw [List.length_cons, readEntries, read]
      dsimp only
      rw [if_pos known, copied]
      exact eq
    · rw [all, Columns.store, if_pos wanted, List.append_assoc]
      rfl

section Call

variable (args : ReadArgs) {first : Int} {x : ReadState} {t : ReadTurn g}

/-- A round of a reader: it overruns, or it reads the next entries. -/
theorem Following.round (queue : g.qCapacity ≠ 0) (fresh : st.qHead = 0) (wanted : args.ids = true)
    (known : ∀ id ∈ written, g.Holds id) (h : Following g.qCapacity written first x)
    (new : ((t.poll (queueAfter st written)).head : Int) ≠ x.head) :
    ((g.qCapacity : Int) < written.length - x.head ∧
      readRound args g.qCapacity (t.poll (queueAfter st written)) x =
        (Status.changeQueueOverrun,
          { x with rounds := x.rounds ++ [⟨x.head, written.length, Status.changeQueueOverrun⟩] })) ∨
    (∃ y, readRound args g.qCapacity (t.poll (queueAfter st written)) x = (Status.ok, y) ∧
      Following g.qCapacity written first y ∧ y.polls = x.polls ∧
      (x.n ≤ args.count → y.n ≤ args.count)) := by
  have head : (t.poll (queueAfter st written)).head = written.length := queueAfter_head queue fresh
  have inside := h.inside
  have position := h.position
  have counted := h.counted
  have ahead : x.head < (t.poll (queueAfter st written)).head := by
    rw [head] at new ⊢
    omega
  have round : ∀ s, x.round (t.poll (queueAfter st written)) s =
      x.rounds ++ [⟨x.head, written.length, s⟩] := by
    intro s
    rw [ReadState.round, head]
  rw [readRound_ahead _ _ _ _ ahead, head]
  simp only [round]
  by_cases far : g.qCapacity < (written.length - x.head).toNat
  · rw [if_pos far]
    exact Or.inl ⟨by omega, rfl⟩
  · rw [if_neg far]
    right
    have size : roundSize args (t.poll (queueAfter st written)) x =
        min (args.count - x.n) (written.length - x.head).toNat := by
      rw [roundSize, head]
    generalize roundSize args (t.poll (queueAfter st written)) x = m at size ⊢
    have len : (slice written x.head (x.head + m)).length = m := by
      rw [length_slice (by omega)]
      omega
    obtain ⟨cols', eq, all⟩ := readEntries_ids wanted (p := t.poll (queueAfter st written))
      (slice written x.head (x.head + m)) x.head x.cols (by
        intro i id here
        have small : i < m := by
          rw [← len]
          exact (List.getElem?_eq_some_iff.mp here).1
        have there : written[(x.head + i).toNat]? = some id := by
          rw [slice, List.getElem?_drop, List.getElem?_take_of_lt (by omega)] at here
          rw [← here]
          congr 1
          omega
        refine ⟨?_, known id (List.mem_of_getElem? there), _, rfl⟩
        simp only [ReadTurn.poll, Storage.storageReadQueue, if_neg queue]
        rw [queueAfter_entry queue fresh there (by omega)])
    rw [len] at eq
    have fine : ¬ Status.Failed Status.ok := by decide
    rw [eq]
    dsimp only
    rw [if_neg fine]
    refine ⟨_, rfl, ⟨position, ?_, ?_, ?_, ?_⟩, rfl, ?_⟩
    · dsimp only
      omega
    · dsimp only
      omega
    · dsimp only
      rw [all, h.read]
      exact slice_trans (by omega) (by omega) (by omega)
    · intro r here
      rcases List.mem_append.mp here with here | here
      · exact h.sound r here
      · obtain rfl := List.mem_singleton.mp here
        exact ⟨fine, by dsimp only; omega⟩
    · intro room
      dsimp only
      omega

/-- A poll of a reader: an overrun ends the call, and else it has read on. -/
theorem Following.poll (queue : g.qCapacity ≠ 0) (fresh : st.qHead = 0) (wanted : args.ids = true)
    (known : ∀ id ∈ written, g.Holds id) (h : Following g.qCapacity written first x)
    (room : x.n < args.count) (start : Int) :
    ∃ status y, pollOnce args g.qCapacity start (t.poll (queueAfter st written)) x = (status, y) ∧
      y.polls = x.polls + 1 ∧
      ((status = some Status.changeQueueOverrun ∧ y.head = x.head ∧
        (g.qCapacity : Int) < written.length - x.head ∧
        y.rounds = x.rounds ++ [⟨x.head, written.length, Status.changeQueueOverrun⟩]) ∨
       (Following g.qCapacity written first y ∧ y.n ≤ args.count ∧
        (status = none → y.n < args.count) ∧
        ∀ s, status = some s → s = toStatus y.n ∨ Status.Failed s)) := by
  have polled : Following g.qCapacity written first { x with polls := x.polls + 1 } :=
    ⟨h.position, h.inside, h.counted, h.read, h.sound⟩
  have failed : ∀ (e : Failure) (n : Nat) s, some e.val = some s → s = toStatus n ∨
    Status.Failed s := by
    rintro e n s same
    exact Or.inr (Option.some.inj same ▸ e.2)
  have counted : ∀ (n : Nat) s, some (toStatus n) = some s → s = toStatus n ∨ Status.Failed s :=
    fun n s same => Or.inl (Option.some.inj same).symm
  unfold pollOnce
  dsimp only
  by_cases same : ((t.poll (queueAfter st written)).head : Int) = x.head
  · rw [if_pos same]
    cases checkDone start args.timeout true (t.poll (queueAfter st written)).check with
    | error e => exact ⟨_, _, rfl, rfl, Or.inr ⟨polled, room.le, nofun, failed e _⟩⟩
    | ok done =>
      cases done with
      | true => exact ⟨_, _, rfl, rfl, Or.inr ⟨polled, room.le, nofun, counted _⟩⟩
      | false => exact ⟨_, _, rfl, rfl, Or.inr ⟨polled, room.le, fun _ => room, nofun⟩⟩
  · rw [if_neg same]
    rcases polled.round args queue fresh wanted known same with
      ⟨far, eq⟩ | ⟨y, eq, next, polls, bound⟩
    · have overrun : Status.Failed Status.changeQueueOverrun := by decide
      rw [eq]
      dsimp only
      rw [if_pos overrun]
      exact ⟨_, _, rfl, rfl, Or.inl ⟨rfl, rfl, far, rfl⟩⟩
    · have fine : ¬ Status.Failed Status.ok := by decide
      have le := bound room.le
      rw [eq]
      dsimp only
      rw [if_neg fine]
      cases checkDone start args.timeout false (t.poll (queueAfter st written)).check with
      | error e => exact ⟨_, _, rfl, polls, Or.inr ⟨next, le, nofun, failed e _⟩⟩
      | ok done =>
        cases done with
        | true => exact ⟨_, _, rfl, polls, Or.inr ⟨next, le, nofun, counted _⟩⟩
        | false =>
          dsimp only
          by_cases more : y.n < args.count
          · rw [if_pos more]
            exact ⟨_, _, rfl, polls, Or.inr ⟨next, le, fun _ => more, nofun⟩⟩
          · rw [if_neg more]
            exact ⟨_, _, rfl, polls, Or.inr ⟨next, le, nofun, counted _⟩⟩

end Call

/-- A round fails with an overrun exactly when more was written behind the caller's head than the
queue holds, and then the call fails and leaves that head. -/
def Round.Sound (cap : Nat) (status : Option Int) (x : ReadState) (r : Round) : Prop :=
  (Status.Failed r.status ↔ (cap : Int) < r.queueHead - r.head) ∧
  (Status.Failed r.status → r.status = Status.changeQueueOverrun ∧
    status = some Status.changeQueueOverrun ∧ x.head = r.head)

/-- What a call comes to that reads on from `first`, with `written` in the queue at its end. -/
structure CallSound (cap count : Nat) (written : List Int) (first : Int) (status : Option Int)
    (x : ReadState) : Prop where
  rounds : ∀ r ∈ x.rounds, r.Sound cap status x
  read : ∀ n, status = some n → ¬ Status.Failed n →
    0 ≤ first ∧ first ≤ x.head ∧ x.head ≤ written.length ∧
    x.cols.ids = slice written first x.head ∧ x.cols.ids.length = n ∧ n ≤ count

theorem Following.callSound {cap : Nat} {first : Int} {x : ReadState}
    (h : Following cap written first x) {count : Nat} (bound : x.n ≤ count)
    (small : count < 2147483648) {status : Option Int}
    (returned : ∀ s, status = some s → s = toStatus x.n ∨ Status.Failed s) :
    CallSound cap count written first status x := by
  have position := h.position
  have counted := h.counted
  refine ⟨?_, ?_⟩
  · intro r here
    obtain ⟨fine, near⟩ := h.sound r here
    exact ⟨iff_of_false fine (by omega), fun failed => absurd failed fine⟩
  · intro n found fine
    have number : n = x.n := by
      rw [(returned n found).resolve_right fine, toStatus]
      omega
    refine ⟨position, by omega, h.inside, h.read, ?_, by omega⟩
    rw [h.read, length_slice h.inside]
    omega

/-- The polls of a call. -/
theorem Following.run (queue : g.qCapacity ≠ 0) (fresh : st.qHead = 0) {args : ReadArgs}
    (wanted : args.ids = true) (small : args.count < 2147483648) {first : Int} {x : ReadState}
    (h : Following g.qCapacity written first x) (room : x.n < args.count) (start : Int)
    {turns : List (ReadTurn g)} (known : ∀ id ∈ written, g.Holds id)
    (writes : ∀ t ∈ turns, ∀ id ∈ t.writes, g.Holds id) :
    ∃ k, (readRounds args g.qCapacity start (pollsOf st written turns) x).2.polls = x.polls + k ∧
      CallSound g.qCapacity args.count (written ++ (turns.take k).flatMap ReadTurn.writes) first
        (readRounds args g.qCapacity start (pollsOf st written turns) x).1
        (readRounds args g.qCapacity start (pollsOf st written turns) x).2 := by
  induction turns generalizing written x with
  | nil =>
    refine ⟨0, rfl, ?_⟩
    simp only [List.take_nil, List.flatMap_nil, List.append_nil, pollsOf, readRounds]
    exact h.callSound room.le small (by simp)
  | cons t rest ih =>
    have known' : ∀ id ∈ written ++ t.writes, g.Holds id := by
      intro id here
      rcases List.mem_append.mp here with here | here
      · exact known id here
      · exact writes t (List.mem_cons_self ..) id here
    obtain ⟨status, y, eq, polls, outcome⟩ :=
      (h.grow t.writes).poll args (t := t) queue fresh wanted known' room start
    rw [pollsOf, readRounds, eq]
    cases status with
    | some status =>
      refine ⟨1, polls, ?_⟩
      simp only [List.take_succ_cons, List.take_zero, List.flatMap_cons, List.flatMap_nil,
        List.append_nil]
      rcases outcome with ⟨lapped, head, far, rounds⟩ | ⟨next, bound, _, returned⟩
      · obtain rfl := Option.some.inj lapped
        have overrun : Status.Failed Status.changeQueueOverrun := by decide
        refine ⟨?_, ?_⟩
        · intro r here
          rw [rounds] at here
          rcases List.mem_append.mp here with here | here
          · obtain ⟨fine, near⟩ := h.sound r here
            exact ⟨iff_of_false fine (by omega), fun failed => absurd failed fine⟩
          · obtain rfl := List.mem_singleton.mp here
            exact ⟨iff_of_true overrun far, fun _ => ⟨rfl, rfl, head⟩⟩
        · rintro n same fine
          obtain rfl := Option.some.inj same
          exact absurd overrun fine
      · exact next.callSound bound small returned
    | none =>
      rcases outcome with ⟨lapped, _⟩ | ⟨next, _, more, _⟩
      · cases lapped
      · obtain ⟨k, hk, sound⟩ := ih next (more rfl) known'
          (fun t' here => writes t' (List.mem_cons_of_mem _ here))
        refine ⟨k + 1, ?_, ?_⟩
        · rw [hk, polls]
          omega
        · rw [List.take_succ_cons, List.flatMap_cons, ← List.append_assoc]
          exact sound

/-! ## Sessions -/

/-- The identifiers that are written are those of records, and the identifiers are asked for, as
many as an `int` can count. -/
structure ReadCall.Valid (c : ReadCall g) : Prop where
  before : ∀ id ∈ c.before, g.Holds id
  writes : ∀ t ∈ c.turns, ∀ id ∈ t.writes, g.Holds id
  wanted : c.args.ids = true
  small : c.args.count < 2147483648

theorem ReadCall.Valid.run {c : ReadCall g} (valid : c.Valid) (queue : g.qCapacity ≠ 0)
    (fresh : st.qHead = 0) (known : ∀ id ∈ written, g.Holds id) {head : Int}
    (reached : head ≤ (written ++ c.before).length) :
    written <+: (c.run st written head).2 ∧ (∀ id ∈ (c.run st written head).2, g.Holds id) ∧
      (c.run st written head).1.call = c ∧
      CallSound g.qCapacity c.args.count (c.run st written head).2
        (entryHead (written ++ c.before).length head) (c.run st written head).1.status
        (c.run st written head).1.state := by
  have known' : ∀ id ∈ written ++ c.before, g.Holds id := by
    intro id here
    rcases List.mem_append.mp here with here | here
    · exact known id here
    · exact valid.before id here
  have shape : (c.run st written head).2 = written ++ c.before ++
      (c.turns.take (c.run st written head).1.state.polls).flatMap ReadTurn.writes := rfl
  refine ⟨?_, ?_, rfl, ?_⟩
  · rw [shape, List.append_assoc]
    exact List.prefix_append _ _
  · intro id here
    rw [shape] at here
    rcases List.mem_append.mp here with here | here
    · exact known' id here
    · obtain ⟨t, turn, here⟩ := List.mem_flatMap.mp here
      exact valid.writes t (List.mem_of_mem_take turn) id here
  · unfold ReadCall.run
    dsimp only
    rw [queueAfter_head queue fresh, batchReadChangedRecords]
    have refused : ∀ (e : Failure) w, CallSound g.qCapacity c.args.count w
        (entryHead (written ++ c.before).length head) (some e.val) (.start head) := by
      intro e w
      refine ⟨List.forall_mem_nil _, fun n same fine => ?_⟩
      obtain rfl := Option.some.inj same
      exact absurd e.2 fine
    by_cases invalid : c.args.Invalid
    · rw [if_pos invalid]
      exact refused ⟨Status.invalidArg, by decide⟩ _
    rw [if_neg invalid]
    cases (if 0 ≤ c.args.timeout then c.clock else .ok 0) with
    | error e => exact refused e _
    | ok start =>
      have positive : 0 < c.args.count := by
        by_contra zero
        exact invalid (Or.inl (by omega))
      have begun : Following g.qCapacity (written ++ c.before)
          (entryHead (written ++ c.before).length head)
          (.start (entryHead (written ++ c.before).length head)) := by
        refine ⟨?_, ?_, ?_, ?_, List.forall_mem_nil _⟩
        · unfold entryHead
          split <;> omega
        · simp only [ReadState.start, entryHead]
          split <;> omega
        · simp [ReadState.start]
        · simp [ReadState.start, Columns.empty, slice_self]
      obtain ⟨k, polls, sound⟩ := begun.run queue fresh valid.wanted valid.small
        (show (ReadState.start _).n < c.args.count from positive) start known' valid.writes
      have same : (ReadState.start (entryHead (written ++ c.before).length head)).polls + k = k :=
        Nat.zero_add k
      dsimp only
      rw [polls, same]
      exact sound

/-- What the calls that succeeded have read, one after the other. -/
def idsRead (reports : List (ReadReport g)) : List Int :=
  reports.flatMap fun r => if r.Succeeded then r.state.cols.ids else []

/-- The caller's head as the last call that succeeded left it. -/
def lastHead (first : Int) : List (ReadReport g) → Int
  | [] => first
  | r :: rest => if r.Succeeded then lastHead r.state.head rest else lastHead first rest

def firstHead (written : List Int) (head : Int) : List (ReadCall g) → Int
  | [] => head
  | c :: _ => entryHead (written ++ c.before).length head

theorem slice_prefix {written' : List Int} (grown : written <+: written') {a b : Int}
    (inside : b ≤ written.length) : slice written' a b = slice written a b := by
  obtain ⟨more, rfl⟩ := grown
  exact slice_append more inside

/-- What the calls of a session have read follows without a gap from `first`. -/
structure Unbroken (written : List Int) (first : Int)
    (session : List (ReadReport g) × List Int) : Prop where
  grown : written <+: session.2
  onward : first ≤ lastHead first session.1
  inside : lastHead first session.1 ≤ session.2.length
  ids : idsRead session.1 = slice session.2 first (lastHead first session.1)

section Unbroken

variable {written' : List Int} {first : Int} {report : ReadReport g}
  {session : List (ReadReport g) × List Int}

/-- A call that has not succeeded ends the session and leaves the caller's head. -/
theorem Unbroken.alone (unread : ¬ report.Succeeded) (grown : written <+: written')
    (inside : first ≤ written'.length) : Unbroken written first ([report], written') := by
  have stays : lastHead first [report] = first := by
    rw [lastHead, if_neg unread, lastHead]
  refine ⟨grown, stays.ge, stays.symm ▸ inside, ?_⟩
  rw [stays, slice_self]
  simp [idsRead, unread]

/-- After a call that has succeeded the session goes on from the head it left. -/
theorem Unbroken.after (succeeded : report.Succeeded) (grown : written <+: written')
    (low : first ≤ report.state.head) (high : report.state.head ≤ written'.length)
    (read : report.state.cols.ids = slice written' first report.state.head)
    (later : Unbroken written' report.state.head session) :
    Unbroken written first (report :: session.1, session.2) := by
  have moves : lastHead first (report :: session.1) = lastHead report.state.head session.1 := by
    rw [lastHead, if_pos succeeded]
  refine ⟨grown.trans later.grown, ?_, ?_, ?_⟩
  · rw [moves]
    exact low.trans later.onward
  · rw [moves]
    exact later.inside
  · have ids : idsRead (report :: session.1) = report.state.cols.ids ++ idsRead session.1 := by
      simp [idsRead, succeeded]
    rw [moves, ids, later.ids, read, ← slice_prefix later.grown high]
    exact slice_trans low later.onward later.inside

end Unbroken

theorem ReadCall.length_le_run (c : ReadCall g) (st : Storage g) (written : List Int) (head : Int) :
    (written ++ c.before).length ≤ (c.run st written head).2.length := by
  have shape : (c.run st written head).2 = written ++ c.before ++
      (c.turns.take (c.run st written head).1.state.polls).flatMap ReadTurn.writes := rfl
  rw [shape]
  simp only [List.length_append]
  omega

/-- No call returns more than was asked for, and only an overrun fails a round. -/
def ReadReport.Sound (r : ReadReport g) : Prop :=
  (∀ n, r.status = some n → ¬ Status.Failed n →
    r.state.cols.ids.length = n ∧ n ≤ r.call.args.count) ∧
  ∀ round ∈ r.state.rounds, round.Sound g.qCapacity r.status r.state

theorem readSession_sound (queue : g.qCapacity ≠ 0) (fresh : st.qHead = 0)
    {calls : List (ReadCall g)} (valid : ∀ c ∈ calls, c.Valid)
    (known : ∀ id ∈ written, g.Holds id) {head : Int}
    (reached : ∀ c ∈ calls.head?, head ≤ (written ++ c.before).length)
    (nothing : calls = [] → head ≤ written.length) :
    Unbroken written (firstHead written head calls) (readSession st calls written head) ∧
      ∀ r ∈ (readSession st calls written head).1, r.Sound := by
  induction calls generalizing written head with
  | nil =>
    refine ⟨⟨List.prefix_rfl, le_refl _, nothing rfl, ?_⟩,
      fun r here => absurd here List.not_mem_nil⟩
    exact (slice_self _).symm
  | cons c rest ih =>
    obtain ⟨grown, known', same, sound⟩ :=
      (valid c (List.mem_cons_self ..)).run queue fresh known (reached c rfl)
    have longer := c.length_le_run st written head
    have inside : entryHead (written ++ c.before).length head ≤
      (c.run st written head).2.length := by
      have position : head ≤ (written ++ c.before).length := reached c rfl
      unfold entryHead
      split <;> omega
    rw [readSession]
    dsimp only [firstHead]
    generalize c.run st written head = u at *
    obtain ⟨report, written'⟩ := u
    dsimp only at *
    have one : report.Sound := by
      refine ⟨fun n returned fine => ?_, sound.rounds⟩
      obtain ⟨_, _, _, _, count, bound⟩ := sound.read n returned fine
      exact ⟨count, same ▸ bound⟩
    cases returned : report.status with
    | none =>
      refine ⟨.alone ?_ grown inside, fun r here => List.mem_singleton.mp here ▸ one⟩
      rintro ⟨n, status, _⟩
      rw [returned] at status
      cases status
    | some n =>
      dsimp only
      by_cases failed : Status.Failed n
      · rw [if_pos failed]
        refine ⟨.alone ?_ grown inside, fun r here => List.mem_singleton.mp here ▸ one⟩
        rintro ⟨m, status, fine⟩
        rw [returned] at status
        obtain rfl := Option.some.inj status
        exact fine failed
      · rw [if_neg failed]
        obtain ⟨position, low, high, read, _⟩ := sound.read n returned failed
        have start : firstHead written' report.state.head rest = report.state.head := by
          cases rest with
          | nil => rfl
          | cons c' _ => rw [firstHead, entryHead, if_neg (by omega)]
        have next : ∀ c' ∈ rest.head?, report.state.head ≤ (written' ++ c'.before).length := by
          intro c' _
          rw [List.length_append]
          omega
        obtain ⟨unbroken, others⟩ := ih
          (fun c' here => valid c' (List.mem_cons_of_mem _ here)) known' next (fun _ => high)
        rw [start] at unbroken
        refine ⟨unbroken.after ⟨n, returned, failed⟩ grown low high read, ?_⟩
        intro r here
        rcases List.mem_cons.mp here with rfl | here
        · exact one
        · exact others r here

/-- Every change is read once and in order. From a queue to which nothing has been written, for
any calls with writes in between: what the calls that succeed return is what was written from
where the first began up to where the last of them left the caller's head; a call returns at
most what was asked for; and a round fails, with an overrun, exactly when more was written
behind its head than the queue holds, and leaves that head. -/
theorem changes_read_once (queue : g.qCapacity ≠ 0) (st : Storage g) (fresh : st.qHead = 0)
    (calls : List (ReadCall g)) (valid : ∀ c ∈ calls, c.Valid) (head : Int)
    (reached : ∀ c ∈ calls.head?, head ≤ c.before.length) :
    idsRead (readSession st calls [] head).1 =
      slice (readSession st calls [] head).2 (firstHead [] head calls)
        (lastHead (firstHead [] head calls) (readSession st calls [] head).1) ∧
    ∀ r ∈ (readSession st calls [] head).1,
      (∀ n, r.status = some n → ¬ Status.Failed n →
        r.state.cols.ids.length = n ∧ n ≤ r.call.args.count) ∧
      ∀ round ∈ r.state.rounds, round.Sound g.qCapacity r.status r.state := by
  cases calls with
  | nil => exact ⟨(slice_self _).symm, fun r here => absurd here List.not_mem_nil⟩
  | cons c rest =>
    have vacuous : ∀ id ∈ ([] : List Int), g.Holds id := nofun
    obtain ⟨unbroken, others⟩ := readSession_sound queue fresh valid vacuous reached nofun
    exact ⟨unbroken.ids, others⟩

def smallTurn (writes : List Int) : ReadTurn small :=
  ⟨writes, fun _ _ => ⟨1, 0, smallValue 7⟩, .ok (), .ok 0⟩

/-- A reader that starts behind the first write, reads two changes, and then falls behind. -/
def smallCalls : List (ReadCall small) :=
  [⟨[0], twoIds, .ok 0, [smallTurn [1, 0]]⟩, ⟨[], twoIds, .ok 0, [smallTurn [1, 1, 0]]⟩]

theorem changes_read_once_small :
    idsRead (readSession smallStore smallCalls [] (-1)).1 = [1, 0] ∧
    ∀ r ∈ (readSession smallStore smallCalls [] (-1)).1,
      ∀ round ∈ r.state.rounds, round.Sound 2 r.status r.state := by
  obtain ⟨ids, sound⟩ := changes_read_once (by decide) smallStore rfl smallCalls (by
      intro c here
      obtain rfl | rfl : c = ⟨[0], twoIds, .ok 0, [smallTurn [1, 0]]⟩ ∨
          c = ⟨[], twoIds, .ok 0, [smallTurn [1, 1, 0]]⟩ := by simpa [smallCalls] using here
      · exact ⟨by decide, by decide, rfl, by decide⟩
      · exact ⟨by decide, by decide, rfl, by decide⟩) (-1) (by
      intro c _
      omega)
  exact ⟨ids.trans (by decide +kernel), fun r here => (sound r here).2⟩

end Lancaster
