import Lancaster.Storage

/-!
# Reading changed records in batches

`batch_read_changed_records` waits until the head of the change queue is not where the caller's
head is, copies the records in between and moves the caller's head, round after round, until
the arrays are full or the time is up. A call is followed poll by poll: each reads the head of
the queue once, and what the calls behind it return is the input.
-/

namespace Lancaster

variable {g : Geometry}

/-- The arguments of `batch_read_changed_records`; of the arrays it is said whether they are
there. -/
structure ReadArgs where
  copySize : Nat
  ids : Bool
  values : Bool
  revs : Bool
  times : Bool
  count : Nat
  timeout : Int

/-- What the caller's arrays have got so far. -/
structure Columns where
  ids : List Int
  values : List (List UInt8)
  revs : List Int
  times : List Int
  deriving DecidableEq

def Columns.empty : Columns := ⟨[], [], [], []⟩

/-- One copied record; only the first `copy_size` bytes of a longer value are copied. -/
def Columns.store (args : ReadArgs) (id : Int) (r : Record g) (cols : Columns) : Columns where
  ids := if args.ids then cols.ids ++ [id] else cols.ids
  values := if args.values then cols.values ++ [r.val.toList.take args.copySize] else cols.values
  revs := if args.revs then cols.revs ++ [r.rev] else cols.revs
  times := if args.times then cols.times ++ [r.ts] else cols.times

/-- The results of the calls that `check_done` makes. -/
structure CheckInput where
  signal : Except Failure Unit
  sleep : Except Failure Unit
  clock : Except Failure Int

def checkDone (start timeout : Int) (sleep : Bool) (inp : CheckInput) : Except Failure Bool :=
  match inp.signal with
  | .error st => .error st
  | .ok () =>
    if timeout = 0 then .ok true
    else if timeout < 0 then .ok false
    else
      match if sleep then inp.sleep else .ok (), inp.clock with
      | .error st, _ => .error st
      | .ok (), .error st => .error st
      | .ok (), .ok now => .ok (decide (timeout < now - start))

/-- What one poll of the queue finds: its head, the entries, what copying the record of an
entry comes to, and the results of the calls of `check_done` behind it. -/
structure Poll (g : Geometry) where
  head : Nat
  readQueue : Int → Except Failure Int
  copy : Int → Int → Except Failure (Record g)
  check : CheckInput

/-- The entries of a round, `n` of them before its end; `q` is the position. -/
def readEntries (args : ReadArgs) (p : Poll g) : Nat → Int → Columns → Int × Columns
  | 0, _, cols => (Status.ok, cols)
  | n + 1, q, cols =>
    match p.readQueue q with
    | .error st => (st.val, cols)
    | .ok id =>
      if g.Holds id then
        match p.copy q id with
        | .error st => (st.val, cols)
        | .ok r => readEntries args p n (q + 1) (cols.store args id r)
      else (Status.invalidRecord, cols)

/-- A round, for the record: where the caller's head was, where the head of the queue, and the
status. -/
structure Round where
  head : Int
  queueHead : Nat
  status : Int
  deriving DecidableEq

/-- A call under way. `rounds` and `polls` are history variables. -/
structure ReadState where
  n : Nat
  head : Int
  cols : Columns
  rounds : List Round
  polls : Nat

/-- A long as a `size_t`. -/
def toSize (x : Int) : Nat := (if x < 0 then x + 18446744073709551616 else x).toNat

/-- A count as a status, which is an `int`. -/
def toStatus (n : Nat) : Int := (n + 2147483648 : Int) % 4294967296 - 2147483648

def ReadState.round (x : ReadState) (p : Poll g) (st : Int) : List Round :=
  x.rounds ++ [⟨x.head, p.head, st⟩]

/-- One round: the entries up to the head of the queue, or as many as are still wanted. -/
def readRound (args : ReadArgs) (cap : Nat) (p : Poll g) (x : ReadState) : Int × ReadState :=
  let avail := toSize (p.head - x.head)
  if cap < avail then
    (Status.changeQueueOverrun, { x with rounds := x.round p Status.changeQueueOverrun })
  else
    let want := args.count - x.n
    let newHead : Int := if want < avail then x.head + want else p.head
    let (st, cols) := readEntries args p (newHead - x.head).toNat x.head x.cols
    if Status.Failed st then (st, { x with cols := cols, rounds := x.round p st })
    else (Status.ok, { x with
      n := x.n + toSize (newHead - x.head)
      head := newHead
      cols := cols
      rounds := x.round p Status.ok })

/-- One poll, and the round behind it if there is something new. The call returns with a
status or goes on. -/
def pollOnce (args : ReadArgs) (cap : Nat) (start : Int) (p : Poll g) (x : ReadState) :
    Option Int × ReadState :=
  let x := { x with polls := x.polls + 1 }
  if (p.head : Int) = x.head then
    match checkDone start args.timeout true p.check with
    | .error st => (some st.val, x)
    | .ok true => (some (toStatus x.n), x)
    | .ok false => (none, x)
  else
    let (st, x) := readRound args cap p x
    if Status.Failed st then (some st, x)
    else
      match checkDone start args.timeout false p.check with
      | .error st => (some st.val, x)
      | .ok true => (some (toStatus x.n), x)
      | .ok false => if x.n < args.count then (none, x) else (some (toStatus x.n), x)

/-- The loop. A call whose polls are used up has not returned. -/
def readRounds (args : ReadArgs) (cap : Nat) (start : Int) :
    List (Poll g) → ReadState → Option Int × ReadState
  | [], x => (none, x)
  | p :: rest, x =>
    match pollOnce args cap start p x with
    | (some st, x) => (some st, x)
    | (none, x) => readRounds args cap start rest x

def ReadArgs.Invalid (args : ReadArgs) : Prop :=
  args.count = 0 ∨ (¬ args.ids ∧ ¬ args.values ∧ ¬ args.revs ∧ ¬ args.times) ∨
    (args.values ∧ args.copySize = 0)

instance (args : ReadArgs) : Decidable args.Invalid := inferInstanceAs (Decidable (_ ∨ _))

def ReadState.start (head : Int) : ReadState := ⟨0, head, .empty, [], 0⟩

/-- A caller without a head starts at the head of the queue. -/
def entryHead (queueHead : Nat) (head : Int) : Int := if head < 0 then queueHead else head

/-- `batch_read_changed_records`: `clock` is the time at the start, `queueHead` the head of the
queue then and `head` the caller's. -/
def batchReadChangedRecords (args : ReadArgs) (cap : Nat) (clock : Except Failure Int)
    (queueHead : Nat) (polls : List (Poll g)) (head : Int) : Option Int × ReadState :=
  if args.Invalid then (some Status.invalidArg, .start head)
  else
    match (if 0 ≤ args.timeout then clock else .ok 0) with
    | .error st => (some st.val, .start head)
    | .ok start => readRounds args cap start polls (.start (entryHead queueHead head))

/-! ## Rounds -/

/-- An entry that can be read: it names a record, and the record can be copied. -/
def Poll.Readable (p : Poll g) (q : Int) : Prop :=
  ∃ id r, p.readQueue q = .ok id ∧ g.Holds id ∧ p.copy q id = .ok r

theorem readEntries_fails (args : ReadArgs) (p : Poll g) (n : Nat) (q : Int) (cols : Columns) :
    Status.Failed (readEntries args p n q cols).1 ↔ ∃ i < n, ¬ p.Readable (q + i) := by
  induction n generalizing q cols with
  | zero =>
    constructor
    · intro failed
      exact absurd failed (lt_irrefl _)
    · rintro ⟨i, nothing, _⟩
      omega
  | succ n ih =>
    have first : ¬ p.Readable q → ∃ i < n + 1, ¬ p.Readable (q + i) :=
      fun bad => ⟨0, by omega, by simpa using bad⟩
    rw [readEntries]
    cases hq : p.readQueue q with
    | error st =>
      refine iff_of_true st.2 (first ?_)
      rintro ⟨id, r, read, _⟩
      rw [hq] at read
      cases read
    | ok id =>
      dsimp only
      by_cases known : g.Holds id
      · rw [if_pos known]
        cases hc : p.copy q id with
        | error st =>
          refine iff_of_true st.2 (first ?_)
          rintro ⟨id', r, read, _, copied⟩
          rw [hq] at read
          cases read
          rw [hc] at copied
          cases copied
        | ok r =>
          dsimp only
          rw [ih]
          constructor
          · rintro ⟨i, small, bad⟩
            refine ⟨i + 1, by omega, ?_⟩
            push_cast
            rw [add_comm (i : Int), ← add_assoc]
            exact bad
          · rintro ⟨i, small, bad⟩
            cases i with
            | zero => exact absurd ⟨id, r, by simpa using hq, known, by simpa using hc⟩ bad
            | succ i =>
              refine ⟨i, by omega, ?_⟩
              push_cast at bad
              rw [add_comm (i : Int), ← add_assoc] at bad
              exact bad
      · rw [if_neg known]
        refine iff_of_true (by decide : Status.Failed Status.invalidRecord) (first ?_)
        rintro ⟨id', r, read, holds, _⟩
        rw [hq] at read
        cases read
        exact known holds

def roundSize (args : ReadArgs) (p : Poll g) (x : ReadState) : Nat :=
  min (args.count - x.n) (p.head - x.head).toNat

/-- A round that finds the head of the queue ahead. -/
theorem readRound_ahead (args : ReadArgs) (cap : Nat) (p : Poll g) (x : ReadState)
    (ahead : x.head < p.head) :
    readRound args cap p x =
      if cap < (p.head - x.head).toNat then
        (Status.changeQueueOverrun, { x with rounds := x.round p Status.changeQueueOverrun })
      else
        let (st, cols) := readEntries args p (roundSize args p x) x.head x.cols
        if Status.Failed st then (st, { x with cols := cols, rounds := x.round p st })
        else (Status.ok, { x with
          n := x.n + roundSize args p x
          head := x.head + roundSize args p x
          cols := cols
          rounds := x.round p Status.ok }) := by
  have avail : toSize (p.head - x.head) = (p.head - x.head).toNat := by
    rw [toSize, if_neg (by omega)]
  have target : (if args.count - x.n < (p.head - x.head).toNat then
      x.head + ((args.count - x.n : Nat) : Int) else p.head) = x.head + roundSize args p x := by
    rw [roundSize]
    split <;> omega
  have size : x.head + (roundSize args p x : Int) - x.head = roundSize args p x := by omega
  unfold readRound
  dsimp only
  rw [avail, target, size]
  have same : toSize (roundSize args p x) = roundSize args p x := by
    rw [toSize, if_neg (by omega)]
    omega
  rw [same, Int.toNat_natCast]

/-- A round that finds the head of the queue behind: the distance of two longs is unsigned. -/
theorem readRound_behind (args : ReadArgs) (p : Poll g) (x : ReadState) (behind : p.head < x.head)
    (long : x.head < 9223372036854775808) :
    readRound args g.qCapacity p x =
      (Status.changeQueueOverrun, { x with rounds := x.round p Status.changeQueueOverrun }) := by
  have small := g.qCapacity_lt
  have far : g.qCapacity < toSize (p.head - x.head) := by
    rw [toSize, if_pos (by omega)]
    omega
  unfold readRound
  dsimp only
  rw [if_pos far]

/-- The round of a poll goes through: the head of the queue is ahead but no more than the queue
holds, and the entries that are wanted can all be read. -/
def Completes (args : ReadArgs) (p : Poll g) (n : Nat) (head : Int) : Prop :=
  head < p.head ∧ (p.head - head).toNat ≤ g.qCapacity ∧
    ∀ i < min (args.count - n) (p.head - head).toNat, p.Readable (head + i)

/-- A round moves the caller's head if and only if it goes through. -/
theorem readRound_head (args : ReadArgs) (p : Poll g) (x : ReadState)
    (long : x.head < 9223372036854775808) (fresh : (p.head : Int) ≠ x.head) :
    (Completes args p x.n x.head ∧ (readRound args g.qCapacity p x).1 = Status.ok ∧
      (readRound args g.qCapacity p x).2.n = x.n + roundSize args p x ∧
      (readRound args g.qCapacity p x).2.head = x.head + roundSize args p x) ∨
    (¬ Completes args p x.n x.head ∧ Status.Failed (readRound args g.qCapacity p x).1 ∧
      (readRound args g.qCapacity p x).2.n = x.n ∧
      (readRound args g.qCapacity p x).2.head = x.head) := by
  have overrun : Status.Failed Status.changeQueueOverrun := by decide
  rcases lt_or_gt_of_ne fresh with behind | ahead
  · rw [readRound_behind args p x behind long]
    exact Or.inr ⟨fun done => absurd done.1 (by omega), overrun, rfl, rfl⟩
  · rw [readRound_ahead args g.qCapacity p x ahead]
    by_cases far : g.qCapacity < (p.head - x.head).toNat
    · rw [if_pos far]
      exact Or.inr ⟨fun done => absurd done.2.1 (by omega), overrun, rfl, rfl⟩
    · rw [if_neg far]
      have fails := readEntries_fails args p (roundSize args p x) x.head x.cols
      dsimp only
      by_cases failed : Status.Failed (readEntries args p (roundSize args p x) x.head x.cols).1
      · rw [if_pos failed]
        obtain ⟨i, small, bad⟩ := fails.mp failed
        exact Or.inr ⟨fun done => bad (done.2.2 i small), failed, rfl, rfl⟩
      · rw [if_neg failed]
        refine Or.inl ⟨⟨ahead, by omega, fun i small => ?_⟩, rfl, rfl, rfl⟩
        by_contra bad
        exact failed (fails.mpr ⟨i, small, bad⟩)

/-- A poll goes back over nothing, and it moves the caller's head if and only if its round goes
through. -/
theorem pollOnce_head (args : ReadArgs) (start : Int) (p : Poll g) (x : ReadState)
    (long : x.head < 9223372036854775808) (long' : p.head < 9223372036854775808)
    (more : x.n < args.count) :
    ((pollOnce args g.qCapacity start p x).2.head = x.head ∧ ¬ Completes args p x.n x.head ∧
      (pollOnce args g.qCapacity start p x).2.n = x.n ∧
      ((pollOnce args g.qCapacity start p x).1 = none ↔
        p.head = x.head ∧ checkDone start args.timeout true p.check = .ok false)) ∨
    (x.head < (pollOnce args g.qCapacity start p x).2.head ∧ Completes args p x.n x.head ∧
      (pollOnce args g.qCapacity start p x).2.head < 9223372036854775808 ∧
      ((pollOnce args g.qCapacity start p x).1 = none →
        (pollOnce args g.qCapacity start p x).2.n < args.count)) := by
  unfold pollOnce
  dsimp only
  by_cases same : (p.head : Int) = x.head
  · rw [if_pos same]
    have nothing : ¬ Completes args p x.n x.head := fun done => absurd done.1 (by omega)
    left
    cases hc : checkDone start args.timeout true p.check with
    | error st => exact ⟨rfl, nothing, rfl, nofun, nofun⟩
    | ok done =>
      cases done with
      | true => exact ⟨rfl, nothing, rfl, nofun, fun wait => nomatch wait.2⟩
      | false => exact ⟨rfl, nothing, rfl, fun _ => ⟨same, rfl⟩, fun _ => rfl⟩
  · rw [if_neg same]
    have outcome := readRound_head args p { x with polls := x.polls + 1 } long same
    generalize readRound args g.qCapacity p { x with polls := x.polls + 1 } = u at outcome ⊢
    dsimp only at outcome
    rcases outcome with ⟨done, ok, hn, hh⟩ | ⟨undone, failed, hn, hh⟩
    · right
      have fine : ¬ Status.Failed u.1 := by
        rw [ok]
        decide
      have positive : 0 < roundSize args p { x with polls := x.polls + 1 } := by
        have ahead := done.1
        simp only [roundSize] at *
        omega
      have bound : (x.head : Int) + roundSize args p { x with polls := x.polls + 1 } ≤ p.head := by
        have ahead := done.1
        simp only [roundSize] at *
        omega
      rw [if_neg fine]
      have moved : x.head < u.2.head ∧ Completes args p x.n x.head ∧
          u.2.head < 9223372036854775808 := ⟨by omega, done, by omega⟩
      cases checkDone start args.timeout false p.check with
      | error st => exact ⟨moved.1, moved.2.1, moved.2.2, nofun⟩
      | ok last =>
        cases last with
        | true => exact ⟨moved.1, moved.2.1, moved.2.2, nofun⟩
        | false =>
          dsimp only
          by_cases room : u.2.n < args.count
          · rw [if_pos room]
            exact ⟨moved.1, moved.2.1, moved.2.2, fun _ => room⟩
          · rw [if_neg room]
            exact ⟨moved.1, moved.2.1, moved.2.2, nofun⟩
    · rw [if_pos failed]
      exact Or.inl ⟨hh, undone, hn, nofun, fun wait => absurd wait.1 same⟩

/-! ## What a call that fails has read -/

/-- The head of a caller never goes back. -/
theorem readRounds_mono (args : ReadArgs) (start : Int) (polls : List (Poll g)) (x : ReadState)
    (long : x.head < 9223372036854775808) (longs : ∀ p ∈ polls, p.head < 9223372036854775808)
    (more : x.n < args.count) :
    x.head ≤ (readRounds args g.qCapacity start polls x).2.head := by
  induction polls generalizing x with
  | nil => exact le_refl _
  | cons p rest ih =>
    have poll := pollOnce_head args start p x long (longs p (List.mem_cons_self ..)) more
    have heads : ∀ p ∈ rest, p.head < 9223372036854775808 :=
      fun p here => longs p (List.mem_cons_of_mem _ here)
    rw [readRounds]
    generalize pollOnce args g.qCapacity start p x = u at poll ⊢
    obtain ⟨st, y⟩ := u
    cases st with
    | some st =>
      rcases poll with ⟨same, _⟩ | ⟨moved, _⟩
      · exact same.ge
      · exact moved.le
    | none =>
      rcases poll with ⟨same, _, hn, _⟩ | ⟨moved, _, long', room⟩
      · have later := ih y (same ▸ long) heads (hn ▸ more)
        exact same ▸ later
      · exact moved.le.trans (ih y long' heads (room rfl))

/-- The first round of a call goes through: the polls before it find nothing new and nothing
that ends the call. -/
def FirstRound (args : ReadArgs) (start head : Int) : List (Poll g) → Prop
  | [] => False
  | p :: rest =>
    if (p.head : Int) = head then
      checkDone start args.timeout true p.check = .ok false ∧ FirstRound args start head rest
    else Completes args p 0 head

theorem readRounds_head (args : ReadArgs) (start : Int) (polls : List (Poll g)) (x : ReadState)
    (long : x.head < 9223372036854775808) (longs : ∀ p ∈ polls, p.head < 9223372036854775808)
    (fresh : x.n = 0) (more : 0 < args.count) :
    (readRounds args g.qCapacity start polls x).2.head = x.head ↔
      ¬ FirstRound args start x.head polls := by
  induction polls generalizing x with
  | nil => simp [readRounds, FirstRound]
  | cons p rest ih =>
    have poll := pollOnce_head args start p x long (longs p (List.mem_cons_self ..)) (by omega)
    have heads : ∀ p ∈ rest, p.head < 9223372036854775808 :=
      fun p here => longs p (List.mem_cons_of_mem _ here)
    rw [readRounds, FirstRound]
    generalize pollOnce args g.qCapacity start p x = u at poll ⊢
    obtain ⟨st, y⟩ := u
    dsimp only at poll
    rcases poll with ⟨same, undone, hn, wait⟩ | ⟨moved, done, long', room⟩
    · rw [fresh] at undone hn
      cases st with
      | some st =>
        refine iff_of_true same ?_
        split
        · rename_i equal
          exact fun first => nomatch wait.mpr ⟨equal, first.1⟩
        · exact undone
      | none =>
        obtain ⟨equal, goes⟩ := wait.mp rfl
        have later := ih y (same ▸ long) heads hn
        rw [same] at later
        rw [if_pos equal, later]
        exact not_congr (and_iff_right goes).symm
    · have other : ¬ (p.head : Int) = x.head := by
        have ahead := done.1
        omega
      rw [if_neg other]
      rw [fresh] at done
      refine iff_of_false ?_ (not_not.mpr done)
      cases st with
      | some st => exact (ne_of_lt moved).symm
      | none =>
        have later := readRounds_mono args start rest y long' heads (room rfl)
        exact (ne_of_lt (moved.trans_le later)).symm

def ReadsFirst (args : ReadArgs) (clock : Except Failure Int) (polls : List (Poll g)) (head : Int) :
    Prop :=
  ¬ args.Invalid ∧ ∃ start, (if 0 ≤ args.timeout then clock else .ok 0) = .ok start ∧
    FirstRound args start head polls

theorem read_head (args : ReadArgs) (clock : Except Failure Int) (queueHead : Nat)
    (polls : List (Poll g)) {head : Int} (position : 0 ≤ head) (long : head < 9223372036854775808)
    (longs : ∀ p ∈ polls, p.head < 9223372036854775808) :
    (batchReadChangedRecords args g.qCapacity clock queueHead polls head).2.head = head ↔
      ¬ ReadsFirst args clock polls head := by
  have here : entryHead queueHead head = head := by
    rw [entryHead, if_neg (by omega)]
  rw [batchReadChangedRecords]
  by_cases invalid : args.Invalid
  · rw [if_pos invalid]
    exact iff_of_true rfl fun reads => reads.1 invalid
  rw [if_neg invalid, here]
  unfold ReadsFirst
  cases hc : (if 0 ≤ args.timeout then clock else .ok 0) with
  | error e =>
    refine iff_of_true rfl ?_
    rintro ⟨_, start, begun, _⟩
    cases begun
  | ok start =>
    have positive : 0 < args.count := by
      by_contra zero
      exact invalid (Or.inl (by omega))
    refine (readRounds_head args start polls (.start head) long longs rfl positive).trans ?_
    refine not_congr ⟨fun first => ⟨invalid, start, rfl, first⟩, ?_⟩
    rintro ⟨_, start', begun, first⟩
    cases begun
    exact first

/-- A call that fails has left the caller's head where it was if and only if not even its first
round went through. -/
theorem failed_read_head (args : ReadArgs) (clock : Except Failure Int) (queueHead : Nat)
    (polls : List (Poll g)) {head : Int} (position : 0 ≤ head) (long : head < 9223372036854775808)
    (longs : ∀ p ∈ polls, p.head < 9223372036854775808) {st : Int} {x : ReadState}
    (returns : batchReadChangedRecords args g.qCapacity clock queueHead polls head = (some st, x))
    (_ : Status.Failed st) : x.head = head ↔ ¬ ReadsFirst args clock polls head := by
  have reached := read_head args clock queueHead polls position long longs
  rwa [returns] at reached

def twoIds : ReadArgs := ⟨0, true, false, false, false, 2, 0⟩

/-- A poll that finds `head` entries of record 0. -/
def smallPoll (head : Nat) (signal : Except Failure Unit) : Poll small where
  head := head
  readQueue := fun _ => .ok 0
  copy := fun _ _ => .ok ⟨1, 0, smallValue 7⟩
  check := ⟨signal, .ok (), .ok 0⟩

/-- `SIG_ERROR_BASE - SIGINT`. -/
def sigIntError : Failure := ⟨-128 - 2, by decide⟩

/-- A signal that is raised behind a round: the record has been read and is not reported. -/
theorem failed_read_moves : ∃ st x,
    batchReadChangedRecords twoIds small.qCapacity (.ok 0) 1 [smallPoll 1 (.error sigIntError)] 0 =
      (some st, x) ∧ Status.Failed st ∧ x.head ≠ 0 := by
  refine ⟨-130, _, rfl, by decide, by decide⟩

/-- An overrun in the first round. -/
theorem failed_read_head_small : ∃ x,
    batchReadChangedRecords twoIds small.qCapacity (.ok 0) 3 [smallPoll 3 (.ok ())] 0 =
      (some Status.changeQueueOverrun, x) ∧ x.head = 0 := by
  refine ⟨_, rfl, ?_⟩
  apply (failed_read_head twoIds (.ok 0) 3 [smallPoll 3 (.ok ())] (le_refl 0) (by decide) ?_
    (by rfl) (by decide)).mpr
  · rintro ⟨_, start, _, first⟩
    obtain ⟨_, few, _⟩ := first
    revert few
    decide
  · intro p here
    obtain rfl := List.mem_singleton.mp here
    decide

end Lancaster
