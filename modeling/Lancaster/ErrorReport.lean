import Lancaster.Base.Text
import Lancaster.Spin

/-!
# Reporting an error

`error_msg`, `error_save_last` and `error_restore_last` take the message lock, and
`spin_write_lock` reports that it could not take a lock by `error_msg`. For the message lock
that is another attempt at the lock that could not be taken.

Others may hold the lock, or release it, between any two looks at it. `clock_sleep` succeeds,
and a formatted text fits its buffer.
-/

namespace Lancaster

open Text

/-- The variables of `error.c`, and `errno`. -/
structure Messages where
  progName : List UInt8
  lastMsg : List UInt8
  savedMsg : List UInt8
  lastCode : Int
  savedCode : Int
  savedErrno : Int
  errno : Int
  withTs : Bool

structure Surroundings where
  /-- The word that each look at the message lock finds. -/
  lock : Nat → Int
  /-- The time of day as text, unless one of the functions for it fails. -/
  timestamp : Option (List UInt8)
  /-- Whether the standard error output can be written. -/
  writable : Bool

/-- The looks at the lock so far, the attempts to take it, and the messages. -/
structure Reporting where
  looks : Nat
  attempts : Nat
  messages : Messages

inductive Ending where
  | returned (st : Int)
  | aborted
  | exited (code : Int)

namespace Reporting

/-- `spin_write_lock` on the message lock. Nothing is returned if the report does not end. -/
def spinWriteLock (env : Surroundings) (report : Reporting → Option (Ending × Reporting))
    (r : Reporting) :
    Option (Ending × Reporting) :=
  match spinLoop env.lock (fun _ => Status.ok) r.looks 0 0 with
  | (.ok _, looks) => some (.returned Status.ok, { r with looks := looks, attempts := r.attempts + 1 })
  | (.error _, looks) => report { r with looks := looks, attempts := r.attempts + 1 }

/-- Every caller aborts if it does not get the lock. -/
def locked (result : Option (Ending × Reporting)) (body : Reporting → Ending × Reporting) :
    Option (Ending × Reporting) :=
  result.map fun
    | (.returned st, r) => if Status.Failed st then (.aborted, r) else body r
    | ended => ended

/-- The text that is kept: with the time, the name of the program, and as much as fits. -/
def lastText (env : Surroundings) (m : Messages) (buf : List UInt8) : Option (List UInt8) := do
  let stamp ← if m.withTs then env.timestamp else some []
  let front := stamp ++ if m.progName = [] then [] else m.progName ++ ascii ": "
  some (front ++ buf.take (512 - front.length - 1))

def store (env : Surroundings) (code : Int) (buf : List UInt8) (r : Reporting) :
    Ending × Reporting :=
  match lastText env r.messages buf with
  | none => (.aborted, r)
  | some text =>
    (.returned code, { r with messages := { r.messages with lastCode := code, lastMsg := text } })

def errorReportFatal (env : Surroundings) (r : Reporting) : Ending × Reporting :=
  if env.writable then (.exited (-r.messages.lastCode), r) else (.aborted, r)

def deadlockText : List UInt8 := ascii "spin_write_lock: deadlock detected"

/-- `error_msg`, with a bound on how deeply calls of it are nested. -/
def errorMsg (env : Surroundings) : Nat → Int → Option (List UInt8) → Reporting → Option (Ending × Reporting)
  | 0, _, _, _ => none
  | depth + 1, _, none, r => invalid env (errorMsg env depth) r
  | depth + 1, code, some buf, r =>
    if 0 ≤ code then invalid env (errorMsg env depth) r
    else
      locked (spinWriteLock env (errorMsg env depth Status.deadlockDetected (some deadlockText)) r)
        (store env code buf)
where
  /-- `error_invalid_arg`, then `error_report_fatal`. -/
  invalid (env : Surroundings) (errorMsg : Int → Option (List UInt8) → Reporting →
    Option (Ending × Reporting))
      (r : Reporting) : Option (Ending × Reporting) :=
    (errorMsg Status.invalidArg (some (ascii "error: error_msg: Invalid argument"))
      { r with messages := { r.messages with errno := 22 } }).map fun
      | (.returned _, r) => errorReportFatal env r
      | ended => ended

/-- `spin_write_lock` on the message lock, as the callers of it meet it. -/
def takeLock (env : Surroundings) (depth : Nat) : Reporting → Option (Ending × Reporting) :=
  spinWriteLock env (errorMsg env depth Status.deadlockDetected (some deadlockText))

def errorSaveLast (env : Surroundings) (depth : Nat) (r : Reporting) :
    Option (Ending × Reporting) :=
  locked (takeLock env depth r) fun r =>
    let m := r.messages
    if m.lastCode ≠ 0 then
      (.returned Status.ok, { r with messages := { m with
        savedErrno := m.errno, savedCode := m.lastCode, savedMsg := m.lastMsg
        lastCode := 0, lastMsg := [] } })
    else (.returned Status.ok, r)

def errorRestoreLast (env : Surroundings) (depth : Nat) (r : Reporting) :
    Option (Ending × Reporting) :=
  locked (takeLock env depth r) fun r =>
    let m := r.messages
    if m.savedCode ≠ 0 then
      (.returned Status.ok, { r with messages := { m with
        errno := m.savedErrno, lastCode := m.savedCode, lastMsg := m.savedMsg
        savedCode := 0, savedMsg := [] } })
    else (.returned Status.ok, r)

/-! ## Waiting for the lock -/

/-- The looks of one attempt: `MAX_SPINS`, one for each sleep, and the last. -/
def patience : Nat := 10000 + 1000 + 1

/-- The lock is found free by one of the looks of the first attempt. -/
def FreeSoon (env : Surroundings) (r : Reporting) : Prop :=
  ∃ n < patience, 0 ≤ env.lock (r.looks + n)

variable {env : Surroundings} {r : Reporting} {report : Reporting → Option (Ending × Reporting)}

theorem taken_iff : (spinLoop env.lock (fun _ => Status.ok) r.looks 0 0).1.isOk = true ↔ FreeSoon env r :=
  spinLoop_waited (fun _ => by decide) (by decide)

theorem spinWriteLock_free (free : FreeSoon env r) :
    ∃ looks, spinWriteLock env report r =
      some (.returned Status.ok, { r with looks := looks, attempts := r.attempts + 1 }) := by
  have taken := taken_iff.mpr free
  unfold spinWriteLock
  rcases eq : spinLoop env.lock (fun _ => Status.ok) r.looks 0 0 with ⟨result, looks⟩
  rw [eq] at taken
  cases result with
  | error st => cases taken
  | ok rev => exact ⟨looks, rfl⟩

theorem spinWriteLock_held (stuck : ¬ FreeSoon env r) :
    ∃ looks, spinWriteLock env report r =
      report { r with looks := looks, attempts := r.attempts + 1 } := by
  have missed := mt taken_iff.mp stuck
  unfold spinWriteLock
  rcases eq : spinLoop env.lock (fun _ => Status.ok) r.looks 0 0 with ⟨result, looks⟩
  rw [eq] at missed
  cases result with
  | error st => exact ⟨looks, rfl⟩
  | ok rev => exact absurd rfl missed

/-! ## The attempts of a call -/

variable {result : Option (Ending × Reporting)} {body : Reporting → Ending × Reporting}
  {ending : Ending} {r' : Reporting}

theorem locked_attempts (keeps : ∀ r, (body r).2.attempts = r.attempts)
    (h : locked result body = some (ending, r')) :
    ∃ ending' r'', result = some (ending', r'') ∧ r'.attempts = r''.attempts := by
  obtain ⟨⟨ending', r''⟩, eq, mapped⟩ := Option.map_eq_some_iff.mp h
  refine ⟨ending', r'', eq, ?_⟩
  cases ending' with
  | returned st =>
    dsimp only at mapped
    split at mapped
    · cases mapped
      rfl
    · have := keeps r''
      rw [mapped] at this
      exact this
  | aborted =>
    cases mapped
    rfl
  | exited code =>
    cases mapped
    rfl

theorem locked_free (free : FreeSoon env r) (keeps : ∀ r, (body r).2.attempts = r.attempts) :
    ∃ ending r', locked (spinWriteLock env report r) body = some (ending, r') ∧
      r'.attempts = r.attempts + 1 := by
  obtain ⟨looks, eq⟩ := @spinWriteLock_free env r report free
  rw [eq]
  exact ⟨_, _, rfl, keeps _⟩

theorem store_attempts (code : Int) (buf : List UInt8) (r : Reporting) :
    (store env code buf r).2.attempts = r.attempts := by
  unfold store
  split <;> rfl

theorem errorReportFatal_attempts (r : Reporting) :
    (errorReportFatal env r).2.attempts = r.attempts := by
  unfold errorReportFatal
  split <;> rfl

theorem invalid_attempts {inner : Int → Option (List UInt8) → Reporting →
    Option (Ending × Reporting)}
    (h : errorMsg.invalid env inner r = some (ending, r')) :
    ∃ text m ending' r'', inner Status.invalidArg (some text) { r with messages := m } =
      some (ending', r'') ∧
      r'.attempts = r''.attempts := by
  obtain ⟨⟨ending', r''⟩, eq, mapped⟩ := Option.map_eq_some_iff.mp h
  refine ⟨_, _, ending', r'', eq, ?_⟩
  cases ending' with
  | returned st =>
    have := @errorReportFatal_attempts env r''
    dsimp only at mapped
    rw [mapped] at this
    exact this
  | aborted =>
    cases mapped
    rfl
  | exited code =>
    cases mapped
    rfl

/-- A call that ends has made an attempt, and one more if the first one fails. -/
theorem errorMsg_attempts {depth : Nat} {code : Int} {msg : Option (List UInt8)}
    (h : errorMsg env depth code msg r = some (ending, r')) :
    r.attempts + 1 ≤ r'.attempts ∧ (¬ FreeSoon env r → r.attempts + 2 ≤ r'.attempts) := by
  induction depth generalizing code msg r ending r' with
  | zero => cases h
  | succ depth ih =>
    have rejected (h : errorMsg.invalid env (errorMsg env depth) r = some (ending, r')) :
        r.attempts + 1 ≤ r'.attempts ∧ (¬ FreeSoon env r → r.attempts + 2 ≤ r'.attempts) := by
      obtain ⟨text, m, ending', r'', eq, same⟩ := invalid_attempts h
      rw [same]
      have nested := ih eq
      exact nested
    cases msg with
    | none => exact rejected h
    | some buf =>
      rw [errorMsg] at h
      split at h
      · exact rejected h
      · obtain ⟨ending', r'', eq, same⟩ := locked_attempts (store_attempts code buf) h
        rw [same]
        by_cases free : FreeSoon env r
        · obtain ⟨looks, taken⟩ := spinWriteLock_free free
          rw [taken] at eq
          cases eq
          exact ⟨Nat.le_refl _, fun stuck => absurd free stuck⟩
        · obtain ⟨looks, report⟩ := spinWriteLock_held free
          rw [report] at eq
          have nested := (ih eq).1
          dsimp only at nested
          exact ⟨by omega, fun _ => by omega⟩

/-- The call ends, and there has been no attempt to take the lock but its own. -/
def EndsAtOnce (call : Nat → Reporting → Option (Ending × Reporting)) (r : Reporting) : Prop :=
  ∃ depth ending r', call depth r = some (ending, r') ∧ r'.attempts = r.attempts + 1

theorem errorMsg_ends_iff (env : Surroundings) (code : Int) (msg : Option (List UInt8))
    (r : Reporting) :
    EndsAtOnce (fun depth => errorMsg env depth code msg) r ↔ FreeSoon env r := by
  constructor
  · rintro ⟨depth, ending, r', ends, one⟩
    by_contra stuck
    have := (errorMsg_attempts ends).2 stuck
    omega
  · intro free
    -- an invalid call makes its attempt in a valid one
    have reported (code : Int) (negative : ¬ 0 ≤ code) (buf : List UInt8) (depth : Nat) (m : Messages) :
        ∃ ending r', errorMsg env (depth + 1) code (some buf) { r with messages := m } =
          some (ending, r') ∧
          r'.attempts = r.attempts + 1 := by
      rw [errorMsg, if_neg negative]
      exact locked_free free (store_attempts code buf)
    have rejected : ∃ ending r', errorMsg.invalid env (errorMsg env 1) r = some (ending, r') ∧
        r'.attempts = r.attempts + 1 := by
      obtain ⟨ending, r', eq, one⟩ := reported Status.invalidArg (by decide)
        (ascii "error: error_msg: Invalid argument") 0 { r.messages with errno := 22 }
      unfold errorMsg.invalid
      rw [eq]
      cases ending with
      | returned st =>
        exact ⟨(errorReportFatal env r').1, (errorReportFatal env r').2, rfl,
          (errorReportFatal_attempts r').trans one⟩
      | aborted => exact ⟨_, _, rfl, one⟩
      | exited code => exact ⟨_, _, rfl, one⟩
    refine ⟨2, ?_⟩
    dsimp only
    cases msg with
    | none => exact rejected
    | some buf =>
      by_cases negative : 0 ≤ code
      · rw [errorMsg, if_pos negative]
        exact rejected
      · exact reported code negative buf 1 r.messages

/-- A call that takes the lock and then does something ends as the lock does. -/
theorem locked_ends_iff (body : Reporting → Ending × Reporting)
    (keeps : ∀ r, (body r).2.attempts = r.attempts) :
    EndsAtOnce (fun depth r => locked (takeLock env depth r) body) r ↔ FreeSoon env r := by
  constructor
  · rintro ⟨depth, ending, r', ends, one⟩
    by_contra stuck
    obtain ⟨ending', r'', eq, same⟩ := locked_attempts keeps ends
    obtain ⟨looks, report⟩ :=
      @spinWriteLock_held env r (errorMsg env depth Status.deadlockDetected (some deadlockText)) stuck
    rw [takeLock, report] at eq
    have := (errorMsg_attempts eq).1
    dsimp only at this
    omega
  · intro free
    exact ⟨0, locked_free free keeps⟩

/-- Each call ends with no other attempt to take the message lock, if and only if one of the
first 11001 looks finds that free. -/
theorem reporting_ends (env : Surroundings) (r : Reporting) :
    (∀ code msg, EndsAtOnce (fun depth => errorMsg env depth code msg) r ↔ FreeSoon env r) ∧
    (EndsAtOnce (errorSaveLast env) r ↔ FreeSoon env r) ∧
    (EndsAtOnce (errorRestoreLast env) r ↔ FreeSoon env r) := by
  refine ⟨fun code msg => errorMsg_ends_iff env code msg r, ?_, ?_⟩
  · apply locked_ends_iff
    intro r
    dsimp only
    split <;> rfl
  · apply locked_ends_iff
    intro r
    dsimp only
    split <;> rfl

/-- While the lock stays held no call comes back, however deeply the calls are nested. -/
theorem errorMsg_stuck (held : ∀ n, env.lock n < 0) (depth : Nat) (code : Int)
    (msg : Option (List UInt8)) (r : Reporting) : errorMsg env depth code msg r = none := by
  induction depth generalizing code msg r with
  | zero => rfl
  | succ depth ih =>
    have stuck : ¬ FreeSoon env r := by
      rintro ⟨n, _, free⟩
      have := held (r.looks + n)
      omega
    have rejected : errorMsg.invalid env (errorMsg env depth) r = none := by
      rw [errorMsg.invalid, ih]
      rfl
    cases msg with
    | none => exact rejected
    | some buf =>
      rw [errorMsg]
      split
      · exact rejected
      · obtain ⟨looks, report⟩ :=
          @spinWriteLock_held env r (errorMsg env depth Status.deadlockDetected (some deadlockText)) stuck
        rw [report, ih]
        rfl

/-- The message lock is held for ever: a report of a full disk ends at no depth. -/
theorem held_for_ever :
    let env : Surroundings := ⟨fun _ => lockedWord 0, none, true⟩
    let r : Reporting := ⟨0, 0, ⟨ascii "publisher", [], [], 0, 0, 0, 0, false⟩⟩
    ¬ (∃ depth ended, errorMsg env depth (-28)
      (some (ascii "error: write: No space left on device")) r = some ended) ∧
      ¬ EndsAtOnce (fun depth => errorMsg env depth (-28)
        (some (ascii "error: write: No space left on device"))) r := by
  intro env r
  have held : lockedWord 0 < 0 := by decide
  have never (depth : Nat) : errorMsg env depth (-28)
      (some (ascii "error: write: No space left on device")) r = none :=
    errorMsg_stuck (fun _ => held) depth _ _ _
  constructor
  · rintro ⟨depth, ended, eq⟩
    rw [never] at eq
    cases eq
  · rintro ⟨depth, ending, r', eq, _⟩
    dsimp only at eq
    rw [never] at eq
    cases eq

end Reporting

end Lancaster
