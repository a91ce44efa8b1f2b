import Lancaster.Storage

/-!
# Waiting for a lock word

`spin_read_lock` and `spin_write_lock` look at a lock word until they find its sign bit clear. After
`MAX_SPINS` looks each further one follows a sleep, and when the sleeps have used up `MAX_WAIT_USEC`
a deadlock is reported. Others may change the word between any two looks.
-/

namespace Lancaster

/-- The loop: the free word or the failure, and the looks up to then. A look finds a word, and a
call of `clock_sleep` returns a status. -/
@[semireducible] def spinLoop (word sleep : Nat → Int) (look spins sleeps : Nat) :
    Except Failure Int × Nat :=
  if word look < 0 then
    if spins + 1 ≤ 10000 then spinLoop word sleep (look + 1) (spins + 1) sleeps
    else if sleeps + 1 > 1000 then
      (.error ⟨Status.deadlockDetected, Status.failed_deadlockDetected⟩, look + 1)
    else if failed : Status.Failed (sleep sleeps) then (.error ⟨sleep sleeps, failed⟩, look + 1)
    else spinLoop word sleep (look + 1) (spins + 1) (sleeps + 1)
  else (.ok (word look), look + 1)
termination_by (10000 - spins) + (1000 - sleeps)

variable {word sleep : Nat → Int} {look spins sleeps : Nat}

theorem spinLoop_free (free : 0 ≤ word look) :
    spinLoop word sleep look spins sleeps = (.ok (word look), look + 1) := by
  rw [spinLoop, if_neg (by omega)]

/-- A word that is held at each look is not taken. -/
theorem spinLoop_held (held : ∀ n, word n < 0) :
    ∃ st, (spinLoop word sleep look spins sleeps).1 = .error st := by
  fun_induction spinLoop word sleep look spins sleeps with
  | case1 look spins sleeps here spinning ih => exact ih
  | case2 look spins sleeps here spun last => exact ⟨_, rfl⟩
  | case3 look spins sleeps here spun more failed => exact ⟨_, rfl⟩
  | case4 look spins sleeps here spun more slept ih => exact ih
  | case5 look spins sleeps free => exact absurd (held look) free

/-- Where no sleep fails, the failure is a deadlock. -/
theorem spinLoop_deadlock (awake : ∀ i, ¬ Status.Failed (sleep i)) {st : Failure}
    (failed : (spinLoop word sleep look spins sleeps).1 = .error st) :
    st = ⟨Status.deadlockDetected, Status.failed_deadlockDetected⟩ := by
  fun_induction spinLoop word sleep look spins sleeps with
  | case1 look spins sleeps here spinning ih => exact ih failed
  | case2 look spins sleeps here spun last => exact (Except.error.inj failed).symm
  | case3 look spins sleeps here spun more asleep => exact absurd asleep (awake sleeps)
  | case4 look spins sleeps here spun more slept ih => exact ih failed
  | case5 look spins sleeps free => cases failed

/-! ## The looks there are -/

/-- A number of looks has taken the lock exactly if one of them finds it free. -/
def Waited (word : Nat → Int) (look most : Nat) (taken : Bool) : Prop :=
  taken = true ↔ ∃ n < most, 0 ≤ word (look + n)

theorem Waited.later {most : Nat} {taken : Bool} (here : word look < 0)
    (h : Waited word (look + 1) most taken) : Waited word look (most + 1) taken := by
  refine h.trans ⟨?_, ?_⟩
  · rintro ⟨n, less, free⟩
    rw [Nat.add_assoc, Nat.add_comm 1 n] at free
    exact ⟨n + 1, by omega, free⟩
  · rintro ⟨n, less, free⟩
    cases n with
    | zero => exact absurd here (by simpa using free)
    | succ n =>
      rw [Nat.add_comm n 1, ← Nat.add_assoc] at free
      exact ⟨n, by omega, free⟩

theorem spinLoop_waited (awake : ∀ i, ¬ Status.Failed (sleep i)) (few : sleeps ≤ 1000) :
    Waited word look ((10000 - spins) + (1000 - sleeps) + 1)
      (spinLoop word sleep look spins sleeps).1.isOk := by
  fun_induction spinLoop word sleep look spins sleeps with
  | case1 look spins sleeps here spinning ih =>
    have rest : (10000 - spins) + (1000 - sleeps) + 1 =
      (10000 - (spins + 1)) + (1000 - sleeps) + 1 + 1 := by
      omega
    rw [rest]
    exact (ih few).later here
  | case2 look spins sleeps here spun last =>
    -- the last look
    have rest : (10000 - spins) + (1000 - sleeps) + 1 = 1 := by omega
    rw [rest]
    refine iff_of_false nofun ?_
    rintro ⟨n, less, free⟩
    obtain rfl : n = 0 := by omega
    exact absurd here (by simpa using free)
  | case3 look spins sleeps here spun more asleep => exact absurd asleep (awake sleeps)
  | case4 look spins sleeps here spun more slept ih =>
    have rest : (10000 - spins) + (1000 - sleeps) + 1 =
        (10000 - (spins + 1)) + (1000 - (sleeps + 1)) + 1 + 1 := by
      omega
    rw [rest]
    exact (ih (by omega)).later here
  | case5 look spins sleeps free => exact iff_of_true rfl ⟨0, by omega, by simpa using free⟩

/-! ## A word that nobody else changes -/

/-- `spin_read_lock` and `spin_write_lock` on a word that stays as it is, when `clock_sleep`
succeeds. -/
def spin (word : Int) : Except Failure Int :=
  (spinLoop (fun _ => word) (fun _ => Status.ok) 0 0 0).1

theorem spin_free {word : Int} (free : 0 ≤ word) : spin word = .ok word := by
  rw [spin, spinLoop_free free]

theorem spin_negative {word : Int} (held : word < 0) :
    spin word = .error ⟨Status.deadlockDetected, Status.failed_deadlockDetected⟩ := by
  obtain ⟨st, failed⟩ := @spinLoop_held (fun _ => word) (fun _ => Status.ok) 0 0 0 fun _ => held
  rw [spin, failed, spinLoop_deadlock (fun _ => by decide) failed]

theorem spin_ok_iff {word : Int} : (spin word).isOk = true ↔ 0 ≤ word := by
  rcases Int.lt_or_le word 0 with held | free
  · rw [spin_negative held]
    exact iff_of_false nofun (by omega)
  · rw [spin_free free]
    exact iff_of_true rfl free

end Lancaster
