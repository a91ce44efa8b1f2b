import Lancaster.Base.Atomic
import Lancaster.Base.Linked
import Lancaster.Storage

/-!
# The toucher and its thread

A toucher keeps a linked list of storages, and a thread of its own writes the time into each of
them again and again. Callers add and remove storages meanwhile, and the owner creates,
stops and destroys the toucher. All of them are interleaved at single steps: a word of the lock
changed, a cell of the list read, linked or freed, a flag of the thread read or written.

A step that uses memory which is not allocated, or joins the thread once more, sets `fault`. What is
asked of the users is part of the steps: they add and remove only between `toucher_create` and
`toucher_destroy`, nobody is still inside when the owner destroys, and `toucher_stop` is called
once at most, and only of a toucher with a period (there is no thread to stop otherwise).
-/

namespace Lancaster

open Linked

namespace Toucher

inductive Operation where
  | add (store : Option Nat)
  | remove (store : Option Nat)
  | sweep
  deriving DecidableEq

/-- What an operation returns: its status, or the one that the wait for the lock came to, and of a
sweep also the time and what was touched. -/
inductive Outcome where
  | status (st : Int)
  | refused (st : Int)
  | swept (now : Option Int) (stores : List Nat) (st : Int)
  deriving DecidableEq

/-- Where a caller or the thread is. The link that leads to a target is `targets` of the toucher
(`none`) or `next` of a target. -/
inductive At where
  | idle
  | addLock (store : Option Nat)
  | addScan (store : Nat) (t : Option Nat)
  | addAlloc (store : Nat)
  | addFill (store t : Nat)
  | addLink (store t : Nat)
  | removeLock (store : Option Nat)
  | removeScan (store : Nat) (prev t : Option Nat)
  | removeUnlink (store : Nat) (prev : Option Nat) (t : Nat)
  | removeFree (store t : Nat)
  | unlock (op : Operation) (res : Outcome)
  | unborn
  | check
  | sweepLock
  | sweepClock
  | sweepWalk (now : Int) (done : List Nat) (t : Option Nat)
  | sweepTouch (now : Int) (done : List Nat) (t : Nat)
  | sleep
  | leave (st : Int)
  | returned (st : Int)
  deriving DecidableEq

inductive Reply where
  | ok
  | fail (st : Failure)
  | mem (t : Nat)
  | time (now : Int)

def At.Holds : At → Prop
  | .addScan .. | .addAlloc _ | .addFill .. | .addLink .. => True
  | .removeScan .. | .removeUnlink .. | .removeFree .. => True
  | .sweepClock | .sweepWalk .. | .sweepTouch .. | .unlock .. => True
  | _ => False

def At.usesToucher : At → Bool
  | .idle | .unborn | .check | .leave _ | .returned _ => false
  | .addLock none | .removeLock none => false
  | _ => true

def At.usesThread : At → Bool
  | .check | .leave _ => true
  | _ => false

/-- A step under the lock: it waits for another reply, it uses a target that is not there, or it
leaves the list and the program so. -/
inductive Move where
  | stuck
  | fault
  | goes (mem : Memory Nat) (p : At)

/-- The steps of `toucher_add_storage`, `toucher_remove_storage` and `touch_func` between
`spin_write_lock` and `spin_unlock`. -/
def walk (mem : Memory Nat) (r : Reply) : At → Move
  | .addScan store none => .goes mem (.addAlloc store)
  | .addScan store (some t) =>
    match mem.heap t with
    | none => .fault
    | some c =>
      if c.val = store then .goes mem (.unlock (.add (some store)) (.status Status.ok))
      else .goes mem (.addScan store c.next)
  | .addAlloc store =>
    match r with
    | .fail _ => .goes mem (.unlock (.add (some store)) (.status Status.noMemory))
    | .mem t =>
      -- malloc gives no address that is in use
      if (mem.heap t).isSome then .stuck else .goes (mem.put t (some ⟨0, none⟩)) (.addFill store t)
    | _ => .stuck
  | .addFill store t =>
    match mem.heap t with
    | none => .fault
    | some _ => .goes (mem.put t (some ⟨store, mem.first⟩)) (.addLink store t)
  | .addLink store t =>
    .goes { mem with first := some t } (.unlock (.add (some store)) (.status Status.ok))
  | .removeScan store _ none => .goes mem (.unlock (.remove (some store)) (.status Status.notFound))
  | .removeScan store prev (some t) =>
    match mem.heap t with
    | none => .fault
    | some c =>
      if c.val = store then .goes mem (.removeUnlink store prev t)
      else .goes mem (.removeScan store (some t) c.next)
  | .removeUnlink store prev t =>
    match mem.heap t with
    | none => .fault
    | some c =>
      match mem.relink c.next prev with
      | none => .fault
      | some mem => .goes mem (.removeFree store t)
  | .removeFree store t =>
    match mem.heap t with
    | none => .fault
    | some _ => .goes (mem.put t none) (.unlock (.remove (some store)) (.status Status.ok))
  | .sweepClock =>
    match r with
    | .fail st => .goes mem (.unlock .sweep (.swept none [] st))
    | .time now => .goes mem (.sweepWalk now [] mem.first)
    | _ => .stuck
  | .sweepWalk now done none => .goes mem (.unlock .sweep (.swept (some now) done Status.ok))
  | .sweepWalk now done (some t) => .goes mem (.sweepTouch now done t)
  | .sweepTouch now done t =>
    match mem.heap t with
    | none => .fault
    | some c =>
      match r with
      | .ok => .goes mem (.sweepWalk now (done ++ [c.val]) c.next)
      | .fail st => .goes mem (.unlock .sweep (.swept (some now) done st))
      | _ => .stuck
  | _ => .stuck

/-- Where the owner is. `mark`, `join` and `clear` are `thread_stop`, called by `toucher_stop` or,
if the argument is set, by `toucher_destroy`. -/
inductive Owner where
  | absent
  | zeroed (period : Int)
  | threaded
  | unthread
  | abandon
  | spawned
  | ready
  | mark (destroying : Bool)
  | join (destroying : Bool)
  | clear (destroying : Bool)
  | destroyTest
  | destroyFree
  | freeing (t : Option Nat)
  | freeToucher
  | gone
  deriving DecidableEq

/-- Calls can be made. -/
@[simp] def Owner.serves : Owner → Bool
  | .ready | .mark false | .join false | .clear false => true
  | _ => false

/-- The `struct toucher` is allocated. -/
@[simp] def Owner.hasToucher : Owner → Bool
  | .absent | .gone => false
  | _ => true

/-- The next step uses the `struct thread`. -/
@[simp] def Owner.usesThread : Owner → Bool
  | .threaded | .unthread | .spawned | .mark _ | .join _ | .clear _ | .destroyFree => true
  | _ => false

/-- The toucher, its thread and `n` callers; `none` is the thread. -/
structure Machine (n : Nat) where
  word : Int
  mem : Memory Nat
  toucher : Bool
  thr : Bool
  running : Bool
  stopping : Bool
  joined : Bool
  place : Option (Fin n) → At
  owner : Owner
  fault : Bool

inductive Choice (n : Nat) where
  | add (i : Fin n) (store : Option Nat)
  | remove (i : Fin n) (store : Option Nat)
  | step (w : Option (Fin n)) (r : Reply)
  | create (period : Int)
  | stop
  | destroy
  | owner (r : Reply)

namespace Machine

variable {n : Nat}

def init (n : Nat) : Machine n where
  word := 0
  mem := .empty
  toucher := false
  thr := false
  running := false
  stopping := false
  joined := false
  place := fun w => if w.isSome then .idle else .unborn
  owner := .absent
  fault := false

def set (m : Machine n) (w : Option (Fin n)) (p : At) : Machine n :=
  { m with place := Function.update m.place w p }

/-- One more test of `spin_write_lock`: the word is marked whether or not it was free. -/
def tryLock (m : Machine n) (w : Option (Fin n)) (waits holds : At) : Machine n :=
  { m with word := lockedWord m.word }.set w (if m.word < 0 then waits else holds)

/-- Where `touch_func` goes on when a sweep is over. -/
def afterSweep : Outcome → At
  | .status st | .refused st => .leave st
  | .swept _ _ st => if Status.Failed st then .leave st else .sleep

def afterUnlock : Operation → Outcome → At
  | .sweep, res => afterSweep res
  | _, _ => .idle

/-- The steps of a caller or of the thread without the lock, and `spin_unlock`. A wait for the lock
ends with a deadlock or with what `clock_sleep` reports. -/
def outside (m : Machine n) (w : Option (Fin n)) (r : Reply) : Option (Machine n) :=
  match m.place w with
  | .addLock none => some (m.set w .idle)
  | .addLock (some store) =>
    match r with
    | .fail _ => some (m.set w .idle)
    | _ => some (m.tryLock w (.addLock (some store)) (.addScan store m.mem.first))
  | .removeLock none => some (m.set w .idle)
  | .removeLock (some store) =>
    match r with
    | .fail _ => some (m.set w .idle)
    | _ => some (m.tryLock w (.removeLock (some store)) (.removeScan store none m.mem.first))
  | .unlock op res => some ({ m with word := 0 }.set w (afterUnlock op res))
  | .check => some (m.set w (if m.stopping then .leave Status.ok else .sweepLock))
  | .sweepLock =>
    match r with
    | .fail st => some (m.set w (.leave st))
    | _ => some (m.tryLock w .sweepLock .sweepClock)
  | .sleep =>
    match r with
    | .fail st => some (m.set w (.leave st))
    | _ => some (m.set w .check)
  | .leave st => some ({ m with running := false }.set w (.returned st))
  | _ => none

/-- What a step under the lock comes to; what is stuck there may be a step without it. -/
def moved (m : Machine n) (w : Option (Fin n)) (r : Reply) : Move → Option (Machine n)
  | .fault => some { m with fault := true }
  | .goes mem p => some ({ m with mem := mem }.set w p)
  | .stuck => m.outside w r

def advance (m : Machine n) (w : Option (Fin n)) (r : Reply) : Option (Machine n) :=
  if ((m.place w).usesToucher && !m.toucher) || ((m.place w).usesThread && !m.thr) then
    some { m with fault := true }
  else
    m.moved w r (walk m.mem r (m.place w))

/-- One step of the owner inside `toucher_create`, `toucher_stop` or `toucher_destroy`, with
`thread_create`, `thread_stop` and `thread_destroy`. -/
def advanceOwner (m : Machine n) (r : Reply) : Option (Machine n) :=
  if (m.owner.hasToucher && !m.toucher) || (m.owner.usesThread && !m.thr) then
    some { m with fault := true }
  else
    match m.owner with
    | .absent | .ready | .gone => none
    | .zeroed period =>
      if 0 < period then
        match r with
        | .fail _ => some { m with owner := .abandon }
        | _ => some { m with
            owner := .threaded, thr := true, running := false, stopping := false }
      else some { m with owner := .ready }
    | .threaded =>
      match r with
      | .fail _ => some { m with owner := .unthread }
      | _ => some ({ m with owner := .spawned }.set none .check)
    | .unthread => some { m with owner := .abandon, thr := false }
    | .abandon => some { m with owner := .freeing m.mem.first }
    | .spawned => some { m with owner := .ready, running := true }
    | .mark destroying => some { m with owner := .join destroying, stopping := true }
    | .join destroying =>
      match m.place none with
      | .returned _ =>
        if m.joined then some { m with fault := true }
        else some { m with owner := .clear destroying, joined := true }
      | _ => none
    | .clear destroying =>
      some { m with owner := if destroying then .destroyFree else .ready, running := false }
    | .destroyTest =>
      some { m with owner :=
        if m.thr then if m.running then .mark true else .destroyFree else .freeing m.mem.first }
    | .destroyFree => some { m with owner := .freeing m.mem.first, thr := false }
    | .freeing none => some { m with owner := .freeToucher }
    | .freeing (some t) =>
      match m.mem.heap t with
      | none => some { m with fault := true }
      | some c => some { m with owner := .freeing c.next, mem := m.mem.put t none }
    | .freeToucher => some { m with owner := .gone, toucher := false }

def next : Choice n → Machine n → Option (Machine n)
  | .add i store, m =>
    if m.owner.serves ∧ m.place (some i) = .idle then some (m.set (some i) (.addLock store)) else none
  | .remove i store, m =>
    if m.owner.serves ∧ m.place (some i) = .idle then some (m.set (some i) (.removeLock store))
    else none
  | .step w r, m => m.advance w r
  | .create period, m =>
    if m.owner = .absent ∧ 0 ≤ period then
      some { m with
        owner := .zeroed period, toucher := true, word := 0, mem := { m.mem with first := none } }
    else none
  | .stop, m =>
    if m.owner = .ready ∧ m.thr ∧ ¬ m.joined then some { m with owner := .mark false } else none
  | .destroy, m =>
    if m.owner = .ready ∧ ∀ i, m.place (some i) = .idle then some { m with owner := .destroyTest }
    else none
  | .owner r, m => m.advanceOwner r

abbrev run (chs : List (Choice n)) (m : Machine n) : Option (Machine n) :=
  Atomic.perform next chs m

end Machine

/-! ## The set of targets -/

/-- What a toucher's list is for. -/
inductive TargetSet : List Nat → Operation → Outcome → List Nat → Prop where
  | addNull (l : List Nat) : TargetSet l (.add none) (.status Status.invalidArg) l
  | known {l : List Nat} {s : Nat} (h : s ∈ l) : TargetSet l (.add (some s)) (.status Status.ok) l
  | added {l : List Nat} {s : Nat} (h : s ∉ l) :
      TargetSet l (.add (some s)) (.status Status.ok) (s :: l)
  | noMemory {l : List Nat} {s : Nat} (h : s ∉ l) :
      TargetSet l (.add (some s)) (.status Status.noMemory) l
  | removeNull (l : List Nat) : TargetSet l (.remove none) (.status Status.invalidArg) l
  | removed {l : List Nat} {s : Nat} (h : s ∈ l) :
      TargetSet l (.remove (some s)) (.status Status.ok) (l.erase s)
  | notFound {l : List Nat} {s : Nat} (h : s ∉ l) :
      TargetSet l (.remove (some s)) (.status Status.notFound) l
  | refused (l : List Nat) (op : Operation) (st : Failure) : TargetSet l op (.refused st) l
  | noTime (l : List Nat) (st : Failure) : TargetSet l .sweep (.swept none [] st) l
  | swept (l : List Nat) (now : Int) : TargetSet l .sweep (.swept (some now) l Status.ok) l
  | broken (pre post : List Nat) (s : Nat) (now : Int) (st : Failure) :
      TargetSet (pre ++ s :: post) .sweep (.swept (some now) pre st) (pre ++ s :: post)

/-- No target is there twice. -/
theorem TargetSet.nodup {l l' : List Nat} {op : Operation} {res : Outcome}
    (h : TargetSet l op res l') (once : l.Nodup) : l'.Nodup := by
  cases h with
  | added h => exact List.nodup_cons.mpr ⟨h, once⟩
  | removed h => exact once.erase _
  | _ => exact once

def At.client : At → Atomic.Client Operation Outcome
  | .addLock store => .called (.add store)
  | .addScan store _ | .addAlloc store | .addFill store _ | .addLink store _ =>
    .called (.add (some store))
  | .removeLock store => .called (.remove store)
  | .removeScan store _ _ | .removeUnlink store _ _ | .removeFree store _ =>
    .called (.remove (some store))
  | .sweepLock | .sweepClock | .sweepWalk .. | .sweepTouch .. => .called .sweep
  | .unlock op _ => .called op
  | _ => .idle

def Machine.seen {n : Nat} (ch : Choice n) (m : Machine n) :
    List (Atomic.Event (Option (Fin n)) Operation Outcome) :=
  match ch with
  | .add i store => [.call (some i) (.add store)]
  | .remove i store => [.call (some i) (.remove store)]
  | .step w r =>
    match m.place w with
    | .addLock none | .removeLock none => [.ret w (.status Status.invalidArg)]
    | .addLock (some _) | .removeLock (some _) | .sweepLock =>
      match r with
      | .fail st => [.ret w (.refused st)]
      | _ => []
    | .check => if m.stopping then [] else [.call w .sweep]
    | .unlock _ res => [.ret w res]
    | _ => []
  | _ => []

def At.ofThread : At → Bool
  | .unborn | .check | .sweepLock | .sweepClock | .sweepWalk .. | .sweepTouch .. => true
  | .unlock op _ => op = .sweep
  | .sleep | .leave _ | .returned _ => true
  | _ => false

end Toucher

end Lancaster
