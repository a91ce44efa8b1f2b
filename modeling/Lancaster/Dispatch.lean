import Lancaster.Isolation
import Lancaster.Poller

/-!
# The rounds of the sender

The listening socket has slot 0 of the poller from the start. The first client to connect
gets slot 1, and the multicast socket follows it in slot 2; every later client comes behind.
A client that leaves is replaced by the last one, so that slot 1 holds a client and slot 2
the multicast socket as long as there are clients. The handler of slot 1 is the only one
that can remove the multicast socket, and it is called when slot 2 has been looked at.
-/

namespace Lancaster

open Interleaving Sender

variable {g : Geometry}

/-! ## The library calls of handlers that do not fail -/

namespace Sender

variable {s s' : Sender g} {c : Nat} {tr : Trace g} {st : Int}

open Task

theorem libCalls_fine {fs : List LibCall} (h : (libCalls s fs).Ends tr st)
    (fine : ¬ Status.Failed st) :
    libs tr = fs.map fun f => (f, .ok ()) := by
  induction fs generalizing tr with
  | nil =>
    obtain ⟨rfl, rfl⟩ := ends_done.mp h
    rfl
  | cons f rest ih =>
    obtain ⟨a, later, rfl, more⟩ := ends_call.mp h
    cases a with
    | error e =>
      obtain ⟨rfl, rfl⟩ := ends_done.mp more
      exact absurd e.2 fine
    | ok _ =>
      show (f, Except.ok ()) :: libs later = _
      rw [ih more]
      rfl

/-- A client's socket is removed and closed; with the last client the multicast socket goes. -/
def closes (s : Sender g) (c : Nat) : List LibCall :=
  [.pollerRemove c, .sockDestroy c] ++ if s.clientCount - 1 = 0 then [.pollerRemoveMcast] else []

theorem tcpOnHup_fine (h : (tcpOnHup s c).Ends tr (st, s')) (fine : ¬ Status.Failed st) :
    libs tr = (s.closes c).map (fun f => (f, .ok ())) ∧
    s' = { s.dropClient c with clientCount := s.clientCount - 1 } := by
  unfold tcpOnHup at h
  obtain ⟨st₁, closing, rest, rfl, calls, more⟩ := ends_bind.mp h
  clear h
  dsimp only at more
  split at more
  · rename_i failed
    obtain ⟨rfl, rfl, rfl⟩ := ends_done_pair.mp more
    exact absurd failed fine
  rename_i fine₁
  have first := libCalls_fine calls fine₁
  have count : (s.dropClient c).clientCount = s.clientCount := rfl
  unfold closes
  rw [count] at more
  split at more
  · rename_i last
    obtain ⟨st₂, removing, rest, rfl, removes, done⟩ := ends_bind.mp more
    obtain ⟨rfl, rfl, rfl⟩ := ends_done_pair.mp done
    rw [List.append_nil, libs_append, first, libCalls_fine removes fine, if_pos last]
    exact ⟨rfl, rfl⟩
  · rename_i others
    obtain ⟨rfl, rfl, rfl⟩ := ends_done_pair.mp more
    rw [List.append_nil, first, if_neg others]
    exact ⟨rfl, rfl⟩

/-- A client's socket is accepted and added; with the first client comes the multicast socket. -/
def opens (s : Sender g) (c : Nat) : List LibCall :=
  [.sockAccept c, .sockSetTcpNodelay c, .signalAddHandler, .writeHello c, .signalRemoveHandler,
    .xmalloc, .xmalloc, .xmalloc, .sockSetNonblock c, .pollerAdd c] ++
  if s.clientCount = 0 then [.pollerAddMcast] else []

def acceptCalls (c : Nat) : List LibCall :=
  [.sockAccept c, .sockSetTcpNodelay c, .signalAddHandler, .writeHello c, .signalRemoveHandler,
    .xmalloc, .xmalloc, .xmalloc, .sockSetNonblock c, .pollerAdd c]

theorem tcpOnAccept_fine {inBuf outBuf : List UInt8}
    (h : (tcpOnAccept s c inBuf outBuf).Ends tr (st, s')) (fine : ¬ Status.Failed st) :
    libs tr = (s.opens c).map (fun f => (f, .ok ())) ∧ s'.clientCount = s.clientCount + 1 ∧
    (s'.clients c).isSome ∧ ∀ i, i ≠ c → s'.clients i = s.clients i := by
  unfold tcpOnAccept at h
  obtain ⟨st₁, t₁, rest, rfl, h₁, more₁⟩ := ends_bind.mp h
  clear h
  split at more₁
  · rename_i failed
    obtain ⟨rfl, rfl, rfl⟩ := ends_done_pair.mp more₁
    exact absurd failed fine
  rename_i fine₁
  obtain ⟨st₂, t₂, rest, rfl, h₂, more₂⟩ := ends_bind.mp more₁
  clear more₁
  obtain ⟨st₃, t₃, rest, rfl, h₃, more₃⟩ := ends_bind.mp more₂
  clear more₂
  dsimp only at more₃
  have both : ¬ Status.Failed (if Status.Failed st₃ ∧ ¬ Status.Failed st₂ then st₃ else st₂) →
      ¬ Status.Failed st₂ ∧ ¬ Status.Failed st₃ := by
    rw [failed_either]
    exact not_or.mp
  generalize (if Status.Failed st₃ ∧ ¬ Status.Failed st₂ then st₃ else st₂) = st₄ at more₃ both
  split at more₃
  · rename_i failed
    obtain ⟨_, t₄, rest, rfl, h₄, last⟩ := ends_bind.mp more₃
    obtain ⟨rfl, rfl, rfl⟩ := ends_done_pair.mp last
    split at fine
    · exact absurd (show Status.Failed Status.protocolTimeout by decide) fine
    · exact absurd failed fine
  rename_i fine₄
  obtain ⟨fine₂, fine₃⟩ := both fine₄
  obtain ⟨st₅, t₅, rest, rfl, h₅, more₅⟩ := ends_bind.mp more₃
  clear more₃
  split at more₅
  · obtain ⟨st₆, t₆, rest, rfl, h₆, last⟩ := ends_bind.mp more₅
    obtain ⟨rfl, rfl, rfl⟩ := ends_done_pair.mp last
    exact absurd (show Status.Failed Status.noMemory by decide) fine
  rename_i fine₅
  obtain ⟨a, rest, rfl, more₆⟩ := ends_call.mp more₅
  clear more₅
  cases a with
  | error e =>
    obtain ⟨rfl, rfl, rfl⟩ := ends_done_pair.mp more₆
    exact absurd e.2 fine
  | ok now =>
    obtain ⟨st₇, t₇, rest, rfl, h₇, more₇⟩ := ends_bind.mp more₆
    clear more₆
    split at more₇
    · rename_i failed
      obtain ⟨rfl, rfl, rfl⟩ := ends_done_pair.mp more₇
      exact absurd failed fine
    rename_i fine₇
    have first : libs (t₁ ++ (t₂ ++ (t₃ ++ (t₅ ++ (⟨.clockTime, .ok now⟩ :: (t₇ ++ rest)))))) =
        (acceptCalls c).map (fun f => (f, Except.ok ())) ++ libs rest := by
      have clock : libs (⟨.clockTime, .ok now⟩ :: (t₇ ++ rest) : Trace g) = libs t₇ ++ libs rest :=
        libs_append t₇ rest
      simp only [libs_append, clock, libCalls_fine h₁ fine₁, libCalls_fine h₂ fine₂,
        libCalls_fine h₃ fine₃, libCalls_fine h₅ fine₅, libCalls_fine h₇ fine₇]
      rfl
    have held : ∀ i, (s.setClient c (newClient inBuf outBuf now)).clients i =
        if i = c then some (newClient inBuf outBuf now) else s.clients i := fun _ => rfl
    have here : ((s.setClient c (newClient inBuf outBuf now)).clients c).isSome := by
      rw [held, if_pos rfl]
      rfl
    have others : ∀ i, i ≠ c →
        (s.setClient c (newClient inBuf outBuf now)).clients i = s.clients i :=
      fun i other => (held i).trans (if_neg other)
    have count : (s.setClient c (newClient inBuf outBuf now)).clientCount = s.clientCount := rfl
    rw [first]
    unfold opens
    rw [count] at more₇
    split at more₇
    · rename_i one
      rw [if_pos (show s.clientCount = 0 by omega)]
      obtain ⟨st₈, t₈, rest, rfl, h₈, more₈⟩ := ends_bind.mp more₇
      clear more₇
      split at more₈
      · rename_i failed
        obtain ⟨rfl, rfl, rfl⟩ := ends_done_pair.mp more₈
        exact absurd failed fine
      rename_i fine₈
      obtain ⟨a, rest, rfl, more₉⟩ := ends_call.mp more₈
      clear more₈
      cases a with
      | error e =>
        obtain ⟨rfl, rfl, rfl⟩ := ends_done_pair.mp more₉
        exact absurd e.2 fine
      | ok now =>
        obtain ⟨head, rest, rfl, last⟩ := ends_call.mp more₉
        obtain ⟨rfl, rfl, rfl⟩ := ends_done_pair.mp last
        refine ⟨?_, rfl, here, others⟩
        rw [libs_append, libCalls_fine h₈ fine₈]
        rfl
    · rename_i more
      rw [if_neg (show ¬ s.clientCount = 0 by omega)]
      obtain ⟨rfl, rfl, rfl⟩ := ends_done_pair.mp more₇
      exact ⟨rfl, rfl, here, others⟩

def NoLib (r : (c : Call) × c.Ans g) : Prop := ∀ f, r.1 ≠ .lib f

theorem libs_of_noLib (h : ∀ r ∈ tr, NoLib r) : libs tr = [] := by
  rw [libs, List.filterMap_eq_nil_iff]
  rintro ⟨c, a⟩ here
  cases c with
  | lib f => exact absurd rfl (h _ here f)
  | _ => rfl

def SameClients (s s' : Sender g) : Prop := s'.clients = s.clients ∧ s'.clientCount = s.clientCount

theorem SameClients.trans {s'' : Sender g} (h : s.SameClients s') (h' : s'.SameClients s'') :
    s.SameClients s'' := ⟨h'.1.trans h.1, h'.2.trans h.2⟩

theorem Meets.same {β : Type} {J : (c : Call) × c.Ans g → Prop} {out : β → Sender g}
    {t : SenderTask g β} (same : s.SameClients s')
    (h : Meets J (fun r => s'.SameClients (out r)) t) : Meets J (fun r => s.SameClients (out r)) t := by
  intro tr r ends
  obtain ⟨all, later⟩ := h tr r ends
  exact ⟨all, same.trans later⟩

theorem lockStats_meets {s₁ : Sender g} {count : Nat} (same : s.SameClients s₁) :
    Meets NoLib (fun r => s.SameClients r.2) (Task.call s₁ Call.lockStats fun
      | .error st => .done (st.val, s₁)
      | .ok () => .done (Status.ok, { s₁ with nextStats := { s₁.nextStats with
          mcastBytesSent := s₁.nextStats.mcastBytesSent + count
          mcastPacketsSent := s₁.nextStats.mcastPacketsSent + 1 } }) :
        SenderTask g (Int × Sender g)) := by
  refine meets_call (fun _ => nofun) fun a => ?_
  cases a with
  | error e => exact meets_done same
  | ok _ => exact meets_done same

theorem mcastSendPkt_meets : Meets NoLib (fun r => s.SameClients r.2) (mcastSendPkt s) := by
  unfold mcastSendPkt
  refine meets_call (fun _ => nofun) fun a => ?_
  cases a with
  | error e => exact meets_done ⟨rfl, rfl⟩
  | ok now =>
    refine meets_call (fun _ => nofun) fun a => ?_
    cases a with
    | error e => exact meets_done ⟨rfl, rfl⟩
    | ok count =>
      by_cases data : 0 ≤ ntohll (Bytes.ldLong (Bytes.stLong s.pktBuf 8 (htonll now)) 0)
      · by_cases limit : s.nextSeq + 1 = sequenceMax
        · simp only [data, limit, and_self, ↓reduceIte]
          exact meets_done ⟨rfl, rfl⟩
        · simp only [data, limit, and_false, ↓reduceIte]
          exact lockStats_meets ⟨rfl, rfl⟩
      · simp only [data, false_and, ↓reduceIte]
        exact lockStats_meets ⟨rfl, rfl⟩

theorem mcastStageRecord_meets (id : Int) (usedSz : Nat) (sentPkt : Int) :
    Meets NoLib (fun r => s.SameClients r.2) (mcastStageRecord s id usedSz sentPkt) := by
  have staged : s.SameClients (s.stageId id usedSz) := by
    unfold stageId
    dsimp only
    split <;> exact ⟨rfl, rfl⟩
  unfold mcastStageRecord
  refine Meets.same staged (meets_call (fun _ => nofun) fun a => ?_)
  cases a with
  | error e => exact meets_done ⟨rfl, rfl⟩
  | ok r =>
    refine meets_call (fun _ => nofun) fun a => ?_
    cases a with
    | error e => exact meets_done ⟨rfl, rfl⟩
    | ok now =>
      refine meets_call (fun _ => nofun) fun a => ?_
      cases a with
      | error e => exact meets_done ⟨rfl, rfl⟩
      | ok _ => exact meets_done ⟨rfl, rfl⟩

theorem mcastAccumRecord_meets (id : Int) :
    Meets NoLib (fun r => s.SameClients r.2) (mcastAccumRecord s id) := by
  unfold mcastAccumRecord
  split
  · refine meets_call (fun _ => nofun) fun a => ?_
    cases a with
    | error e => exact meets_done ⟨rfl, rfl⟩
    | ok rev =>
      dsimp only
      split
      · exact meets_done ⟨rfl, rfl⟩
      · split
        · refine meets_bind mcastSendPkt_meets ?_
          rintro ⟨st, s'⟩ same
          dsimp only at same ⊢
          split
          · exact meets_done same
          · exact Meets.same same (mcastStageRecord_meets _ _ _)
        · exact mcastStageRecord_meets _ _ _
  · exact meets_done ⟨rfl, rfl⟩

theorem mcastOnEmptyQueue_meets : Meets NoLib (fun r => s.SameClients r.2) (mcastOnEmptyQueue s) := by
  unfold mcastOnEmptyQueue
  refine meets_call (fun _ => nofun) fun a => ?_
  cases a with
  | error e => exact meets_done ⟨rfl, rfl⟩
  | ok now =>
    dsimp only
    split
    · exact mcastSendPkt_meets
    · split
      · split
        · exact Meets.same ⟨rfl, rfl⟩ mcastSendPkt_meets
        · exact mcastSendPkt_meets
      · exact meets_done ⟨rfl, rfl⟩

theorem mcastScanQueue_meets (n qi : Nat) :
    Meets NoLib (fun r => s.SameClients r.2.1) (mcastScanQueue s n qi) := by
  induction n generalizing s qi with
  | zero => exact meets_done ⟨rfl, rfl⟩
  | succ n ih =>
    unfold mcastScanQueue
    refine meets_call (fun _ _ same => by cases same) fun a => ?_
    cases a with
    | error e => exact meets_done ⟨rfl, rfl⟩
    | ok id =>
      refine meets_bind (mcastAccumRecord_meets id) ?_
      rintro ⟨st, s'⟩ same
      dsimp only at same ⊢
      split
      · exact meets_done same
      · exact Meets.same same (ih _)

theorem mcastOnWrite_meets : Meets NoLib (fun r => s.SameClients r.2) (mcastOnWrite s) := by
  unfold mcastOnWrite
  refine meets_call (fun _ => nofun) fun (head : Nat) => ?_
  have moved : s.SameClients (if (head : Int) - s.lastQIdx < 0 then { s with lastQIdx := head } else s) := by
    split <;> exact ⟨rfl, rfl⟩
  dsimp only
  generalize (if (head : Int) - s.lastQIdx < 0 then { s with lastQIdx := head } else s) =
    s₁ at moved
  refine Meets.same moved ?_
  split
  · exact mcastOnEmptyQueue_meets
  · split
    · exact meets_done ⟨rfl, rfl⟩
    · have jumped : s₁.SameClients (if (g.qCapacity : Int) < (head : Int) - s.lastQIdx then
          { s₁ with lastQIdx := ((head : Int) - s.lastQIdx - g.qCapacity).toNat } else s₁) := by
        split <;> exact ⟨rfl, rfl⟩
      generalize (if (g.qCapacity : Int) < (head : Int) - s.lastQIdx then
          { s₁ with lastQIdx := ((head : Int) - s.lastQIdx - g.qCapacity).toNat } else s₁) =
            s₂ at jumped
      refine Meets.same jumped (meets_bind (mcastScanQueue_meets _ _) ?_)
      rintro ⟨st, s₃, qi⟩ same
      exact meets_done same

end Sender

/-! ## Rounds -/

inductive Sock where
  | listen
  | mcast
  | client (c : Nat)
  deriving DecidableEq

def Sock.isClient : Sock → Bool
  | .client _ => true
  | _ => false

/-- The sender with its poller, and which of the sockets of clients exist. -/
structure Service (g : Geometry) where
  sndr : Sender g
  poller : Poller Sock Revents
  isOpen : Nat → Bool

namespace Service

variable {x y : Service g}

/-- The poller after a call, if that gives the answer that was seen. -/
def adopt (x : Service g) : Except Failure (Poller Sock Revents) → Except Failure Unit → Option (Service g)
  | .ok p, .ok () => some { x with poller := p }
  | .error e, .error e' => if e = e' then some x else none
  | _, _ => none

/-- What a library call does, given its answer. A new socket is none of those that exist. -/
def libCall (x : Service g) : LibCall × Except Failure Unit → Option (Service g)
  | (.sockAccept c, .ok ()) =>
    if x.isOpen c then none else some { x with isOpen := fun i => if i = c then true else x.isOpen i }
  | (.sockDestroy c, _) => some { x with isOpen := fun i => if i = c then false else x.isOpen i }
  | (.pollerAdd c, a) => x.adopt (x.poller.pollerAdd (.client c) a.isOk) a
  | (.pollerAddMcast, a) => x.adopt (x.poller.pollerAdd .mcast a.isOk) a
  | (.pollerRemove c, a) => x.adopt (x.poller.pollerRemove (.client c)) a
  | (.pollerRemoveMcast, a) => x.adopt (x.poller.pollerRemove .mcast) a
  | _ => some x

def libCalls (x : Service g) : List (LibCall × Except Failure Unit) → Option (Service g)
  | [] => some x
  | f :: rest => (x.libCall f).bind fun y => y.libCalls rest

end Service

/-- What a handler learns from outside: the connection that it accepts, with the contents of
the new buffers, and the answers to its calls. -/
structure Given (g : Geometry) where
  conn : Nat
  inBuf : List UInt8
  outBuf : List UInt8
  trace : Trace g

namespace Service

def event (sock : Sock) (rev : Revents) (given : Given g) : Event :=
  match sock with
  | .listen => .accept given.conn given.inBuf given.outBuf
  | .mcast => .mcast
  | .client c => .client c rev

def eventFunc (sock : Sock) (rev : Revents) (given : Given g) (x : Service g) :
    Option (Int × Service g) :=
  ((x.sndr.handle (event sock rev given)).result given.trace).bind fun r =>
    (x.libCalls (libs given.trace)).map fun y => (r.status, { y with sndr := r.sndr })

/-- One round of `sender_run`: `poll` reports which sockets are ready, and their events are
handled. -/
def round (x : Service g) (ready : Nat → Option Revents) (givens : List (Given g)) :
    Option (Int × List (Look Sock (Service g)) × Service g) :=
  pollerProcessEvents poller eventFunc x.poller.freeIdx Status.ok
    { x with poller := x.poller.pollerEvents ready } givens

/-- `init` leaves the listening socket in a poller of ten slots; `junk` is what the others hold. -/
def start (s : Sender g) (junk : Nat → Slot Sock Revents) : Service g where
  sndr := s
  poller := ⟨10, 1, fun i => if i = 0 then ⟨.listen, none⟩ else junk i⟩
  isOpen := fun _ => false

/-- What `sender_run` reaches from `x` by rounds in which no handler fails. -/
inductive Serves (x : Service g) : Service g → Prop where
  | start : Serves x x
  | round {y z : Service g} {ready : Nat → Option Revents} {givens : List (Given g)} {st : Int}
      {looks : List (Look Sock (Service g))} (before : Serves x y)
      (h : y.round ready givens = some (st, looks, z)) (fine : ¬ Status.Failed st) : Serves x z

def clientSocks (x : Service g) : Nat :=
  (List.range x.poller.freeIdx).countP fun i => (x.poller.slots i).sock.isClient

structure Layout (x : Service g) : Prop where
  size : x.poller.freeIdx = if x.sndr.clientCount = 0 then 1 else x.sndr.clientCount + 2
  room : x.poller.freeIdx ≤ x.poller.count
  listen : (x.poller.slots 0).sock = .listen
  mcast : 0 < x.sndr.clientCount → (x.poller.slots 2).sock = .mcast
  client : ∀ i, i < x.poller.freeIdx → i ≠ 0 → i ≠ 2 → ∃ c, (x.poller.slots i).sock = .client c ∧
    x.isOpen c = true ∧ (x.sndr.clients c).isSome
  distinct : x.poller.Distinct

variable {x y : Service g}

/-- Everything that is looked at is open. -/
def Open (x : Service g) : Sock → Prop
  | .client c => x.isOpen c = true
  | _ => True

namespace Layout

theorem start (s : Sender g) (nobody : s.clientCount = 0) (junk : Nat → Slot Sock Revents) :
    (Service.start s junk).Layout := by
  refine ⟨?_, ?_, rfl, ?_, ?_, ?_⟩
  · show 1 = if s.clientCount = 0 then 1 else s.clientCount + 2
    rw [if_pos nobody]
  · show 1 ≤ 10
    decide
  · intro clients
    have : 0 < s.clientCount := clients
    omega
  · intro i low zero
    have : i < 1 := low
    omega
  · intro i j hi hj _
    have : i < 1 := hi
    have : j < 1 := hj
    omega

/-- The reports of `poll` change nothing of it. -/
theorem polled (h : x.Layout) (ready : Nat → Option Revents) :
    { x with poller := x.poller.pollerEvents ready }.Layout := by
  have socks : ∀ i, ((x.poller.pollerEvents ready).slots i).sock = (x.poller.slots i).sock := by
    intro i
    simp only [Poller.pollerEvents]
    split <;> rfl
  refine ⟨h.size, h.room, (socks 0).trans h.listen,
    fun clients => (socks 2).trans (h.mcast clients), ?_, ?_⟩
  · intro i low zero two
    obtain ⟨c, sock, rest⟩ := h.client i low zero two
    exact ⟨c, (socks i).trans sock, rest⟩
  · intro i j hi hj same
    apply h.distinct i j hi hj
    rw [← socks i, ← socks j]
    exact same

/-- No client has come or gone. -/
theorem served (h : x.Layout) {s : Sender g} (count : s.clientCount = x.sndr.clientCount)
    (held : ∀ c, (x.sndr.clients c).isSome → (s.clients c).isSome) :
    { x with sndr := s }.Layout := by
  refine ⟨?_, h.room, h.listen, ?_, ?_, h.distinct⟩
  · rw [count]
    exact h.size
  · rw [count]
    exact h.mcast
  · intro i low zero two
    obtain ⟨c, sock, isOpen, here⟩ := h.client i low zero two
    exact ⟨c, sock, isOpen, held c here⟩

/-- The slots of clients: all but the first and the third. -/
theorem slot_ne (h : x.Layout) {i c : Nat} (low : i < x.poller.freeIdx)
    (sock : (x.poller.slots i).sock = .client c) : i ≠ 0 ∧ i ≠ 2 ∧ 0 < x.sndr.clientCount := by
  have size := h.size
  refine ⟨?_, ?_, ?_⟩
  · rintro rfl
    rw [h.listen] at sock
    cases sock
  · rintro rfl
    rw [h.mcast (by split at size <;> omega)] at sock
    cases sock
  · split at size
    · have : i = 0 := by omega
      subst this
      rw [h.listen] at sock
      cases sock
    · omega

/-- Another client's socket takes the place of the one that is closed. -/
theorem closed (h : x.Layout) {i c : Nat} (low : i < x.poller.freeIdx)
    (sock : (x.poller.slots i).sock = .client c) (others : x.sndr.clientCount ≠ 1) {s : Sender g}
    (count : s.clientCount = x.sndr.clientCount - 1)
    (held : ∀ d, d ≠ c → (x.sndr.clients d).isSome → (s.clients d).isSome) :
    ({ sndr := s, poller := x.poller.removeAt i,
       isOpen := fun d => if d = c then false else x.isOpen d } : Service g).Layout := by
  obtain ⟨zero, two, clients⟩ := h.slot_ne low sock
  have size := h.size
  rw [if_neg (by omega)] at size
  have room := h.room
  have stay : ∀ j, j ≠ i → (x.poller.removeAt i).slots j = x.poller.slots j :=
    fun j other => if_neg other
  refine ⟨?_, ?_, ?_, ?_, ?_, h.distinct.removeAt low⟩
  · show x.poller.freeIdx - 1 = if s.clientCount = 0 then 1 else s.clientCount + 2
    rw [if_neg (by omega)]
    omega
  · show x.poller.freeIdx - 1 ≤ x.poller.count
    omega
  · rw [stay 0 (Ne.symm zero)]
    exact h.listen
  · intro _
    rw [stay 2 (Ne.symm two)]
    exact h.mcast clients
  · intro j small zero' two'
    have small : j < x.poller.freeIdx - 1 := small
    -- the socket that is now in slot `j` was in slot `k`
    obtain ⟨k, lowk, ne, slot, ne0, ne2⟩ : ∃ k, k < x.poller.freeIdx ∧ k ≠ i ∧
        (x.poller.removeAt i).slots j = x.poller.slots k ∧ k ≠ 0 ∧ k ≠ 2 := by
      by_cases same : j = i
      · exact ⟨x.poller.freeIdx - 1, by omega, by omega, if_pos same, by omega, by omega⟩
      · exact ⟨j, by omega, same, if_neg same, zero', two'⟩
    obtain ⟨d, sock', isOpen, here⟩ := h.client k lowk ne0 ne2
    have other : d ≠ c := by
      rintro rfl
      exact ne (h.distinct k i lowk low (sock'.trans sock.symm))
    refine ⟨d, ?_, ?_, held d other here⟩
    · rw [slot]
      exact sock'
    · exact (if_neg other).trans isOpen

/-- The last client is gone, and the multicast socket with it. -/
theorem emptied (h : x.Layout) {i c : Nat} (low : i < x.poller.freeIdx)
    (sock : (x.poller.slots i).sock = .client c) (one : x.sndr.clientCount = 1) {s : Sender g}
    (count : s.clientCount = 0) (isOpen : Nat → Bool) :
    i = 1 ∧ ((x.poller.removeAt i).slots 1).sock = .mcast ∧ (x.poller.removeAt i).Distinct ∧
    (x.poller.removeAt i).freeIdx = 2 ∧
    ({ sndr := s, poller := (x.poller.removeAt i).removeAt 1, isOpen := isOpen } : Service g).Layout := by
  obtain ⟨zero, two, clients⟩ := h.slot_ne low sock
  have size := h.size
  rw [one, if_neg (by decide)] at size
  have room := h.room
  have index : i = 1 := by omega
  subst index
  have third : (x.poller.removeAt 1).slots 1 = x.poller.slots 2 := by
    simp [Poller.removeAt, size]
  have count' : (x.poller.removeAt 1).freeIdx = 2 := by
    show x.poller.freeIdx - 1 = 2
    omega
  refine ⟨rfl, ?_, h.distinct.removeAt low, count', ?_, ?_, ?_, ?_, ?_, ?_⟩
  · rw [third]
    exact h.mcast clients
  · show x.poller.freeIdx - 1 - 1 = if s.clientCount = 0 then 1 else s.clientCount + 2
    rw [if_pos count]
    omega
  · show x.poller.freeIdx - 1 - 1 ≤ x.poller.count
    omega
  · have same : ((x.poller.removeAt 1).removeAt 1).slots 0 = x.poller.slots 0 := by
      simp [Poller.removeAt]
    rw [same]
    exact h.listen
  · intro clients
    have : 0 < s.clientCount := clients
    omega
  · intro j small zero'
    have : j < x.poller.freeIdx - 1 - 1 := small
    omega
  · exact (h.distinct.removeAt low).removeAt (by omega)

/-- A socket that is not open is not in the poller. -/
theorem not_has (h : x.Layout) {c : Nat} (new : x.isOpen c = false) :
    ¬ x.poller.Has (.client c) := by
  rintro ⟨i, low, sock⟩
  obtain ⟨zero, two, _⟩ := h.slot_ne low sock
  obtain ⟨d, sock', isOpen, _⟩ := h.client i low zero two
  rw [sock] at sock'
  cases sock'
  rw [new] at isOpen
  cases isOpen

/-- The client that comes last gets the last slot. -/
theorem joined (h : x.Layout) {c : Nat} (new : x.isOpen c = false)
    (clients : x.sndr.clientCount ≠ 0)
    {s : Sender g} (count : s.clientCount = x.sndr.clientCount + 1) (here : (s.clients c).isSome)
    (held : ∀ d, d ≠ c → s.clients d = x.sndr.clients d) :
    ({ sndr := s, poller := x.poller.append (.client c),
       isOpen := fun d => if d = c then true else x.isOpen d } : Service g).Layout := by
  have size := h.size
  rw [if_neg clients] at size
  refine ⟨?_, Poller.append_room h.room (by omega), ?_, ?_, ?_, h.distinct.append (h.not_has new)⟩
  · show x.poller.freeIdx + 1 = if s.clientCount = 0 then 1 else s.clientCount + 2
    rw [if_neg (by omega)]
    omega
  · rw [Poller.append_lt _ (by omega)]
    exact h.listen
  · intro _
    rw [Poller.append_lt _ (by omega)]
    exact h.mcast (by omega)
  · intro i low zero two
    have low : i < x.poller.freeIdx + 1 := low
    rcases Nat.lt_succ_iff_lt_or_eq.mp low with low | rfl
    · obtain ⟨d, sock, isOpen, there⟩ := h.client i low zero two
      have other : d ≠ c := by
        rintro rfl
        rw [new] at isOpen
        cases isOpen
      refine ⟨d, ?_, (if_neg other).trans isOpen, ?_⟩
      · rw [Poller.append_lt _ low]
        exact sock
      · rw [held d other]
        exact there
    · refine ⟨c, ?_, if_pos rfl, here⟩
      rw [Poller.append_last]

/-- The first client gets the second slot and is followed by the multicast socket. -/
theorem joined_first (h : x.Layout) {c : Nat} (nobody : x.sndr.clientCount = 0) {s : Sender g}
    (count : s.clientCount = 1) (here : (s.clients c).isSome) :
    ({ sndr := s, poller := (x.poller.append (.client c)).append .mcast,
       isOpen := fun d => if d = c then true else x.isOpen d } : Service g).Layout := by
  have size := h.size
  rw [if_pos nobody] at size
  have room : (x.poller.append (.client c)).freeIdx ≤ (x.poller.append (.client c)).count :=
    Poller.append_room h.room (by omega)
  have first : (x.poller.append (.client c)).freeIdx = 2 := by
    show x.poller.freeIdx + 1 = 2
    omega
  have zero : ((x.poller.append (.client c)).append .mcast).slots 0 = x.poller.slots 0 := by
    rw [Poller.append_lt _ (by omega), Poller.append_lt _ (by omega)]
  have one : ((x.poller.append (.client c)).append .mcast).slots 1 = ⟨.client c, none⟩ := by
    rw [Poller.append_lt _ (by omega)]
    have last := x.poller.append_last (.client c)
    rw [size] at last
    exact last
  have two : ((x.poller.append (.client c)).append .mcast).slots 2 = ⟨.mcast, none⟩ := by
    have last := (x.poller.append (.client c)).append_last .mcast
    rw [first] at last
    exact last
  have total : ((x.poller.append (.client c)).append .mcast).freeIdx = 3 := by
    show (x.poller.append (.client c)).freeIdx + 1 = 3
    omega
  refine ⟨?_, Poller.append_room room (by omega), ?_, fun _ => ?_, ?_, ?_⟩
  · show ((x.poller.append (.client c)).append .mcast).freeIdx =
      if s.clientCount = 0 then 1 else s.clientCount + 2
    rw [if_neg (by omega)]
    omega
  · rw [zero]
    exact h.listen
  · rw [two]
  · intro i low ne0 ne2
    have low : i < ((x.poller.append (.client c)).append .mcast).freeIdx := low
    obtain rfl : i = 1 := by omega
    refine ⟨c, ?_, if_pos rfl, here⟩
    rw [one]
  · intro i j hi hj same
    have hi : i < ((x.poller.append (.client c)).append .mcast).freeIdx := hi
    have hj : j < ((x.poller.append (.client c)).append .mcast).freeIdx := hj
    have three : ∀ k, k < 3 → k = 0 ∨ k = 1 ∨ k = 2 := by omega
    have listen := h.listen
    rcases three i (by omega) with rfl | rfl | rfl <;>
      rcases three j (by omega) with rfl | rfl | rfl <;>
      simp_all

end Layout

/-! ## Handlers -/

theorem eventFunc_cases {sock : Sock} {rev : Revents} {given : Given g} {st : Int}
    (h : eventFunc sock rev given x = some (st, y)) :
    ∃ (r : Turn g) (z : Service g), (x.sndr.handle (event sock rev given)).Ends given.trace r ∧
      x.libCalls (libs given.trace) = some z ∧ st = r.status ∧ y = { z with sndr := r.sndr } := by
  obtain ⟨r, ran, more⟩ := Option.bind_eq_some_iff.mp h
  obtain ⟨z, calls, eq⟩ := Option.map_eq_some_iff.mp more
  cases eq
  exact ⟨r, z, Task.ends_of_result ran, calls, rfl, rfl⟩

/-- What the handler of slot `i` leaves: the layout, and the slots below. -/
def Leaves (i : Nat) (x y : Service g) : Prop :=
  y.Layout ∧ i ≤ y.poller.freeIdx ∧ ∀ j < i, y.poller.slots j = x.poller.slots j

/-- A client's socket is closed. -/
theorem closes_leaves (h : x.Layout) {i c : Nat} (low : i < x.poller.freeIdx)
    (sock : (x.poller.slots i).sock = .client c) {s : Sender g}
    (tended : Tended c x.sndr s) {z : Service g}
    (calls : x.libCalls ((s.closes c).map fun f => (f, .ok ())) = some z) :
    Leaves i x { z with sndr := { s.dropClient c with clientCount := s.clientCount - 1 } } := by
  obtain ⟨zero, two, clients⟩ := h.slot_ne low sock
  have size := h.size
  rw [if_neg (by omega)] at size
  have count := tended.count
  have removed : x.poller.pollerRemove (.client c) = .ok (x.poller.removeAt i) := by
    rw [← sock]
    exact Poller.pollerRemove_at h.distinct low
  have below : ∀ j < i, (x.poller.removeAt i).slots j = x.poller.slots j :=
    fun j small => if_neg (Nat.ne_of_lt small)
  have held : ∀ d, d ≠ c → (x.sndr.clients d).isSome → ((s.dropClient c).clients d).isSome := by
    intro d other here
    have same : (s.dropClient c).clients d = s.clients d := if_neg other
    rw [same, tended.clients d other]
    exact here
  unfold closes at calls
  by_cases one : x.sndr.clientCount = 1
  · rw [if_pos (by omega)] at calls
    obtain ⟨rfl, mcast, distinct, total, layout⟩ := h.emptied low sock one
      (s := { s.dropClient c with clientCount := s.clientCount - 1 })
      (show s.clientCount - 1 = 0 by omega) (fun d => if d = c then false else x.isOpen d)
    have removed' : (x.poller.removeAt 1).pollerRemove .mcast =
        .ok ((x.poller.removeAt 1).removeAt 1) := by
      rw [← mcast]
      exact Poller.pollerRemove_at distinct (by omega)
    simp only [List.cons_append, List.nil_append, List.map_cons, List.map_nil, libCalls, libCall,
      adopt, removed, removed', Option.bind_some, Option.some.injEq] at calls
    subst calls
    refine ⟨layout, ?_, ?_⟩
    · show 1 ≤ x.poller.freeIdx - 1 - 1
      omega
    · intro j small
      obtain rfl : j = 0 := by omega
      simp [Poller.removeAt]
  · rw [if_neg (by omega)] at calls
    simp only [List.append_nil, List.map_cons, List.map_nil, libCalls, libCall,
      adopt, removed, Option.bind_some, Option.some.injEq] at calls
    subst calls
    refine ⟨h.closed low sock one (show s.clientCount - 1 = _ by omega) held, ?_, below⟩
    show i ≤ x.poller.freeIdx - 1
    omega

/-- A connection is accepted. -/
theorem opens_leaves (h : x.Layout) {c : Nat} {s : Sender g}
    (count : s.clientCount = x.sndr.clientCount + 1) (here : (s.clients c).isSome)
    (held : ∀ d, d ≠ c → s.clients d = x.sndr.clients d) {z : Service g}
    (calls : x.libCalls ((x.sndr.opens c).map fun f => (f, .ok ())) = some z) :
    Leaves 0 x { z with sndr := s } := by
  refine ⟨?_, Nat.zero_le _, nofun⟩
  unfold opens at calls
  cases new : x.isOpen c with
  | true =>
    simp [libCalls, libCall, new] at calls
  | false =>
    by_cases nobody : x.sndr.clientCount = 0
    · rw [if_pos nobody] at calls
      simp only [List.cons_append, List.nil_append, List.map_cons, List.map_nil,
        libCalls, libCall, new, adopt, Except.isOk, Except.toBool, Poller.pollerAdd_true,
        Option.bind_some, Bool.false_eq_true, ↓reduceIte, Option.some.injEq] at calls
      subst calls
      exact h.joined_first nobody (by omega) here
    · rw [if_neg nobody] at calls
      simp only [List.append_nil, List.map_cons, List.map_nil,
        libCalls, libCall, new, adopt, Except.isOk, Except.toBool, Poller.pollerAdd_true,
        Option.bind_some, Bool.false_eq_true, ↓reduceIte, Option.some.injEq] at calls
      subst calls
      exact h.joined new nobody count here held

/-- A handler of the sender that does not fail leaves the layout and the slots below its own. -/
theorem sweepable : Sweepable poller eventFunc (Layout : Service g → Prop) := by
  intro i x y rev given st h low _ ran fine
  obtain ⟨r, z, ends, calls, rfl, rfl⟩ := eventFunc_cases ran
  show Leaves i x _
  by_cases zero : i = 0
  · subst zero
    rw [h.listen] at ends
    obtain ⟨⟨st, s⟩, tr, rest, eq, accepts, done⟩ := Task.ends_bind.mp ends
    obtain ⟨rfl, rfl⟩ := Task.ends_done.mp done
    rw [List.append_nil] at eq
    subst eq
    obtain ⟨opened, count, here, held⟩ := tcpOnAccept_fine accepts fine
    rw [opened] at calls
    exact opens_leaves h count here held calls
  by_cases two : i = 2
  · subst two
    have clients : 0 < x.sndr.clientCount := by
      have size := h.size
      split at size <;> omega
    rw [h.mcast clients] at ends
    obtain ⟨⟨st, s⟩, tr, rest, eq, writes, done⟩ := Task.ends_bind.mp ends
    obtain ⟨rfl, rfl⟩ := Task.ends_done.mp done
    rw [List.append_nil] at eq
    subst eq
    obtain ⟨quiet, same⟩ := mcastOnWrite_meets _ _ writes
    rw [libs_of_noLib quiet] at calls
    cases calls
    refine ⟨h.served same.2 fun c here => ?_, le_of_lt low, fun _ _ => rfl⟩
    show (s.clients c).isSome
    rw [same.1]
    exact here
  · obtain ⟨c, sock, _, held⟩ := h.client i low zero two
    rw [sock] at ends
    obtain ⟨⟨st, s⟩, tr, rest, eq, handles, done⟩ := Task.ends_bind.mp ends
    obtain ⟨rfl, rfl⟩ := Task.ends_done.mp done
    rw [List.append_nil] at eq
    subst eq
    rcases clientEvent_cases held handles with
      ⟨own, tended, here, _⟩ | ⟨s₁, first, last, eq, own, tended, hup⟩
    · rw [libs_of_onClient own] at calls
      cases calls
      refine ⟨h.served tended.count fun d there => ?_, le_of_lt low, fun _ _ => rfl⟩
      by_cases same : d = c
      · subst same
        exact here
      · show (s.clients d).isSome
        rw [tended.clients d same]
        exact there
    · obtain ⟨closed, rfl⟩ := tcpOnHup_fine hup fine
      rw [eq, libs_append, libs_of_onClient own, closed] at calls
      exact closes_leaves h low sock tended calls

/-! ## Whole rounds -/

/-- A round without a failure keeps the layout, and calls the handlers of the sockets that
are ready. -/
theorem round_sweeps (h : x.Layout) {ready : Nat → Option Revents} {givens : List (Given g)}
    {st : Int} {looks : List (Look Sock (Service g))}
    (ran : x.round ready givens = some (st, looks, y)) (fine : ¬ Status.Failed st) :
    y.Layout ∧ dispatched looks = (x.poller.pollerEvents ready).readyBelow x.poller.freeIdx ∧
    ∀ look ∈ looks, look.before.Layout ∧ look.index < look.before.poller.freeIdx ∧
      ∀ sock ∈ look.sock, (look.before.poller.slots look.index).sock = sock :=
  pollerProcessEvents_sweeps sweepable (h.polled ready) (le_refl _) ran fine

theorem Serves.layout (serves : Serves x y) (h : x.Layout) : y.Layout := by
  induction serves with
  | start => exact h
  | round _ ran fine ih => exact (round_sweeps ih ran fine).1

namespace Layout

theorem has_mcast_iff (h : x.Layout) : x.poller.Has .mcast ↔ 0 < x.sndr.clientCount := by
  have size := h.size
  constructor
  · rintro ⟨i, low, sock⟩
    by_contra nobody
    rw [if_pos (by omega)] at size
    obtain rfl : i = 0 := by omega
    rw [h.listen] at sock
    cases sock
  · intro clients
    rw [if_neg (by omega)] at size
    exact ⟨2, by omega, h.mcast clients⟩

theorem isClient_iff (h : x.Layout) {i : Nat} (low : i < x.poller.freeIdx) :
    (x.poller.slots i).sock.isClient = true ↔ i ≠ 0 ∧ i ≠ 2 := by
  constructor
  · intro client
    cases sock : (x.poller.slots i).sock with
    | client c =>
      obtain ⟨zero, two, _⟩ := h.slot_ne low sock
      exact ⟨zero, two⟩
    | listen =>
      rw [sock] at client
      cases client
    | mcast =>
      rw [sock] at client
      cases client
  · rintro ⟨zero, two⟩
    obtain ⟨c, sock, _⟩ := h.client i low zero two
    rw [sock]
    rfl

/-- There are `n + 1` indices below `n + 3` besides 0 and 2. -/
theorem countP_range (p : Nat → Bool) (n : Nat) (h : ∀ i < n + 3, p i = true ↔ i ≠ 0 ∧ i ≠ 2) :
    (List.range (n + 3)).countP p = n + 1 := by
  induction n with
  | zero =>
    have zero : p 0 = false := by simpa using h 0
    have one : p 1 = true := by simpa using h 1
    have two : p 2 = false := by simpa using h 2
    simp [List.range_succ, zero, one, two]
  | succ n ih =>
    have last : p (n + 3) = true := (h (n + 3) (by omega)).mpr ⟨by omega, by omega⟩
    rw [List.range_succ, List.countP_append, ih fun i low => h i (by omega)]
    simp [last]

theorem clientSocks_eq (h : x.Layout) : x.clientSocks = x.sndr.clientCount := by
  have size := h.size
  unfold clientSocks
  cases count : x.sndr.clientCount with
  | zero =>
    rw [if_pos count] at size
    have listen : (x.poller.slots 0).sock.isClient = false := by
      rw [h.listen]
      rfl
    rw [size]
    simp [listen]
  | succ n =>
    rw [if_neg (by omega), count] at size
    have size' : x.poller.freeIdx = n + 3 := size
    rw [size']
    apply countP_range (fun i => (x.poller.slots i).sock.isClient) n
    intro i low
    exact h.isClient_iff (by omega)

theorem isOpen (h : x.Layout) {sock : Sock} (has : x.poller.Has sock) : x.Open sock := by
  obtain ⟨i, low, eq⟩ := has
  cases sock with
  | client c =>
    obtain ⟨zero, two, _⟩ := h.slot_ne low eq
    obtain ⟨d, eq', isOpen, _⟩ := h.client i low zero two
    rw [eq] at eq'
    cases eq'
    exact isOpen
  | listen => trivial
  | mcast => trivial

end Layout

end Service

open Service

/-- In every run of the sender: between rounds the multicast socket is polled exactly if
there are clients, and these are counted. A round in which no handler fails calls the
handler of every socket that was ready at its start, once, and of no other. Each of them is
in the poller and open when its handler is called, and only slots in use are looked at. -/
theorem dispatch_safe {mtu : Nat} {buf : List UInt8} {ignoreOverrun : Bool}
    {heartbeatUsec maxPktAgeUsec now : Int} {junk : Nat → Slot Sock Revents} {x : Service g}
    (serves : Serves (.start (.init mtu buf ignoreOverrun heartbeatUsec maxPktAgeUsec now) junk) x) :
    (x.poller.Has .mcast ↔ 0 < x.sndr.clientCount) ∧ x.sndr.clientCount = x.clientSocks ∧
    ∀ {ready : Nat → Option Revents} {givens : List (Given g)} {st : Int}
      {looks : List (Look Sock (Service g))} {y : Service g},
      x.round ready givens = some (st, looks, y) → ¬ Status.Failed st →
      (dispatched looks).Nodup ∧
      (∀ sock, sock ∈ dispatched looks ↔
        ∃ i, i < x.poller.freeIdx ∧ (x.poller.slots i).sock = sock ∧ (ready i).isSome) ∧
      ∀ look ∈ looks, look.index < look.before.poller.freeIdx ∧
        ∀ sock ∈ look.sock, look.before.poller.Has sock ∧ look.before.Open sock := by
  have layout := serves.layout (.start _ rfl junk)
  refine ⟨layout.has_mcast_iff, layout.clientSocks_eq.symm, ?_⟩
  intro ready givens st looks y ran fine
  obtain ⟨_, eq, all⟩ := round_sweeps layout ran fine
  rw [eq]
  refine ⟨?_, ?_, ?_⟩
  · exact Poller.nodup_readyBelow (layout.polled ready).distinct (le_refl _)
  · intro sock
    rw [Poller.mem_readyBelow]
    have slot : ∀ i, i < x.poller.freeIdx →
        (x.poller.pollerEvents ready).slots i = ⟨(x.poller.slots i).sock, ready i⟩ :=
      fun i low => if_pos low
    constructor
    · rintro ⟨i, low, same, here⟩
      rw [slot i low] at same here
      exact ⟨i, low, same, here⟩
    · rintro ⟨i, low, same, here⟩
      refine ⟨i, low, ?_, ?_⟩
      · rw [slot i low]
        exact same
      · rw [slot i low]
        exact here
  · intro look here
    obtain ⟨layout', low, socks⟩ := all look here
    refine ⟨low, fun sock named => ?_⟩
    have has : look.before.poller.Has sock := ⟨look.index, low, socks sock named⟩
    exact ⟨has, layout'.isOpen has⟩

def smallJoins : Given small where
  conn := 0
  inBuf := List.replicate 16 0
  outBuf := List.replicate 17 0
  trace :=
    [⟨.lib (.sockAccept 0), .ok ()⟩, ⟨.lib (.sockSetTcpNodelay 0), .ok ()⟩,
     ⟨.lib .signalAddHandler, .ok ()⟩, ⟨.lib (.writeHello 0), .ok ()⟩,
     ⟨.lib .signalRemoveHandler, .ok ()⟩, ⟨.lib .xmalloc, .ok ()⟩, ⟨.lib .xmalloc, .ok ()⟩,
     ⟨.lib .xmalloc, .ok ()⟩, ⟨.clockTime, .ok 1⟩, ⟨.lib (.sockSetNonblock 0), .ok ()⟩,
     ⟨.lib (.pollerAdd 0), .ok ()⟩, ⟨.lib .pollerAddMcast, .ok ()⟩, ⟨.clockTime, .ok 1⟩,
     ⟨.storageGetQueueHead, (0 : Nat)⟩]

/-- The multicast socket has nothing to send, and client 0 has hung up. -/
def smallLeaves : List (Given small) :=
  [⟨0, [], [], [⟨.storageGetQueueHead, (0 : Nat)⟩, ⟨.clockTime, .ok 2⟩]⟩,
   ⟨0, [], [], [⟨.lib (.pollerRemove 0), .ok ()⟩, ⟨.lib (.sockDestroy 0), .ok ()⟩,
     ⟨.lib .pollerRemoveMcast, .ok ()⟩]⟩]

def smallStart : Service small := .start smallSender fun _ => ⟨.listen, none⟩

def smallCalling : Nat → Option Revents :=
    fun i => if i = 0 then some ⟨false, true, false⟩ else none

/-- All sockets but the listening one are ready. -/
def smallBusy : Nat → Option Revents := fun i => if i = 0 then none else some ⟨true, false, true⟩

def smallJoined : Service small :=
  ((smallStart.round smallCalling [smallJoins]).map fun r => r.2.2).getD smallStart

/-- After a first round with client 0, the last round takes it and the multicast socket away. -/
theorem dispatch_safe_small : ∃ x : Service small, Serves smallStart x ∧ x.poller.Has .mcast ∧
    x.sndr.clientCount = x.clientSocks ∧ ∃ st looks y,
      x.round smallBusy smallLeaves = some (st, looks, y) ∧ dispatched looks = [.mcast, .client 0] ∧
      (dispatched looks).Nodup ∧ ¬ y.poller.Has .mcast := by
  have first : smallStart.round smallCalling [smallJoins] = some (_, _, smallJoined) := rfl
  have serves : Serves smallStart smallJoined := .round .start first (by decide)
  obtain ⟨mcast, count, rounds⟩ := dispatch_safe serves
  refine ⟨smallJoined, serves, mcast.mpr (by decide), count, ?_⟩
  have second : smallJoined.round smallBusy smallLeaves = some (_, _, _) := rfl
  obtain ⟨once, _⟩ := rounds second (by decide)
  obtain ⟨gone, _⟩ := dispatch_safe (.round serves second (by decide))
  refine ⟨_, _, _, second, rfl, once, ?_⟩
  rw [gone]
  decide

end Lancaster
