import Lancaster.QueueScan

/-!
# What the handling of one client leaves alone

The handlers of a client's socket work on that client's record and on the sender's
statistics. Whatever goes wrong with the connection, the other clients, the staged packet
and what the sender remembers of its records stay as they are.
-/

namespace Lancaster

open Interleaving Sender

variable {g : Geometry}

/-- Nothing has changed outside client `c` but counters and times. -/
structure Apart (c : Nat) (s s' : Sender g) : Prop where
  clients : ∀ i, i ≠ c → s'.clients i = s.clients i
  revs : s'.recordRevs = s.recordRevs
  seqs : s'.recordSeqs = s.recordSeqs
  next : s'.nextSeq = s.nextSeq
  buf : s'.pktBuf = s.pktBuf
  fill : s'.pktNext = s.pktNext
  mtu : s'.mcastMtu = s.mcastMtu

namespace Apart

variable {c : Nat} {s s' s'' : Sender g}

theorem refl (c : Nat) (s : Sender g) : Apart c s s :=
  ⟨fun _ _ => rfl, rfl, rfl, rfl, rfl, rfl, rfl⟩

theorem trans (h : Apart c s s') (h' : Apart c s' s'') : Apart c s s'' :=
  ⟨fun i other => (h'.clients i other).trans (h.clients i other), h'.revs.trans h.revs,
    h'.seqs.trans h.seqs, h'.next.trans h.next, h'.buf.trans h.buf, h'.fill.trans h.fill,
    h'.mtu.trans h.mtu⟩

theorem setClient (h : Apart c s s') (clnt : TcpClient) : Apart c s (s'.setClient c clnt) := by
  refine ⟨fun i other => ?_, h.revs, h.seqs, h.next, h.buf, h.fill, h.mtu⟩
  rw [Sender.setClient]
  exact (if_neg other).trans (h.clients i other)

theorem dropClient (h : Apart c s s') : Apart c s (s'.dropClient c) := by
  refine ⟨fun i other => ?_, h.revs, h.seqs, h.next, h.buf, h.fill, h.mtu⟩
  rw [Sender.dropClient]
  exact (if_neg other).trans (h.clients i other)

end Apart

/-- Client `c` is served: no client has come or gone. -/
structure Tended (c : Nat) (s s' : Sender g) : Prop extends Apart c s s' where
  count : s'.clientCount = s.clientCount

namespace Tended

variable {c : Nat} {s s' s'' : Sender g}

theorem refl (c : Nat) (s : Sender g) : Tended c s s := ⟨.refl c s, rfl⟩

theorem trans (h : Tended c s s') (h' : Tended c s' s'') : Tended c s s'' :=
  ⟨h.toApart.trans h'.toApart, h'.count.trans h.count⟩

theorem setClient (h : Tended c s s') (clnt : TcpClient) :
    Tended c s (s'.setClient c clnt) ∧ ((s'.setClient c clnt).clients c).isSome := by
  refine ⟨⟨h.toApart.setClient clnt, h.count⟩, ?_⟩
  rw [Sender.setClient]
  simp

end Tended

/-- A call on behalf of a connected client: no library call and nothing of the multicast
socket or the queue. -/
def OnClient : (c : Call) × c.Ans g → Prop
  | ⟨.clockTime, _⟩ => True
  | ⟨.lockStats, _⟩ => True
  | ⟨.recordCopy _, _⟩ => True
  | ⟨.sockRead _ _, _⟩ => True
  | ⟨.sockWrite _ _, _⟩ => True
  | _ => False

namespace Sender

variable {s : Sender g} {c : Nat}

open Task

theorem tcpReadBuf_meets (fuel : Nat) (st : Int) (clnt : TcpClient) :
    Meets OnClient (fun _ => True) (tcpReadBuf s c fuel st clnt) := by
  induction fuel generalizing st clnt with
  | zero => exact meets_done trivial
  | succ fuel ih =>
    unfold tcpReadBuf
    split
    · exact meets_done trivial
    · refine meets_call (fun _ => trivial) fun a => ?_
      cases a with
      | error e => exact meets_done trivial
      | ok data => exact ih _ _

theorem tcpWriteLoop_meets (fuel : Nat) (st : Int) (sentSz : Nat) (clnt : TcpClient) :
    Meets OnClient (fun _ => True) (tcpWriteLoop s c fuel st sentSz clnt) := by
  induction fuel generalizing st sentSz clnt with
  | zero => exact meets_done trivial
  | succ fuel ih =>
    unfold tcpWriteLoop
    split
    · exact meets_done trivial
    · refine meets_call (fun _ => trivial) fun a => ?_
      cases a with
      | error e => exact meets_done trivial
      | ok count => exact ih _ _ _

theorem tcpWriteBuf_meets (clnt : TcpClient) :
    Meets OnClient (fun r => Tended c s r.2.1) (tcpWriteBuf s c clnt) := by
  refine meets_bind (tcpWriteLoop_meets _ _ _ _) ?_
  rintro ⟨st, sentSz, clnt⟩ _
  dsimp only
  split
  · refine meets_call (fun _ => trivial) fun a => ?_
    cases a with
    | error e => exact meets_done (.refl c s)
    | ok now =>
      refine meets_call (fun _ => trivial) fun a => ?_
      cases a with
      | error e => exact meets_done (.refl c s)
      | ok _ => exact meets_done ⟨⟨fun _ _ => rfl, rfl, rfl, rfl, rfl, rfl, rfl⟩, rfl⟩
  · exact meets_done (.refl c s)

theorem tcpScanRecords_meets (n : Nat) (st : Int) (clnt : TcpClient) :
    Meets OnClient (fun r => Tended c s r.2 ∧
      (r.2.clients c).isSome) (tcpScanRecords s c n st clnt) := by
  induction n generalizing st clnt with
  | zero =>
    have tended : Tended c s { s with minSeq := clnt.minSeqFound } :=
      ⟨⟨fun _ _ => rfl, rfl, rfl, rfl, rfl, rfl, rfl⟩, rfl⟩
    exact meets_done (tended.setClient _)
  | succ n ih =>
    unfold tcpScanRecords
    dsimp only
    split
    · split
      · refine meets_call (fun _ => trivial) fun a => ?_
        cases a with
        | error e => exact meets_done ((Tended.refl c s).setClient _)
        | ok r =>
          dsimp only
          split
          · exact ih _ _
          · exact meets_done ((Tended.refl c s).setClient _)
      · exact meets_done ((Tended.refl c s).setClient _)
    · exact ih _ _

theorem tcpOnWrite_meets (clnt : TcpClient) :
    Meets OnClient (fun r => Tended c s r.2 ∧ (r.2.clients c).isSome) (tcpOnWrite s c clnt) := by
  refine meets_bind (tcpWriteBuf_meets clnt) ?_
  rintro ⟨st, s', clnt⟩ tended
  dsimp only at tended ⊢
  split
  · exact meets_done (tended.setClient _)
  · split
    · split
      · intro tr r ends
        obtain ⟨all, tended', held⟩ := tcpScanRecords_meets _ _ _ tr r ends
        exact ⟨all, tended.trans tended', held⟩
      · refine meets_call (fun _ => trivial) fun a => ?_
        cases a with
        | error e => exact meets_done (tended.setClient _)
        | ok now =>
          dsimp only
          split <;> exact meets_done (tended.setClient _)
    · exact meets_done (tended.setClient _)

theorem tcpOnRead_meets (clnt : TcpClient) :
    Meets OnClient (fun r => Tended c s r.2 ∧ (r.2.clients c).isSome) (tcpOnRead s c clnt) := by
  refine meets_bind (tcpReadBuf_meets _ _ _) ?_
  rintro ⟨st, clnt⟩ _
  have tended := Tended.refl c s
  dsimp only
  split
  · exact meets_done (tended.setClient _)
  · split
    · split
      · refine meets_call (fun _ => trivial) fun a => ?_
        cases a with
        | error e => exact meets_done (tended.setClient _)
        | ok _ =>
          have counted : Tended c s { s with nextStats := { s.nextStats with
              tcpGapCount := s.nextStats.tcpGapCount + 1 } } :=
            ⟨⟨fun _ _ => rfl, rfl, rfl, rfl, rfl, rfl, rfl⟩, rfl⟩
          exact meets_done (counted.setClient _)
      · exact meets_done (tended.setClient _)
    · exact meets_done (tended.setClient _)

theorem clientRead_meets (clnt : TcpClient) (pollin : Bool) :
    Meets OnClient (fun r => Tended c s r.2 ∧
      (r.2.clients c).isSome) (clientRead s c clnt pollin) := by
  unfold clientRead
  split
  · exact tcpOnRead_meets clnt
  · exact meets_done ((Tended.refl c s).setClient _)

theorem clientWrite_meets (st : Int) (pollout : Bool) (held : (s.clients c).isSome) :
    Meets OnClient (fun r => Tended c s r.2 ∧
      (r.2.clients c).isSome) (clientWrite s c st pollout) := by
  unfold clientWrite
  split
  · exact meets_done ⟨.refl c s, held⟩
  · split
    · exact tcpOnWrite_meets _
    · exact meets_done ⟨.refl c s, held⟩

end Sender

/-! ## Failures -/

def Fails (tr : Trace g) : Prop := ∃ r ∈ tr, (failure r).isSome

theorem fails_append {as bs : Trace g} : Fails (as ++ bs) ↔ Fails as ∨ Fails bs := by
  simp only [Fails, List.mem_append]
  constructor
  · rintro ⟨r, here | here, bad⟩
    · exact Or.inl ⟨r, here, bad⟩
    · exact Or.inr ⟨r, here, bad⟩
  · rintro (⟨r, here, bad⟩ | ⟨r, here, bad⟩)
    · exact ⟨r, Or.inl here, bad⟩
    · exact ⟨r, Or.inr here, bad⟩

theorem fails_cons {r : (c : Call) × c.Ans g} {tr : Trace g} :
    Fails (r :: tr) ↔ (failure r).isSome ∨ Fails tr := by
  simp [Fails]

theorem not_fails_nil : ¬ Fails ([] : Trace g) := by
  simp [Fails]

def libs (tr : Trace g) : List (LibCall × Except Failure Unit) :=
  tr.filterMap fun
    | ⟨.lib f, a⟩ => some (f, a)
    | _ => none

theorem libs_append (as bs : Trace g) : libs (as ++ bs) = libs as ++ libs bs := by
  simp [libs]

theorem libs_of_onClient {tr : Trace g} (h : ∀ r ∈ tr, OnClient r) : libs tr = [] := by
  rw [libs, List.filterMap_eq_nil_iff]
  rintro ⟨c, a⟩ here
  have own := h _ here
  cases c with
  | lib f => exact absurd own id
  | _ => rfl

def AllLib (tr : Trace g) : Prop := ∀ r ∈ tr, ∃ f, r.1 = .lib f

namespace Sender

variable {s s' : Sender g} {c : Nat} {tr : Trace g} {st : Int}

/-- A sequence of library calls fails exactly with one of them. -/
theorem libCalls_ends {fs : List LibCall} (h : (libCalls s fs).Ends tr st) :
    AllLib tr ∧ (Status.Failed st ↔ Fails tr) := by
  induction fs generalizing tr with
  | nil =>
    obtain ⟨rfl, rfl⟩ := Task.ends_done.mp h
    exact ⟨nofun, iff_of_false (by decide) not_fails_nil⟩
  | cons f rest ih =>
    obtain ⟨a, later, rfl, more⟩ := Task.ends_call.mp h
    cases a with
    | error e =>
      obtain ⟨rfl, rfl⟩ := Task.ends_done.mp more
      refine ⟨?_, iff_of_true e.2 ⟨_, List.mem_cons_self .., rfl⟩⟩
      intro r here
      obtain rfl := List.mem_singleton.mp here
      exact ⟨f, rfl⟩
    | ok _ =>
      obtain ⟨all, iff⟩ := ih more
      refine ⟨?_, ?_⟩
      · intro r here
        rcases List.mem_cons.mp here with rfl | here
        · exact ⟨f, rfl⟩
        · exact all r here
      · rw [iff, fails_cons]
        simp [failure]

/-- Closing a client's socket fails exactly with one of its library calls. -/
theorem tcpOnHup_ends (h : (tcpOnHup s c).Ends tr (st, s')) :
    Apart c s s' ∧ AllLib tr ∧ (Status.Failed st ↔ Fails tr) := by
  have apart := (Apart.refl c s).dropClient
  unfold tcpOnHup at h
  obtain ⟨st₁, closing, rest, rfl, closes, more⟩ := Task.ends_bind.mp h
  obtain ⟨all, iff⟩ := libCalls_ends closes
  dsimp only at more
  split at more
  · rename_i failed
    obtain ⟨rfl, rfl, rfl⟩ := Task.ends_done_pair.mp more
    rw [List.append_nil]
    exact ⟨apart, all, iff⟩
  · rename_i fine
    have counted : Apart c s { s.dropClient c with clientCount := (s.dropClient c).clientCount - 1 } :=
      ⟨apart.clients, apart.revs, apart.seqs, apart.next, apart.buf, apart.fill, apart.mtu⟩
    split at more
    · obtain ⟨st₂, removing, rest, rfl, removes, last⟩ := Task.ends_bind.mp more
      obtain ⟨rfl, rfl, rfl⟩ := Task.ends_done_pair.mp last
      obtain ⟨all', iff'⟩ := libCalls_ends removes
      rw [List.append_nil]
      refine ⟨counted, ?_, ?_⟩
      · intro r here
        exact (List.mem_append.mp here).elim (all r) (all' r)
      · rw [iff', fails_append, or_iff_right fun bad => fine (iff.mpr bad)]
    · obtain ⟨rfl, rfl, rfl⟩ := Task.ends_done_pair.mp more
      rw [List.append_nil]
      exact ⟨counted, all, iff⟩

theorem attempts_eq_nil (h : ∀ r ∈ tr, ∀ data, r.1 ≠ .sockSendto data) : attempts tr = [] := by
  rw [attempts, List.filterMap_eq_nil_iff]
  rintro ⟨c, a⟩ here
  have other := h _ here
  cases c with
  | sockSendto data => exact absurd rfl (other data)
  | _ => rfl

theorem unsent_of_allLib (h : AllLib tr) : ∀ r ∈ tr, ∀ data, r.1 ≠ .sockSendto data := by
  intro r here data eq
  obtain ⟨f, lib⟩ := h r here
  rw [eq] at lib
  cases lib

theorem unsent_of_onClient (h : ∀ r ∈ tr, OnClient r) :
    ∀ r ∈ tr, ∀ data, r.1 ≠ .sockSendto data := by
  rintro ⟨c, a⟩ here data eq
  dsimp only at eq
  subst eq
  exact h _ here

/-- The handling of a client's event: the client is served and stays, or after that its
socket is closed. -/
theorem clientEvent_cases {rev : Revents} (held : (s.clients c).isSome)
    (h : (clientEvent s c rev).Ends tr (st, s')) :
    ((∀ r ∈ tr, OnClient r) ∧ Tended c s s' ∧ (s'.clients c).isSome ∧ ¬ Status.Failed st) ∨
    (∃ s₁ first rest, tr = first ++ rest ∧ (∀ r ∈ first, OnClient r) ∧ Tended c s s₁ ∧
      (tcpOnHup s₁ c).Ends rest (st, s')) := by
  unfold clientEvent at h
  split at h
  · rename_i gone
    rw [gone] at held
    cases held
  split at h
  · exact Or.inr ⟨s, [], tr, rfl, nofun, .refl c s, h⟩
  · obtain ⟨⟨st₁, s₁⟩, reading, rest, rfl, reads, more⟩ := Task.ends_bind.mp h
    obtain ⟨own, tended, held₁⟩ := clientRead_meets _ _ _ _ reads
    obtain ⟨⟨st₂, s₂⟩, writing, rest, rfl, writes, last⟩ := Task.ends_bind.mp more
    obtain ⟨own', tended', held₂⟩ := clientWrite_meets _ _ held₁ _ _ writes
    have both : ∀ r ∈ reading ++ writing, OnClient r :=
      fun r there => (List.mem_append.mp there).elim (own r) (own' r)
    rw [← List.append_assoc]
    dsimp only at last
    split at last
    · exact Or.inr ⟨s₂, _, rest, rfl, both, tended.trans tended', last⟩
    · rename_i fine
      obtain ⟨rfl, rfl, rfl⟩ := Task.ends_done_pair.mp last
      rw [List.append_nil]
      exact Or.inl ⟨both, tended.trans tended', held₂, fine⟩

/-- Whatever the reads and writes for a client come to, only closing its socket can fail. -/
theorem clientEvent_ends {rev : Revents} (h : (clientEvent s c rev).Ends tr (st, s')) :
    Apart c s s' ∧ attempts tr = [] ∧
    (Status.Failed st ↔ ∃ r ∈ tr, (∃ f, r.1 = .lib f) ∧ (failure r).isSome) := by
  by_cases held : (s.clients c).isSome
  · rcases clientEvent_cases held h with ⟨own, tended, _, fine⟩ |
      ⟨s₁, first, rest, rfl, own, tended, hup⟩
    · refine ⟨tended.toApart, attempts_eq_nil (unsent_of_onClient own), iff_of_false fine ?_⟩
      rintro ⟨⟨call, a⟩, there, ⟨f, lib⟩, _⟩
      dsimp only at lib
      subst lib
      exact own _ there
    · obtain ⟨apart, all, iff⟩ := tcpOnHup_ends hup
      refine ⟨tended.toApart.trans apart, ?_, ?_⟩
      · rw [attempts_append, attempts_eq_nil (unsent_of_onClient own),
          attempts_eq_nil (unsent_of_allLib all)]
        rfl
      · rw [iff]
        constructor
        · rintro ⟨r, there, bad⟩
          exact ⟨r, List.mem_append_right _ there, all r there, bad⟩
        · rintro ⟨⟨call, a⟩, there, ⟨f, lib⟩, bad⟩
          rcases List.mem_append.mp there with there | there
          · dsimp only at lib
            subst lib
            exact absurd (own _ there) id
          · exact ⟨_, there, bad⟩
  · -- no such client: nothing is done
    unfold clientEvent at h
    split at h
    · obtain ⟨rfl, rfl, rfl⟩ := Task.ends_done_pair.mp h
      exact ⟨.refl c _, rfl, iff_of_false (by decide) (by simp)⟩
    · rename_i connected
      rw [connected] at held
      exact absurd rfl held

/-- A stretch of `tcp_on_accept`: it sends no datagram, and fails with its calls. -/
structure Accepts (c : Nat) (s : Sender g) (tr : Trace g) (st : Int) (s' : Sender g) : Prop where
  apart : Apart c s s'
  unsent : ∀ r ∈ tr, ∀ data, r.1 ≠ .sockSendto data
  fails : Status.Failed st ↔ Fails tr

theorem Accepts.after {first : Trace g} (h : Accepts c s tr st s')
    (unsent : ∀ r ∈ first, ∀ data, r.1 ≠ .sockSendto data) (fine : ¬ Fails first) :
    Accepts c s (first ++ tr) st s' := by
  refine ⟨h.apart, fun r here => (List.mem_append.mp here).elim (unsent r) (h.unsent r), ?_⟩
  rw [h.fails, fails_append, or_iff_right fine]

/-- The library calls have failed; then at most the socket is closed. -/
theorem Accepts.stopped {first : Trace g} (lib : AllLib first) (bad : Fails first)
    (failed : Status.Failed st) (rest : AllLib tr) : Accepts c s (first ++ tr) st s := by
  refine ⟨.refl c s, ?_, iff_of_true failed (fails_append.mpr (Or.inl bad))⟩
  exact fun r here =>
    (List.mem_append.mp here).elim (unsent_of_allLib lib r) (unsent_of_allLib rest r)

/-- The end of `tcp_on_accept`, once the client is counted. -/
theorem acceptFirst_ends (h : ((libCalls s [.pollerAddMcast]).bind fun st =>
      if Status.Failed st then Task.done (st, s) else
      .call s .clockTime fun
        | .error st => .done (st.val, s)
        | .ok now => .call { s with mcastSendTime := now } .storageGetQueueHead fun (head : Nat) =>
            .done (Status.ok, { s with mcastSendTime := now, lastQIdx := head }) :
        SenderTask g (Int × Sender g)).Ends tr (st, s')) : Accepts c s tr st s' := by
  obtain ⟨st₁, adding, rest, rfl, adds, more⟩ := Task.ends_bind.mp h
  clear h
  obtain ⟨all, iff⟩ := libCalls_ends adds
  split at more
  · rename_i failed
    obtain ⟨rfl, rfl, rfl⟩ := Task.ends_done_pair.mp more
    exact .stopped all (iff.mp failed) failed nofun
  · rename_i fine
    refine Accepts.after ?_ (unsent_of_allLib all) fun bad => fine (iff.mpr bad)
    obtain ⟨a, rest, rfl, second⟩ := Task.ends_call.mp more
    clear more
    cases a with
    | error e =>
      obtain ⟨rfl, rfl, rfl⟩ := Task.ends_done_pair.mp second
      exact ⟨.refl c _, by simp, iff_of_true e.2 ⟨_, List.mem_cons_self .., rfl⟩⟩
    | ok now =>
      obtain ⟨head, rest, rfl, third⟩ := Task.ends_call.mp second
      obtain ⟨rfl, rfl, rfl⟩ := Task.ends_done_pair.mp third
      refine ⟨⟨fun _ _ => rfl, rfl, rfl, rfl, rfl, rfl, rfl⟩, by simp, iff_of_false (by decide) ?_⟩
      simp [Fails, failure]

/-- The status behind the hello message: that of the message, unless only the signal handler
fails. -/
theorem failed_either (st₁ st₂ : Int) :
    Status.Failed (if Status.Failed st₂ ∧ ¬ Status.Failed st₁ then st₂ else st₁) ↔
      Status.Failed st₁ ∨ Status.Failed st₂ := by
  split
  · omega
  · omega

/-- `tcp_on_accept` fails exactly if one of its calls does. -/
theorem tcpOnAccept_ends {inBuf outBuf : List UInt8}
    (h : (tcpOnAccept s c inBuf outBuf).Ends tr (st, s')) : Accepts c s tr st s' := by
  unfold tcpOnAccept at h
  obtain ⟨st₁, t₁, rest, rfl, h₁, more⟩ := Task.ends_bind.mp h
  clear h
  obtain ⟨all₁, iff₁⟩ := libCalls_ends h₁
  dsimp only at more
  split at more
  · rename_i failed
    obtain ⟨rfl, rfl, rfl⟩ := Task.ends_done_pair.mp more
    exact .stopped all₁ (iff₁.mp failed) failed nofun
  rename_i fine₁
  refine Accepts.after ?_ (unsent_of_allLib all₁) fun bad => fine₁ (iff₁.mpr bad)
  -- the hello message, and the signal handler taken away again
  obtain ⟨st₂, t₂, rest, rfl, h₂, more₂⟩ := Task.ends_bind.mp more
  clear more
  obtain ⟨st₃, t₃, rest, rfl, h₃, more⟩ := Task.ends_bind.mp more₂
  clear more₂
  obtain ⟨all₂, iff₂⟩ := libCalls_ends h₂
  obtain ⟨all₃, iff₃⟩ := libCalls_ends h₃
  have all : AllLib (t₂ ++ t₃) := fun r here => (List.mem_append.mp here).elim (all₂ r) (all₃ r)
  rw [← List.append_assoc]
  have hello : Status.Failed (if Status.Failed st₃ ∧ ¬ Status.Failed st₂ then st₃ else st₂) ↔
      Fails (t₂ ++ t₃) := by
    rw [fails_append, ← iff₂, ← iff₃]
    exact failed_either st₂ st₃
  generalize (if Status.Failed st₃ ∧ ¬ Status.Failed st₂ then st₃ else st₂) = st₄ at more hello
  split at more
  · rename_i failed
    obtain ⟨_, t₄, rest, rfl, h₄, last⟩ := Task.ends_bind.mp more
    obtain ⟨rfl, rfl, rfl⟩ := Task.ends_done_pair.mp last
    rw [List.append_nil]
    refine .stopped all (hello.mp failed) ?_ (libCalls_ends h₄).1
    split
    · decide
    · exact failed
  rename_i fine
  refine Accepts.after ?_ (unsent_of_allLib all) fun bad => fine (hello.mpr bad)
  -- the client record
  obtain ⟨st₅, t₅, rest, rfl, h₅, more₅⟩ := Task.ends_bind.mp more
  clear more
  obtain ⟨all₅, iff₅⟩ := libCalls_ends h₅
  split at more₅
  · rename_i failed
    obtain ⟨st₆, t₆, rest, rfl, h₆, last⟩ := Task.ends_bind.mp more₅
    obtain ⟨rfl, rfl, rfl⟩ := Task.ends_done_pair.mp last
    rw [List.append_nil]
    exact .stopped all₅ (iff₅.mp failed) (by decide) (libCalls_ends h₆).1
  rename_i fine₅
  refine Accepts.after ?_ (unsent_of_allLib all₅) fun bad => fine₅ (iff₅.mpr bad)
  obtain ⟨a, rest, rfl, second⟩ := Task.ends_call.mp more₅
  clear more₅
  cases a with
  | error e =>
    obtain ⟨rfl, rfl, rfl⟩ := Task.ends_done_pair.mp second
    exact ⟨.refl c _, by simp, iff_of_true e.2 ⟨_, List.mem_cons_self .., rfl⟩⟩
  | ok now =>
    have apart := (Apart.refl c s).setClient (newClient inBuf outBuf now)
    obtain ⟨st₇, t₇, rest, rfl, h₇, more₇⟩ := Task.ends_bind.mp second
    clear second
    obtain ⟨all₇, iff₇⟩ := libCalls_ends h₇
    have quiet : ∀ r ∈ (⟨.clockTime, .ok now⟩ :: t₇ : Trace g), ∀ data, r.1 ≠ .sockSendto data := by
      intro r here
      rcases List.mem_cons.mp here with rfl | here
      · exact nofun
      · exact unsent_of_allLib all₇ r here
    have unfailed : Fails (⟨.clockTime, .ok now⟩ :: t₇ : Trace g) ↔ Fails t₇ := by
      rw [fails_cons]
      simp [failure]
    split at more₇
    · rename_i failed
      obtain ⟨rfl, rfl, rfl⟩ := Task.ends_done_pair.mp more₇
      rw [List.append_nil]
      exact ⟨apart, quiet, iff₇.trans unfailed.symm⟩
    · rename_i fine₇
      have fine : ¬ Fails (⟨.clockTime, .ok now⟩ :: t₇ : Trace g) :=
        fun bad => fine₇ (iff₇.mpr (unfailed.mp bad))
      have counted : Apart c s { s.setClient c (newClient inBuf outBuf now) with
          lastActiveTime := now
          clientCount := (s.setClient c (newClient inBuf outBuf now)).clientCount + 1 } :=
        ⟨apart.clients, rfl, rfl, rfl, rfl, rfl, rfl⟩
      split at more₇
      · have rest := acceptFirst_ends (c := c) more₇
        exact Accepts.after ⟨counted.trans rest.apart, rest.unsent, rest.fails⟩ quiet fine
      · obtain ⟨rfl, rfl, rfl⟩ := Task.ends_done_pair.mp more₇
        rw [List.append_nil]
        exact ⟨counted, quiet, iff_of_false (by decide) fine⟩

end Sender

/-- The connection that an event of the listening socket or of a client's socket is about. -/
def About : Event → Nat → Prop
  | .accept c _ _, i => i = c
  | .client c _, i => i = c
  | _, _ => False

def WritesSocket : Call → Prop
  | .sockWrite _ _ => True
  | .lib (.writeHello _) => True
  | _ => False

/-- What becomes of the process while it handles an event. -/
inductive Fate (g : Geometry) where
  | turn (result : Turn g)
  | killed

/-- The handler ends with its calls answered; or a write finds the connection closed by its peer
(`broken`, an EPIPE). That raises SIGPIPE, which is neither handled nor ignored, so that the process
ends in the call. A write that ends with `error_eof` in the trace is one whose connection was
reset. -/
inductive Handles (t : SenderTask g (Turn g)) : Trace g → Option Call → Fate g → Prop where
  | turn {tr : Trace g} {result : Turn g} (ends : t.Ends tr result) : Handles t tr none (.turn result)
  | killed {tr : Trace g} {broken : Call} (awaits : t.awaits tr = some broken)
      (writes : WritesSocket broken) :
      Handles t tr (some broken) .killed

def Fate.GoesOn : Fate g → Prop
  | .turn result => ¬ Status.Failed result.status
  | .killed => False

/-- No write has met a closed connection. No call of `tcp_on_accept` has failed; on a client's
socket, closing it has not. -/
def Contained (e : Event) (tr : Trace g) (broken : Option Call) : Prop :=
  broken = none ∧
  match e with
  | .accept _ _ _ => ¬ Fails tr
  | _ => ¬ ∃ r ∈ tr, (∃ f, r.1 = .lib f) ∧ (failure r).isSome

/-- A handler that ends fails exactly if no call of `tcp_on_accept` has, or on a client's socket if
that could be closed. -/
theorem handle_ends {s : Sender g} {e : Event} {c : Nat} (about : About e c) {tr : Trace g}
    {result : Turn g} (ends : (s.handle e).Ends tr result) :
    (¬ Status.Failed result.status ↔ Contained e tr none) ∧ Apart c s result.sndr := by
  unfold Contained
  rw [and_iff_right rfl]
  cases e with
  | accept i inBuf outBuf =>
    obtain rfl : c = i := about
    obtain ⟨⟨st, s'⟩, calls, rest, rfl, accepts, done⟩ := Task.ends_bind.mp ends
    obtain ⟨rfl, rfl⟩ := Task.ends_done.mp done
    obtain ⟨apart, _, fails⟩ := tcpOnAccept_ends accepts
    rw [List.append_nil]
    exact ⟨not_congr fails, apart⟩
  | client i rev =>
    obtain rfl : c = i := about
    obtain ⟨⟨st, s'⟩, calls, rest, rfl, handles, done⟩ := Task.ends_bind.mp ends
    obtain ⟨rfl, rfl⟩ := Task.ends_done.mp done
    obtain ⟨apart, _, fails⟩ := clientEvent_ends handles
    rw [List.append_nil]
    exact ⟨not_congr fails, apart⟩
  | mcast => cases about
  | quit order rounds => cases about

/-- Whatever happens on one connection, the other clients, the packet and what the sender
remembers of its records stay as they are. The sender goes on exactly if no write met a connection
that its peer had closed, and no call of `tcp_on_accept` has failed, or on a client's socket if that
could be closed. -/
theorem client_isolation {s : Sender g} {e : Event} {c : Nat} (about : About e c) {tr : Trace g}
    {broken : Option Call} {fate : Fate g} (handles : Handles (s.handle e) tr broken fate) :
    (fate.GoesOn ↔ Contained e tr broken) ∧ ∀ result, fate = .turn result →
    Apart c s result.sndr := by
  cases handles with
  | turn ends =>
    obtain ⟨goesOn, apart⟩ := handle_ends about ends
    refine ⟨goesOn, ?_⟩
    rintro _ ⟨⟩
    exact apart
  | killed awaits writes => exact ⟨⟨False.elim, nofun⟩, nofun⟩

def smallServing : Sender small :=
  { smallSender with clientCount := 1 }.setClient 0
    (newClient (List.replicate 16 0) (List.replicate 17 0) 0)

def resetClient : Trace small :=
  [⟨.sockRead 0 16, .error ⟨-104, by decide⟩⟩, ⟨.lib (.pollerRemove 0), .ok ()⟩,
   ⟨.lib (.sockDestroy 0), .ok ()⟩, ⟨.lib .pollerRemoveMcast, .ok ()⟩]

theorem client_isolation_small : ∃ result : Turn small,
    Handles (smallServing.handle (.client 0 ⟨false, true, false⟩)) resetClient none (.turn result) ∧
    (Fate.turn result).GoesOn ∧ Apart 0 smallServing result.sndr := by
  have ends : (smallServing.handle (.client 0 ⟨false, true, false⟩)).Ends resetClient _ :=
    Task.ends_of_result rfl
  have about : About (.client 0 ⟨false, true, false⟩) 0 := rfl
  obtain ⟨goesOn, apart⟩ := client_isolation about (.turn ends)
  refine ⟨_, .turn ends, goesOn.mpr ⟨rfl, ?_⟩, apart _ rfl⟩
  simp [resetClient, failure]

def lateHello : Trace small :=
  [⟨.lib (.sockAccept 1), .ok ()⟩, ⟨.lib (.sockSetTcpNodelay 1), .ok ()⟩,
   ⟨.lib .signalAddHandler, .ok ()⟩, ⟨.lib (.writeHello 1), .error ⟨sigAlrmError, by decide⟩⟩,
   ⟨.lib .signalRemoveHandler, .ok ()⟩, ⟨.lib (.sockDestroy 1), .ok ()⟩]

/-- The message in the out buffer of client 0 has not been written yet. -/
def smallOwing : Sender small :=
  smallServing.setClient 0 { newClient (List.replicate 16 0) (List.replicate 17 0) 0 with outRemain := 8 }

/-- Nothing but the hello to client 1 fails, and the sender ends for client 0 too; and when client 0
has closed its connection before it is written to, the process ends. -/
theorem late_hello_fatal :
    (∃ result : Turn small,
      Handles (smallServing.handle (.accept 1 (List.replicate 16 0) (List.replicate 17 0))) lateHello none
        (.turn result) ∧
      (∀ r ∈ lateHello, (failure r).isSome → r.1 = .lib (.writeHello 1)) ∧
      ¬ (Fate.turn result).GoesOn) ∧
    Handles (smallOwing.handle (.client 0 ⟨false, false, true⟩)) []
      (some (.sockWrite 0 (List.replicate 8 0))) .killed ∧
    ¬ (Fate.killed : Fate small).GoesOn := by
  refine ⟨⟨_, .turn (Task.ends_of_result rfl), ?_, ?_⟩, .killed rfl trivial, id⟩
  · intro r here bad
    simp only [lateHello, List.mem_cons, List.not_mem_nil, or_false] at here
    rcases here with rfl | rfl | rfl | rfl | rfl | rfl
    all_goals first | rfl | cases bad
  · exact fun fine => fine (by decide)

end Lancaster
