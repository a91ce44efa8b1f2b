import Lancaster.Simulation
import Mathlib.Order.Interval.Finset.Nat

/-!
# What the sender has still to look at

A record is staged as it was at one of its commits. `Caught` says that every commit since then
has an entry in the queue that is still to be looked at: so the sender is behind by less than a
whole round of revisions, and one that looks the same is the same. A record that was never
staged counts as staged when the first client is accepted.
-/

namespace Lancaster

open Bytes Interleaving Sender

variable {g : Geometry}

/-! ## Entries to come -/

/-- The entries of record `id` that the writer has still to make. -/
def Writer.owes (id : Int) : Writer g → Nat
  | .unlocked i => if i = id then 1 else 0
  | _ => 0

/-- The commits of record `id` that are queued from position `q` on or will be. -/
def World.backlog (w : World g) (q : Nat) (id : Int) : Nat :=
  ((Finset.Ico q w.written).filter fun p => w.log p = id).card + w.writer.owes id

namespace World

variable {w w' : World g} {q q' : Nat} {id : Int}

theorem backlog_mono (le : q' ≤ q) : w.backlog q id ≤ w.backlog q' id := by
  apply Nat.add_le_add_right
  exact Finset.card_le_card (Finset.filter_subset_filter _ (Finset.Ico_subset_Ico_left le))

/-- The entry at `q` is another one. -/
theorem backlog_next (other : w.log q ≠ id) : w.backlog q id ≤ w.backlog (q + 1) id := by
  apply Nat.add_le_add_right
  apply Finset.card_le_card
  intro p here
  simp only [Finset.mem_filter, Finset.mem_Ico] at here ⊢
  have hne : p ≠ q := by
    rintro rfl
    exact other here.2
  exact ⟨by omega, here.2⟩

theorem backlog_le (w : World g) (q : Nat) (id : Int) : w.backlog q id ≤ (w.written - q) + 1 := by
  have entries := Finset.card_filter_le (Finset.Ico q w.written) fun p => w.log p = id
  rw [Nat.card_Ico] at entries
  have one : w.writer.owes id ≤ 1 := by
    unfold Writer.owes
    split
    · split <;> omega
    · omega
  unfold backlog
  omega

theorem backlog_congr (store : w'.store = w.store) (writer : w'.writer = w.writer)
    (log : w'.log = w.log) (q : Nat) (id : Int) : w'.backlog q id = w.backlog q id := by
  rw [backlog, written, store, writer, log]
  rfl

/-- Nothing is to come from a writer that is idle. -/
theorem backlog_idle (idle : w.writer = .idle) : w.backlog w.store.qHead id = 0 := by
  simp [backlog, written, idle, Writer.owes]

/-- Every commit is queued. -/
theorem backlog_moved {m : WriterMove g} (hm : World.writerMove m w = some w')
    (reach : q ≤ w.store.qHead) (id : Int) :
    (w'.commits id).length + w.backlog q id ≤ (w.commits id).length + w'.backlog q id := by
  rcases writerMove_cases hm with ⟨i, ts, val, hw, _, _, rfl⟩ | ⟨i, r, hw, rfl⟩ |
    ⟨i, hw, _, rfl⟩ | ⟨i, hw, rfl⟩
  · simp only [backlog, written, hw, Writer.owes, Storage.setRecord]
    exact le_refl _
  · simp only [backlog, written, hw, Writer.owes, World.commit, Storage.setRecord]
    by_cases hi : i = id
    · simp [hi]
      omega
    · simp [hi, Ne.symm hi]
  · -- the entry behind the head
    simp only [backlog, written, hw, Writer.owes, Storage.writeSlot]
    have kept : (Finset.Ico q w.store.qHead).filter (fun p => w.log p = id) ⊆
        (Finset.Ico q (w.store.qHead + 1)).filter
          (fun p => (if p = w.store.qHead then i else w.log p) = id) := by
      intro p here
      simp only [Finset.mem_filter, Finset.mem_Ico] at here ⊢
      rw [if_neg (by omega)]
      exact ⟨by omega, here.2⟩
    by_cases hi : i = id
    · have new : w.store.qHead ∉ (Finset.Ico q w.store.qHead).filter fun p => w.log p = id := by
        simp
      have more := Finset.card_le_card (Finset.insert_subset (a := w.store.qHead) (by
        simp only [Finset.mem_filter, Finset.mem_Ico, ↓reduceIte]
        exact ⟨by omega, hi⟩) kept)
      rw [Finset.card_insert_of_notMem new] at more
      simp only [hi, ↓reduceIte] at more ⊢
      omega
    · have more := Finset.card_le_card kept
      simp only [hi, ↓reduceIte]
      omega
  · simp only [backlog, written, hw, Writer.owes]
    exact le_refl _

end World

/-! ## Revisions -/

section Revisions

variable {l : List (Record g)} (chain : l.IsChain fun r r' => r'.rev = nextRev r.rev)
  {b n : Nat} {r r' : Record g}

include chain

theorem rev_next (first : l[n]? = some r) (last : l[n + 1]? = some r') :
    r'.rev = nextRev r.rev := by
  obtain ⟨_, rfl⟩ := List.getElem?_eq_some_iff.mp first
  obtain ⟨inside, rfl⟩ := List.getElem?_eq_some_iff.mp last
  exact chain.getElem n inside

/-- The revision after `n + 1` more commits. -/
theorem rev_later (first : l[b]? = some r) (last : l[b + (n + 1)]? = some r') :
    r'.rev = (r.rev + (n + 1)) % 9223372036854775808 := by
  induction n generalizing r' with
  | zero => exact rev_next chain first last
  | succ n ih =>
    have inside := (List.getElem?_eq_some_iff.mp last).1
    have before : l[b + (n + 1)]? = some l[b + (n + 1)] := List.getElem?_eq_getElem (by omega)
    have step := rev_next chain before last
    rw [ih before, nextRev] at step
    omega

/-- Fewer commits than there are revisions: a revision that looks the same is the same. -/
theorem last_of_same (first : l[b]? = some r) (last : l.getLast? = some r') (same : r'.rev = r.rev)
    (few : l.length ≤ b + 1 + n) (small : n < 9223372036854775808) : l.length = b + 1 := by
  have inside := (List.getElem?_eq_some_iff.mp first).1
  by_contra more
  obtain ⟨k, hk⟩ : ∃ k, l.length - 1 = b + (k + 1) := ⟨l.length - b - 2, by omega⟩
  rw [List.getLast?_eq_getElem?, hk] at last
  have later := rev_later chain first last
  omega

end Revisions

/-! ## What has been staged -/

structure Pristine (s : Sender g) (w : World g) : Prop where
  wire : w.wire = []
  seqs : ∀ i, s.recordSeqs i = 0
  revs : ∀ i, s.recordRevs i = -1

/-- Sending leaves the place in the queue. -/
theorem Phase.Sends.cursor {ph ph' : Phase} {s s' : Sender g} (h : ph.Sends ph')
    (last : s'.lastQIdx = s.lastQIdx) :
    ph.cursor s' = ph.cursor s ∧ ph'.cursor s' = ph.cursor s ∧
      ph.onFail.cursor s' = ph.cursor s := by
  cases h <;> simp [Phase.cursor, Phase.onFail, last]

/-- Every commit behind the one that was staged last is in the backlog. -/
structure Caught (ph : Phase) (s : Sender g) (w : World g) (a : Broadcast.State Int) : Prop where
  behind : ∀ id, (w.commits id).length ≤ a.base id + 1 + w.backlog (ph.cursor s) id
  staged : ∀ id, s.recordRevs (id - g.baseId) = -1 ∨
    ∃ r, (w.commits id)[a.base id]? = some r ∧ r.rev = s.recordRevs (id - g.baseId)

namespace Caught

variable {c : Nat} {ph ph' : Phase} {s s' : Sender g} {w w' : World g} {a a' : Broadcast.State Int}

/-- A step that stages nothing. -/
theorem same (h : Caught ph s w a) (commits : w'.commits = w.commits)
    (revs : s'.recordRevs = s.recordRevs) (base : a'.base = a.base)
    (entries : ∀ id, w.backlog (ph.cursor s) id ≤ w'.backlog (ph'.cursor s') id) :
    Caught ph' s' w' a' := by
  constructor
  · intro id
    have := h.behind id
    have := entries id
    rw [commits, base]
    omega
  · rw [commits, revs, base]
    exact h.staged

theorem moved (h : Caught ph s w a) (queue : CursorInv ph s w) {m : WriterMove g}
    (hm : World.writerMove m w = some w') (base : a'.base = a.base) : Caught ph s w' a' := by
  constructor
  · intro id
    have := h.behind id
    have := World.backlog_moved hm queue.place.cursor_le id
    rw [base]
    omega
  · intro id
    rcases h.staged id with never | ⟨r, here, rev⟩
    · exact Or.inl never
    · obtain ⟨more, eq⟩ := writerMove_grows hm id
      refine Or.inr ⟨r, ?_, rev⟩
      rw [base, ← eq, List.getElem?_append_left (List.getElem?_eq_some_iff.mp here).1]
      exact here

theorem silent (h : Caught ph s w a) (queue : CursorInv ph s w) (step : Silent ph s ph' s') :
    Caught ph' s' w a :=
  h.same rfl step.sameRevs.1 rfl fun _ => World.backlog_mono (queue.place.silent step).2

/-- The record that is looked at has the revision that it was staged with. -/
theorem unchanged (h : Caught ph s w a) (queue : CursorInv ph s w) (stored : Stored w)
    (near : w.written ≤ s.lastQIdx + 2 * g.qCapacity) {id : Int}
    (free : 0 ≤ (w.store.record id).rev)
    (same : (w.store.record id).rev = s.recordRevs (id - g.baseId)) :
    (w.commits id).length = a.base id + 1 := by
  rcases h.staged id with never | ⟨r, here, rev⟩
  · omega
  · have low := queue.place.from_last
    have few := w.backlog_le (ph.cursor s) id
    have cap := g.qCapacity_lt
    exact last_of_same (stored.revs id) here (stored.last id free)
      (same.trans rev.symm) (h.behind id)
      (by omega)

/-- The sender goes on behind the entry of record `id`, which has been caught up with. -/
theorem passed {q e : Nat} {id : Int} (h : Caught ph s w a) (reads : Phase.Reads s w q e id)
    (phase : ph.cursor s = q) (next : ph'.cursor s' = q + 1)
    (base : ∀ i, i ≠ id → a'.base i = a.base i) (done : (w.commits id).length = a'.base id + 1)
    (i : Int) : (w.commits i).length ≤ a'.base i + 1 + w.backlog (ph'.cursor s') i := by
  by_cases hi : i = id
  · rw [hi, done]
    exact Nat.le_add_right _ _
  · have other : w.log q ≠ i := by
      rw [reads.2.2.2]
      exact Ne.symm hi
    have before := h.behind i
    have after := World.backlog_next other
    rw [phase] at before
    rw [base i hi, next]
    omega

theorem answered {e : Event} {call : Call} (h : Caught ph s w a) (net : NetInv ph s w)
    (queue : CursorInv ph s w) (sender : SenderLink ph s w a)
    (calm : undisturbed s w (some (e, call)))
    (first : ph = .first → Pristine s w) (step : Answer (netEnv g) e call ph s w ph' s' w')
    (effect : Effect c call ph s w s' a a') : Caught ph' s' w' a' := by
  have place := queue.place
  obtain ⟨store, commits, writer, _, log⟩ := step.same
  have entries := World.backlog_congr store writer log
  have base : (∀ q e id sent, ph ≠ .fill q e id sent) → ph ≠ .first → a'.base = a.base := by
    intro unstaged begun
    cases effect with
    | stage phase => exact absurd phase (unstaged _ _ _ _)
    | rebase phase => exact absurd phase begun
    | _ => rfl
  -- a step that stages nothing and does not move on in the queue
  have stays : (∀ q e id sent, ph ≠ .fill q e id sent) → ph ≠ .first →
      s'.recordRevs = s.recordRevs → ph'.cursor s' ≤ ph.cursor s → Caught ph' s' w' a' := by
    intro unstaged begun revs le
    refine h.same commits revs (base unstaged begun) fun id => ?_
    rw [entries]
    exact World.backlog_mono le
  have sending : ∀ ph₁, ph.Sends ph₁ → ph' = ph ∨ ph' = ph₁ ∨ ph' = ph.onFail →
      s'.recordRevs = s.recordRevs → s'.lastQIdx = s.lastQIdx → Caught ph' s' w' a' := by
    intro ph₁ sends which revs last
    obtain ⟨stay, done, fail⟩ := sends.cursor last
    refine stays ?_ ?_ revs ?_
    · cases sends <;> simp
    · cases sends <;> simp
    · rcases which with rfl | rfl | rfl
      · exact le_of_eq stay
      · exact le_of_eq done
      · exact le_of_eq fail
  cases step with
  | idle small => exact stays (by simp) (by simp) rfl small
  | overrun past =>
    have near : NotOverrun s w := of_decide_eq_true calm
    have := w.head_le_written
    simp only [NotOverrun] at near
    omega
  | @skip q e id _ _ known free same =>
    have done := h.unchanged queue net.stored (of_decide_eq_true calm) free same
    have bases := base (by simp) (by simp)
    refine ⟨h.passed place rfl rfl (fun i _ => congrFun bases i) ?_, ?_⟩
    · rw [done, bases]
    · rw [bases]
      exact h.staged
  | stamp now sends => exact sending _ sends (Or.inl rfl) rfl rfl
  | send sends => exact sending _ sends (Or.inr (Or.inl rfl)) rfl rfl
  | overflow sends => exact sending _ sends (Or.inr (Or.inr rfl)) rfl rfl
  | @copy q e id sent _ _ known free =>
    cases effect with
    | none unstaged => exact absurd rfl (unstaged q e id sent)
    | send sends => cases sends
    | frame phase => cases phase
    | rebase phase => cases phase
    | stage phase =>
      cases phase
      have last := sender.ver id
      have bases : ∀ i, i ≠ id → (a.stage id).base i = a.base i := by
        intro i hi
        simp [Broadcast.State.stage, hi]
      have here : (a.stage id).base id = a.ver id := by simp [Broadcast.State.stage]
      refine ⟨h.passed place rfl rfl bases (by rw [here, last]), ?_⟩
      intro i
      by_cases hi : i = id
      · have stored := net.stored.last id free
        rw [List.getLast?_eq_getElem?, last] at stored
        subst hi
        exact Or.inr ⟨_, by rw [here]; exact stored, by simp [stageValue]⟩
      · have other : ¬ i - g.baseId = id - g.baseId := by omega
        rw [bases i hi]
        simpa [stageValue, other] using h.staged i
  | jump =>
    have fresh := first rfl
    cases effect with
    | none _ begun => exact absurd rfl begun
    | stage phase => cases phase
    | send sends => cases sends
    | frame phase => cases phase
    | rebase =>
      refine ⟨?_, fun id => Or.inl (fresh.revs _)⟩
      intro id
      rw [sender.ver id]
      exact Nat.le_add_right _ _
  | write count writing => rcases writing with rfl | rfl <;> exact stays (by simp) (by simp) rfl (le_refl _)
  | _ => exact stays (by simp) (by simp) rfl (le_refl _)

end Caught

/-! ## Before the first client -/

theorem Pristine.same {s s' : Sender g} {w w' : World g} (h : Pristine s w)
    (wire : w'.wire = w.wire) (seqs : s'.recordSeqs = s.recordSeqs)
    (revs : s'.recordRevs = s.recordRevs) : Pristine s' w' := by
  refine ⟨?_, ?_, ?_⟩
  · rw [wire]
    exact h.wire
  · rw [seqs]
    exact h.seqs
  · rw [revs]
    exact h.revs

theorem netMove_wire {m : NetMove g} {w w' : World g} (hm : World.netMove m w = some w') :
    w'.wire = w.wire := by
  rcases netMove_cases hm with ⟨m, hm⟩ | ⟨i, p, rfl, _⟩
  · exact (writerMove_same hm).1
  · rfl

/-- Only the multicast handler stages and sends. -/
theorem pristineKept : Kept (netEnv g) (fun asked _ _ => ∀ call, asked ≠ some (.mcast, call))
    (fun _ _ _ => True) (fun _ _ _ => True) (fun _ s w => Pristine s w) where
  moved := fun h _ _ hm => h.same (netMove_wire hm) rfl rfl
  silent := fun h step => h.same rfl step.seqs.2 step.sameRevs.1
  answered := by
    intro e call ph s w ph' s' w' h other step
    cases step with
    | accept | jump | read | readLast | readBad | write | reply | unused => exact h.same rfl rfl rfl
    | _ => exact absurd rfl (other _)
  quits := by
    intro ph s w order rounds _ _ _ allowed
    cases allowed

section Runs

variable {x₀ x : Conf (netEnv g).host}

/-- The multicast handler is not started while there are no clients. -/
theorem last_ne_mcast (idle : x₀.last = none)
    (run : (netEnv g).host.Reach (fun x _ _ => ¬ 0 < x.state.clientCount) x₀ x) :
    x.last ≠ some Event.mcast := by
  have first : x₀.last ≠ some Event.mcast := by
    rw [idle]
    exact Option.some_ne_none _ ∘ Eq.symm
  refine run.invariant _ (fun x => x.last ≠ some Event.mcast) first ?_
  intro x ch y before hn nobody
  rcases Host.next_cases _ hn with ⟨m, w, _, _, rfl⟩ | ⟨s, call, k, a, w, _, _, rfl⟩ |
    ⟨e, a, t, _, done, starts, rfl⟩
  · exact before
  · exact before
  · intro same
    obtain rfl := Option.some.inj same
    have state : x.state = a.sndr := by
      unfold Conf.state
      rw [done]
      rfl
    rw [state] at nobody
    simp [Env.host, netEnv, nobody] at starts

/-- While there has never been a client, nothing is sent or staged. -/
theorem counted_or_pristine {ok : Conf (netEnv g).host → Choice (netEnv g).host →
      Conf (netEnv g).host → Prop} {s : Sender g} {w : World g}
    (start : x₀ = (netEnv g).idleConf s w) (init : Pristine s w)
    (keeps : ∀ x ch y, ok x ch y → 0 < x.state.clientCount → 0 < y.state.clientCount)
    (run : (netEnv g).host.Reach ok x₀ x) : 0 < x.state.clientCount ∨ Pristine x.state x.world := by
  have never : 0 < x.state.clientCount ∨
      (netEnv g).host.Reach (fun x _ _ => ¬ 0 < x.state.clientCount) x₀ x := by
    induction run with
    | refl => exact Or.inr .refl
    | @step x y ch _ hn allowed ih =>
      by_cases clients : 0 < x.state.clientCount
      · exact Or.inl (keeps x ch y allowed clients)
      · exact Or.inr (.step ch (ih.resolve_left clients) hn clients)
  refine never.imp_right fun alone => ?_
  subst start
  have other := alone.strengthen _ fun x run => last_ne_mcast rfl run
  have shown : ∀ x : Conf (netEnv g).host, x.last ≠ some Event.mcast →
      ∀ call, x.waiting ≠ some (Event.mcast, call) := by
    intro x known call here
    unfold Conf.waiting at here
    split at here
    · rename_i e task last
      rw [last] at known
      exact known (congrArg (Option.map Prod.fst) here)
    · cases here
  obtain ⟨_, pristine⟩ := pristineKept.holds (fun _ _ y _ known => shown y known.2)
    (fun _ _ _ _ _ => trivial) (fun _ _ _ _ _ _ => trivial) init (by simp) other
  exact pristine

end Runs

end Lancaster
