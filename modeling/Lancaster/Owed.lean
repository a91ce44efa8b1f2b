import Lancaster.Simulation

/-!
# Records that are owed to a receiver

A packet that a receiver has passed without taking it is asked for. `Owed` says where the
request is for one record: among the bytes that the sender has not read, in `union_range`, or
in `reply_range` with the scan still before the record. No step of the sender loses it: a range
that is dropped for `min_seq` has no record left, and only a frame takes the scan past a record
that is in use.
-/

namespace Lancaster

open Bytes Interleaving Sender

variable {g : Geometry}

/-! ## What is owed -/

/-- The client waits for the records with sequence `seq`, and its scan is not past `id`. -/
def Seeks (clnt : TcpClient) (seq id : Int) : Prop :=
  clnt.unionRange.IsWithin seq ∨ (clnt.replyRange.IsWithin seq ∧ clnt.replyId ≤ id)

/-- The ranges that receiver `c` has asked for and the sender has not read as a whole. -/
def unread (c : Nat) (w : World g) : List SequenceRange :=
  (gapRanges (w.peers c).recv.acts).drop ((w.recd c).length / 16)

/-- Record `id` is still to be framed for receiver `c`, unless its connection is lost. -/
inductive Owed (c : Nat) (ph : Phase) (s : Sender g) (w : World g) (id : Int) : Prop where
  | asked {range : SequenceRange} (here : range ∈ unread c w)
      (within : range.IsWithin (s.recordSeqs (id - g.baseId)))
  | sought {clnt : TcpClient} (here : s.clients c = some clnt)
      (seeks : Seeks clnt (s.recordSeqs (id - g.baseId)) id)
  | gone (absent : s.clients c = none) (old : ¬ Novel c ph w)

theorem unread_subset {c : Nat} {w w' : World g} (peers : w'.peers c = w.peers c)
    (count : (w'.recd c).length / 16 = (w.recd c).length / 16) : unread c w ⊆ unread c w' := by
  rw [unread, unread, peers, count]
  exact List.Subset.refl _

namespace Owed

variable {c : Nat} {ph ph' : Phase} {s s' : Sender g} {w w' : World g} {id : Int}
  {a : Broadcast.State Int}

/-- Neither the record nor the client changes. -/
theorem same (h : Owed c ph s w id) (clients : s'.clients c = s.clients c)
    (seqs : s'.recordSeqs (id - g.baseId) = s.recordSeqs (id - g.baseId))
    (ranges : unread c w ⊆ unread c w') (novel : Novel c ph' w' → Novel c ph w) :
    Owed c ph' s' w' id := by
  cases h with
  | asked here within => exact .asked (ranges here) (by rwa [seqs])
  | sought here seeks => exact .sought (clients.trans here) (by rwa [seqs])
  | gone absent old => exact .gone (clients.trans absent) fun new => old (novel new)

/-- One client changes. -/
theorem touch (h : Owed c ph s w id) {i : Nat} {clnt clnt' : TcpClient}
    (here : s.clients i = some clnt)
    (seqs : s'.recordSeqs (id - g.baseId) = s.recordSeqs (id - g.baseId))
    (clients : s'.clients = (s.setClient i clnt').clients)
    (ranges : unread c w ⊆ unread c w') (novel : Novel c ph' w' → Novel c ph w)
    (keeps : i = c → Seeks clnt (s.recordSeqs (id - g.baseId)) id →
      Seeks clnt' (s.recordSeqs (id - g.baseId)) id) : Owed c ph' s' w' id := by
  by_cases hi : i = c
  · subst hi
    have here' : s'.clients i = some clnt' := by
      rw [clients]
      exact setClient_clients_same ..
    cases h with
    | asked unreadRange within => exact .asked (ranges unreadRange) (by rwa [seqs])
    | sought client seeks =>
      rw [here] at client
      obtain rfl := Option.some.inj client
      exact .sought here' (by rw [seqs]; exact keeps rfl seeks)
    | gone absent =>
      rw [here] at absent
      cases absent
  · refine h.same ?_ seqs ranges novel
    rw [clients]
    exact setClient_clients_other _ _ (Ne.symm hi)

theorem silent (h : Owed c ph s w id) (known : g.Holds id) (net : NetInv ph s w)
    (step : Silent ph s ph' s') : Owed c ph' s' w id := by
  have seqs := congrFun step.seqs.2 (id - g.baseId)
  have all : unread c w ⊆ unread c w := List.Subset.refl _
  -- a step that does not concern this client
  have keep : ∀ {ph' : Phase} {s' : Sender g},
      s'.recordSeqs (id - g.baseId) = s.recordSeqs (id - g.baseId) → s'.clients c = s.clients c →
      (ph' = .accepting c → ph = .accepting c) → Owed c ph' s' w id := by
    intro ph' s' seqs clients accepting
    exact h.same clients seqs all fun new => new.imp_right accepting
  cases step with
  | tally => exact keep rfl rfl fun phase => phase
  | fail => exact keep rfl rfl fun phase => by cases ph <;> cases phase
  | room | reopen => exact keep seqs (by simp) (by simp)
  | @join i _ inBuf outBuf now =>
    by_cases hi : i = c
    · subst hi
      cases h with
      | asked here within => exact .asked here within
      | sought here =>
        rw [(net.gap.joining i rfl).1] at here
        cases here
      | gone _ old => exact absurd (Or.inr rfl) old
    · exact keep rfl (setClient_clients_other _ _ (Ne.symm hi)) (by simp)
  | drop i =>
    by_cases hi : i = c
    · subst hi
      cases here : s.clients i with
      | none => exact keep rfl (by simp [dropClient, here]) (by simp)
      | some clnt => exact .gone (by simp [dropClient]) (net.gap.not_novel here (by simp) rfl)
    · exact keep rfl (by simp [dropClient, Ne.symm hi]) (by simp)
  | sendTime now writing here => exact h.touch here rfl rfl all (fun new => new) fun _ seeks => seeks
  | merge here whole => exact absurd whole (net.gap.not_full here)
  | forget here whole low =>
    refine h.touch here rfl rfl all (fun new => new) ?_
    rintro - (union | reply)
    · -- no record has a sequence below `min_seq`
      have least := net.gap.least id known
      have high := union.2
      omega
    · exact Or.inr reply
  | promote here whole new free =>
    refine h.touch here rfl rfl all (fun new => new) ?_
    rintro - (union | reply)
    · exact Or.inr ⟨union, known.1⟩
    · exact absurd reply.1.valid free
  | find here => exact h.touch here rfl rfl all (fun new => new) fun _ seeks => seeks
  | @pass _ i clnt here idle busy more found outside =>
    refine h.touch here rfl rfl all (fun new => new) ?_
    rintro - (union | ⟨within, before⟩)
    · exact Or.inl union
    · have other : clnt.replyId ≠ id := by
        rintro rfl
        exact outside within
      exact Or.inr ⟨within, by simp only; omega⟩
  | finish here idle busy past =>
    refine h.touch here rfl rfl all (fun new => new) ?_
    rintro - (union | ⟨within, before⟩)
    · exact Or.inl union
    · have high := known.2
      omega
  | heartbeat here => exact h.touch here rfl rfl all (fun new => new) fun _ seeks => seeks
  | tell => exact absurd rfl net.awake.1
  | told => exact absurd rfl (net.awake.2 _)
  | _ => exact keep rfl rfl (by simp)

/-- Bytes of the client that complete no range. -/
theorem read (h : Owed c .rest s w id) (gap : GapCore .rest s w) {i : Nat} {clnt : TcpClient}
    {data : List UInt8} (here : s.clients i = some clnt) (fits : data.length < clnt.inRemain) :
    Owed c .rest (s.setClient i (clnt.fed data)) (w.read i data) id := by
  have count : ((w.read i data).recd c).length / 16 = (w.recd c).length / 16 := by
    by_cases hi : i = c
    · subst hi
      obtain ⟨_, split, _, m, len, _⟩ := gap.incoming i clnt here
      rw [GapCore.read_same, List.length_append]
      omega
    · rw [GapCore.read_other w data (Ne.symm hi)]
  exact h.touch here rfl rfl (unread_subset rfl count) (fun new => new) fun _ seeks => seeks

/-- A range that is complete goes into `union_range`. -/
theorem readLast (h : Owed c .rest s w id) (gap : GapCore .rest s w) (conn : ConnLink c .rest s w a)
    (bound : a.rnext ≤ sequenceMax) {i : Nat} {clnt : TcpClient} {data : List UInt8}
    (here : s.clients i = some clnt) (full : data.length = clnt.inRemain)
    (admitted : (w.recd i ++ data).isPrefixOf (w.peers i).up) :
    Owed c .rest (s.setClient i (clnt.fed data).merged) (w.read i data) id := by
  have merges : Seeks clnt (s.recordSeqs (id - g.baseId)) id →
      Seeks (clnt.fed data).merged (s.recordSeqs (id - g.baseId)) id := by
    rintro (union | reply)
    · have covers : clnt.unionRange.Covers clnt.unionRange := ⟨le_refl _, le_refl _⟩
      exact Or.inl ((covers.hull _).within union)
    · exact Or.inr reply
  by_cases hi : i = c
  · subst hi
    have part : w.recd i ++ data <+: (w.peers i).up := List.isPrefixOf_iff_prefix.mp admitted
    have incoming := gap.incoming i clnt here
    obtain ⟨m, len, range, _⟩ := incoming.fed_last full
    have before : (w.recd i).length / 16 = m := by
      have split := incoming.split
      have more := incoming.more
      rw [List.length_append] at len
      omega
    have after : ((w.read i data).recd i).length / 16 = m + 1 := by
      rw [GapCore.read_same]
      omega
    have there := conn.range_get bound part (le_of_eq len.symm)
    have split : unread i w = (clnt.fed data).inRange :: unread i (w.read i data) := by
      rw [range, unread, unread, before, after]
      obtain ⟨inside, eq⟩ := List.getElem?_eq_some_iff.mp there
      rw [← eq]
      exact List.drop_eq_getElem_cons inside
    cases h with
    | asked unreadRange within =>
      rw [split] at unreadRange
      rcases List.mem_cons.mp unreadRange with rfl | later
      · refine .sought (setClient_clients_same ..) (Or.inl ?_)
        exact (SequenceRange.hull_covers _ _).within within
      · exact .asked later within
    | sought client seeks =>
      rw [here] at client
      obtain rfl := Option.some.inj client
      exact .sought (setClient_clients_same ..) (merges seeks)
    | gone absent =>
      rw [here] at absent
      cases absent
  · have other := GapCore.read_other w data (Ne.symm hi)
    exact h.touch here rfl rfl (unread_subset rfl (by rw [other])) (fun new => new)
      fun same => absurd same hi

/-- Only a frame settles what is owed. -/
theorem answered {e : Event} {call : Call} (h : Owed c ph s w id) (gap : GapCore ph s w)
    (conn : ConnLink c ph s w a) (bound : a.rnext ≤ sequenceMax)
    (seqs : s'.recordSeqs (id - g.baseId) = s.recordSeqs (id - g.baseId))
    (unpassed : ∀ clnt clnt', s.clients c = some clnt → s'.clients c = some clnt' →
      clnt'.replyId = clnt.replyId ∨ clnt.replyId ≠ id)
    (step : Answer (netEnv g) e call ph s w ph' s' w') : Owed c ph' s' w' id := by
  have all : unread c w ⊆ unread c w := List.Subset.refl _
  have plain : (∀ i, ph' ≠ .accepting i) → Novel c ph' w → Novel c ph w :=
    fun other new => new.imp_right fun phase => absurd phase (other c)
  -- the scan of the client goes on behind a record
  have next : ∀ {i : Nat} {clnt clnt' : TcpClient}, ph = .rest → s.clients i = some clnt →
      s' = s.setClient i clnt' → clnt'.unionRange = clnt.unionRange →
      clnt'.replyRange = clnt.replyRange → clnt'.replyId = clnt.replyId + 1 →
      Owed c .rest s' w id := by
    rintro i clnt clnt' rfl here rfl union reply passed
    refine h.touch here rfl rfl all (fun new => new) ?_
    rintro rfl (within | ⟨within, before⟩)
    · exact Or.inl (by rwa [union])
    · have other : clnt.replyId ≠ id := by
        rcases unpassed clnt clnt' here (setClient_clients_same ..) with same | other
        · omega
        · exact other
      exact Or.inr ⟨by rwa [reply], by omega⟩
  cases step with
  | accept new => exact h.same rfl rfl all (Novel.accepted new)
  | read data here nonempty fits => exact h.read gap here fits
  | readLast data here nonempty full valid admitted => exact h.readLast gap conn bound here full admitted
  | @readBad _ _ _ i clnt data here =>
    by_cases hi : i = c
    · subst hi
      exact .gone (by simp [dropClient]) (gap.not_novel here (by simp) rfl)
    · have other := GapCore.read_other w data (Ne.symm hi)
      exact h.same (by simp [dropClient, Ne.symm hi]) rfl (unread_subset rfl (by rw [other]))
        fun new => new
  | write count writing here => exact h.touch here rfl rfl all (fun new => new) fun _ seeks => seeks
  | reply here => exact next rfl here rfl rfl rfl rfl
  | unused here => exact next rfl here rfl rfl rfl rfl
  | stamp => exact h.same rfl rfl all fun new => new
  | copy => exact h.same rfl seqs all (plain (by simp))
  | send sends | overflow sends =>
    refine h.same rfl rfl all (plain ?_)
    cases sends <;> simp [Phase.onFail]
  | _ => exact h.same rfl rfl all (plain (by simp))

end Owed

/-! ## Answers -/

section Answers

variable {E : Env g} {e : Event} {call : Call} {c : Nat} {ph ph' : Phase} {s s' : Sender g}
  {w w' : World g} (step : Answer E e call ph s w ph' s' w')

include step

/-- Only a record that is staged gets a new sequence. -/
theorem Answer.labels (i : Int) : s'.recordSeqs i = s.recordSeqs i ∨
    ∃ q e id sent, ph = .fill q e id sent ∧ call = .recordCopy id ∧ i = id - g.baseId := by
  cases step with
  | @copy q e id sent =>
    by_cases hi : i = id - g.baseId
    · exact Or.inr ⟨q, e, id, sent, rfl, rfl, hi⟩
    · exact Or.inl (by simp [stageValue, hi])
  | _ => exact Or.inl rfl

/-- The scan for a client goes on with the answer of `record_copy` only. -/
theorem Answer.scan {clnt clnt' : TcpClient} (here : s.clients c = some clnt)
    (here' : s'.clients c = some clnt') :
    clnt'.replyId = clnt.replyId ∨ (ph = .rest ∧ call = .recordCopy clnt.replyId) := by
  have keep : s'.clients c = s.clients c → clnt'.replyId = clnt.replyId := by
    intro same
    rw [same, here] at here'
    rw [Option.some.inj here']
  -- one client is set
  have set : ∀ {i : Nat} {x x' : TcpClient}, s.clients i = some x → s' = s.setClient i x' →
      (x'.replyId = x.replyId ∨ (ph = .rest ∧ call = .recordCopy x.replyId)) →
      clnt'.replyId = clnt.replyId ∨ (ph = .rest ∧ call = .recordCopy clnt.replyId) := by
    rintro i x x' held rfl known
    by_cases hi : c = i
    · subst hi
      rw [here] at held
      rw [setClient_clients_same] at here'
      obtain rfl := Option.some.inj held
      obtain rfl := Option.some.inj here'
      exact known
    · exact Or.inl (keep (setClient_clients_other _ _ hi))
  cases step with
  | read data held | readLast data held => exact set held rfl (Or.inl rfl)
  | @readBad _ _ _ i clnt₁ data held =>
    by_cases hi : c = i
    · simp [dropClient, hi] at here'
    · exact Or.inl (keep (by simp [dropClient, hi]))
  | write count _ held => exact set held rfl (Or.inl rfl)
  | reply held | unused held => exact set held rfl (Or.inr ⟨rfl, rfl⟩)
  | _ => exact Or.inl (keep rfl)

theorem Answer.wire_prefix : w.wire <+: w'.wire := by
  cases step with
  | send | overflow => exact List.prefix_append _ _
  | _ => exact List.prefix_rfl

end Answers

end Lancaster
