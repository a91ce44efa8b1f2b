import Lancaster.Receiver
import Mathlib.Data.List.Nodup

/-!
# Which sequences a receiver has seen

Every sequence below `next_seq` was either applied, in one datagram, or asked for, in
one range. The history `acts` says which: `hits` counts how often a sequence occurs in
it, and every successful call of `mcast_on_read` moves `next_seq` so that the count is
one below it and zero from it on.
-/

namespace Lancaster

open Bytes
open Receiver (McastInput)

variable {g : Geometry}

def appliedSeqs (acts : List (RecvAct g)) : List Int :=
  acts.filterMap fun
    | .applied seq => some seq
    | _ => none

def gapRanges (acts : List (RecvAct g)) : List SequenceRange :=
  acts.filterMap fun
    | .gap range => some range
    | _ => none

theorem appliedSeqs_append (as bs : List (RecvAct g)) :
    appliedSeqs (as ++ bs) = appliedSeqs as ++ appliedSeqs bs := by
  simp [appliedSeqs]

theorem gapRanges_append (as bs : List (RecvAct g)) :
    gapRanges (as ++ bs) = gapRanges as ++ gapRanges bs := by
  simp [gapRanges]

/-- In how many applied datagrams and requested ranges a sequence lies. -/
def hits (acts : List (RecvAct g)) (q : Int) : Nat :=
  (appliedSeqs acts).count q + (gapRanges acts).countP fun range => range.IsWithin q

theorem hits_append (as bs : List (RecvAct g)) (q : Int) :
    hits (as ++ bs) q = hits as q + hits bs q := by
  simp only [hits, appliedSeqs_append, gapRanges_append, List.count_append, List.countP_append]
  omega

theorem hits_applied (seq q : Int) :
    hits [(.applied seq : RecvAct g)] q = if q = seq then 1 else 0 := by
  by_cases h : q = seq
  · subst h
    simp [hits, appliedSeqs, gapRanges]
  · have other : ¬ seq = q := Ne.symm h
    simp [hits, appliedSeqs, gapRanges, h, other]

theorem hits_gap (low high q : Int) :
    hits [(.gap ⟨low, high⟩ : RecvAct g)] q = if low ≤ q ∧ q < high then 1 else 0 := by
  by_cases h : low ≤ q ∧ q < high <;>
    simp [hits, appliedSeqs, gapRanges, SequenceRange.IsWithin, h]

/-! ## What the handlers leave alone -/

/-- Only the storage and what is known of its records changed. -/
structure Updated (r r' : Receiver g) : Prop where
  next : r'.nextSeq = r.nextSeq
  outBuf : r'.outBuf = r.outBuf
  outNext : r'.outNext = r.outNext
  outRemain : r'.outRemain = r.outRemain
  acts : ∃ ups, r'.acts = r.acts ++ ups ∧ appliedSeqs ups = [] ∧ gapRanges ups = []

namespace Updated

variable {r r' r'' : Receiver g}

theorem refl (r : Receiver g) : Updated r r :=
  ⟨rfl, rfl, rfl, rfl, [], (List.append_nil _).symm, rfl, rfl⟩

theorem trans (h : Updated r r') (h' : Updated r' r'') : Updated r r'' := by
  obtain ⟨ups, acts, applied, gaps⟩ := h.acts
  obtain ⟨ups', acts', applied', gaps'⟩ := h'.acts
  refine ⟨h'.next.trans h.next, h'.outBuf.trans h.outBuf, h'.outNext.trans h.outNext,
    h'.outRemain.trans h.outRemain, ups ++ ups', ?_, ?_, ?_⟩
  · rw [acts', acts, List.append_assoc]
  · rw [appliedSeqs_append, applied, applied', List.append_nil]
  · rw [gapRanges_append, gaps, gaps', List.append_nil]

theorem hits_eq (h : Updated r r') (q : Int) : hits r'.acts q = hits r.acts q := by
  obtain ⟨ups, acts, applied, gaps⟩ := h.acts
  have zero : hits ups q = 0 := by
    simp [hits, applied, gaps]
  rw [acts, hits_append, zero, Nat.add_zero]

theorem gaps_eq (h : Updated r r') : gapRanges r'.acts = gapRanges r.acts := by
  obtain ⟨ups, acts, _, gaps⟩ := h.acts
  rw [acts, gapRanges_append, gaps, List.append_nil]

end Updated

namespace Receiver

theorem updateRecord_updated (r : Receiver g) (lock : Except Failure Unit) (seq id : Int)
    (val : Value g) (now : Int) : Updated r (updateRecord r lock seq id val now).2 := by
  unfold updateRecord
  split
  · cases lock with
    | error st => exact .refl r
    | ok _ =>
      dsimp only
      split
      · split
        · exact ⟨rfl, rfl, rfl, rfl, _, rfl, rfl, rfl⟩
        · exact ⟨rfl, rfl, rfl, rfl, _, rfl, rfl, rfl⟩
      · exact ⟨rfl, rfl, rfl, rfl, _, rfl, rfl, rfl⟩
  · exact .refl r

/-- What the update of one record keeps, the records of a datagram keep. -/
theorem applyRecords_keeps {R : Receiver g → Receiver g → Prop} (refl : ∀ r, R r r)
    (trans : ∀ r₁ r₂ r₃, R r₁ r₂ → R r₂ r₃ → R r₁ r₃) {lock : Int → Except Failure Unit}
    {seq now : Int}
    (one : ∀ r id val, R r (updateRecord r (lock id) seq id val now).2) (buf : List UInt8)
    (last fuel p : Nat) (r : Receiver g) : R r (applyRecords lock seq buf last now fuel p r).2 := by
  induction fuel generalizing p r with
  | zero => exact refl r
  | succ fuel ih =>
    rw [applyRecords]
    split
    · generalize ntohll (ldLong buf p) = id
      have first := one r id (Value.load g buf (p + 8))
      dsimp only
      split
      · exact first
      · exact trans _ _ _ first (ih _ _)
    · exact refl r

theorem applyRecords_updated (lock : Int → Except Failure Unit) (seq : Int) (buf : List UInt8)
    (last : Nat) (now : Int) (fuel p : Nat) (r : Receiver g) :
    Updated r (applyRecords lock seq buf last now fuel p r).2 :=
  applyRecords_keeps .refl (fun _ _ _ => .trans)
    (fun r id val => updateRecord_updated r (lock id) seq id val now) buf last fuel p r

/-- The sequence a datagram speaks of: a heartbeat negates it. -/
def ahead (seq : Int) : Int := if seq < 0 then negLong seq else seq

/-- What a call of `mcast_on_read` comes to: it changes statistics at most, or it
handles a datagram of the publisher. -/
theorem mcastOnRead_cases (r : Receiver g) (inp : McastInput) :
    (∃ time bytes, (mcastOnRead r inp).2 =
      { r with mcastRecvTime := time, mcastBytesRecv := bytes } ∧
      Status.Failed (mcastOnRead r inp).1) ∨
    (∃ data now bytes, inp.dgram = .ok data ∧ 16 ≤ data.length ∧ inp.sameSource = true ∧
      mcastOnRead r inp =
        mcastOnPacket { r with mcastRecvTime := now, mcastBytesRecv := bytes } inp data now) := by
  unfold mcastOnRead
  cases hd : inp.dgram with
  | error st => exact Or.inl ⟨r.mcastRecvTime, r.mcastBytesRecv, rfl, st.2⟩
  | ok data =>
  by_cases empty : data = []
  · subst empty
    exact Or.inl ⟨r.mcastRecvTime, r.mcastBytesRecv, rfl, Failure.eof.2⟩
  rw [sockRecvfrom_nonempty empty]
  cases hc : inp.clock with
  | error st => exact Or.inl ⟨r.mcastRecvTime, r.mcastBytesRecv, rfl, st.2⟩
  | ok now =>
  have protocol : Status.Failed Status.protocolError := by decide
  have source : Status.Failed Status.unexpectedSource := by decide
  dsimp only
  by_cases short : data.length < 16
  · rw [if_pos short]
    exact Or.inl ⟨r.mcastRecvTime, r.mcastBytesRecv, rfl, protocol⟩
  rw [if_neg short]
  by_cases foreign : inp.sameSource = false
  · rw [if_pos foreign]
    exact Or.inl ⟨r.mcastRecvTime, r.mcastBytesRecv, rfl, source⟩
  rw [if_neg foreign]
  cases hl : inp.lockRecvStats with
  | error st =>
    simp only [updateStats, hl, st.2, ↓reduceIte]
    exact Or.inl ⟨now, r.mcastBytesRecv, rfl, trivial⟩
  | ok _ =>
  cases hs : inp.latencyOnSample with
  | error st =>
    simp only [updateStats, hl, hs, st.2, ↓reduceIte]
    exact Or.inl ⟨now, r.mcastBytesRecv + data.length, rfl, trivial⟩
  | ok _ =>
    refine Or.inr ⟨data, now, r.mcastBytesRecv + data.length, rfl, by omega, by simpa using foreign,
      ?_⟩
    simp [updateStats, hl, hs, Status.ok]

theorem requestGap_acts (r : Receiver g) (setEvent lockStats : Except Failure Unit)
    (low high : Int) :
    (requestGap r setEvent lockStats low high).2.acts = r.acts ++ [.gap ⟨low, high⟩] ∧
    (requestGap r setEvent lockStats low high).2.nextSeq = r.nextSeq := by
  unfold requestGap
  cases setEvent with
  | error st => exact ⟨rfl, rfl⟩
  | ok _ => cases lockStats <;> exact ⟨rfl, rfl⟩

/-- What `advance` does to the sequences: a gap is asked for if there is one, and only
then can it fail. -/
theorem advance_cases (r : Receiver g) (inp : McastInput) (seq : Int) (isHb : Bool) :
    (seq ≤ r.nextSeq ∧ advance r inp seq isHb =
      (Status.ok, if isHb then r else { r with nextSeq := r.nextSeq + 1 })) ∨
    (r.nextSeq < seq ∧ ∃ st r', requestGap r inp.setEvent inp.lockStats r.nextSeq seq = (st, r') ∧
      ((Status.Failed st ∧ advance r inp seq isHb = (st, r')) ∨
       (¬ Status.Failed st ∧ advance r inp seq isHb =
        (Status.ok, { r' with nextSeq := if isHb then seq else seq + 1 })))) := by
  by_cases gap : r.nextSeq < seq
  · obtain ⟨⟨st, r'⟩, hr⟩ : ∃ u, requestGap r inp.setEvent inp.lockStats r.nextSeq seq = u :=
      ⟨_, rfl⟩
    refine Or.inr ⟨gap, st, r', hr, ?_⟩
    by_cases hf : Status.Failed st
    · refine Or.inl ⟨hf, ?_⟩
      simp only [advance, gap, hr, hf, ↓reduceIte]
    · refine Or.inr ⟨hf, ?_⟩
      cases isHb <;> simp [advance, gap, hr, hf, Status.ok]
  · refine Or.inl ⟨by omega, ?_⟩
    simp [advance, gap, Status.ok]

end Receiver

/-! ## Coverage -/

/-- Every sequence below `next_seq` is hit once, and no other one. -/
structure Exact (r : Receiver g) : Prop where
  next_nonneg : 0 ≤ r.nextSeq
  next_le : r.nextSeq ≤ sequenceMax
  hits_eq : ∀ q, hits r.acts q = if 0 ≤ q ∧ q < r.nextSeq then 1 else 0

/-- What is left of that when a call has failed: nothing is hit twice. -/
structure Partitioned (r : Receiver g) : Prop where
  next_le : r.nextSeq ≤ sequenceMax
  below : ∀ q, 0 ≤ q → q < r.nextSeq → hits r.acts q = 1
  once : ∀ q, hits r.acts q ≤ 1

theorem Exact.partitioned {r : Receiver g} (h : Exact r) : Partitioned r := by
  refine ⟨h.next_le, ?_, ?_⟩
  · intro q low high
    rw [h.hits_eq, if_pos ⟨low, high⟩]
  · intro q
    rw [h.hits_eq]
    split <;> omega

theorem Exact.updated {r r' : Receiver g} (h : Exact r) (same : Updated r r') : Exact r' := by
  refine ⟨?_, ?_, ?_⟩
  · rw [same.next]
    exact h.next_nonneg
  · rw [same.next]
    exact h.next_le
  · intro q
    rw [same.hits_eq, same.next]
    exact h.hits_eq q

namespace Receiver

/-- The datagram at hand counts before `next_seq` has passed it: data that was just
applied, or a heartbeat that counts for nothing. -/
def present (seq : Int) (isHb : Bool) (q : Int) : Nat :=
  if isHb = false ∧ q = seq then 1 else 0

/-- `advance` closes the gap between `next_seq` and the datagram. -/
theorem advance_exact {r : Receiver g} {inp : McastInput} {seq : Int} {isHb : Bool}
    (low : 0 ≤ r.nextSeq) (high : r.nextSeq ≤ sequenceMax)
    (fresh : isHb = false → r.nextSeq ≤ seq ∧ seq < sequenceMax) (bound : seq ≤ sequenceMax)
    (count : ∀ q, hits r.acts q =
      (if 0 ≤ q ∧ q < r.nextSeq then 1 else 0) + present seq isHb q) :
    Partitioned (advance r inp seq isHb).2 ∧
      (¬ Status.Failed (advance r inp seq isHb).1 → Exact (advance r inp seq isHb).2) := by
  rcases advance_cases r inp seq isHb with ⟨near, eq⟩ | ⟨gap, st, r', hr, outcome⟩
  · -- a heartbeat that says nothing new, or the datagram that was expected
    have done : Exact (if isHb then r else { r with nextSeq := r.nextSeq + 1 }) := by
      cases isHb with
      | true => exact ⟨low, high, fun q => by simpa [present] using count q⟩
      | false =>
        have := fresh rfl
        refine ⟨by simp; omega, by simp; omega, fun q => ?_⟩
        simp only [Bool.false_eq_true, ↓reduceIte, count, present, true_and]
        split <;> split <;> split <;> omega
    rw [eq]
    exact ⟨done.partitioned, fun _ => done⟩
  obtain ⟨acts, next⟩ := requestGap_acts r inp.setEvent inp.lockStats r.nextSeq seq
  rw [hr] at acts next
  dsimp only at acts next
  have total : ∀ q, hits r'.acts q = (if 0 ≤ q ∧ q < seq then 1 else 0) + present seq isHb q := by
    intro q
    rw [acts, hits_append, hits_gap, count]
    split <;> split <;> split <;> omega
  have remains : Exact { r' with nextSeq := if isHb then seq else seq + 1 } := by
    cases isHb with
    | true => exact ⟨by simp; omega, by simpa using bound, fun q => by simpa [present] using total q⟩
    | false =>
      have := fresh rfl
      refine ⟨by simp; omega, by simp; omega, fun q => ?_⟩
      simp only [Bool.false_eq_true, ↓reduceIte, total, present, true_and]
      split <;> split <;> split <;> omega
  rcases outcome with ⟨hf, eq⟩ | ⟨_, eq⟩ <;> rw [eq]
  · refine ⟨⟨?_, ?_, remains.partitioned.once⟩, fun fine => absurd hf fine⟩
    · simpa only [next] using high
    · intro q nonneg before
      simp only [next] at before
      refine remains.partitioned.below q nonneg ?_
      simp only
      split <;> omega
  · exact ⟨remains.partitioned, fun _ => remains⟩

/-- A call of `mcast_on_read` on a datagram below the largest sequence. -/
theorem mcastOnRead_exact {r : Receiver g} {inp : McastInput} (h : Exact r)
    (bound : ∀ data, inp.dgram = .ok data → ntohll (ldLong data 0) < sequenceMax) :
    Partitioned (mcastOnRead r inp).2 ∧
      (¬ Status.Failed (mcastOnRead r inp).1 → Exact (mcastOnRead r inp).2) := by
  rcases mcastOnRead_cases r inp with ⟨time, bytes, eq, hf⟩ | ⟨data, now, bytes, hd, long, _, eq⟩
  · rw [eq]
    have kept : Exact { r with mcastRecvTime := time, mcastBytesRecv := bytes } :=
      h.updated ⟨rfl, rfl, rfl, rfl, [], (List.append_nil _).symm, rfl, rfl⟩
    exact ⟨kept.partitioned, fun fine => absurd hf fine⟩
  rw [eq]
  have kept : Exact { r with mcastRecvTime := now, mcastBytesRecv := bytes } :=
    h.updated ⟨rfl, rfl, rfl, rfl, [], (List.append_nil _).symm, rfl, rfl⟩
  generalize { r with mcastRecvTime := now, mcastBytesRecv := bytes } = r₀ at kept ⊢
  have header : ldLong (data ++ inp.junk) 0 = ldLong data 0 := by
    rw [ldLong, peek_append_left (by omega), ldLong]
  have limit := bound data hd
  rw [← header] at limit
  have least : sequenceMin ≤ ntohll (ldLong (data ++ inp.junk) 0) := (bswap64_isLong _).1
  rw [mcastOnPacket]
  generalize ntohll (ldLong (data ++ inp.junk) 0) = seq at limit least ⊢
  split
  · -- a heartbeat
    rename_i negative
    refine advance_exact kept.next_nonneg kept.next_le (by simp) ?_ fun q => ?_
    · rw [negLong]
      split <;> simp only [sequenceMin, sequenceMax] at * <;> omega
    · rw [kept.hits_eq]
      rfl
  split
  · exact ⟨kept.partitioned, fun _ => kept⟩
  rename_i nonneg late
  have same := applyRecords_updated inp.lock seq (data ++ inp.junk) data.length now data.length 16 r₀
  generalize applyRecords inp.lock seq (data ++ inp.junk) data.length now data.length 16 r₀ = u
    at same ⊢
  obtain ⟨st, r₁⟩ := u
  dsimp only at same ⊢
  have applied := kept.updated same
  split
  · rename_i hf
    exact ⟨applied.partitioned, fun fine => absurd hf fine⟩
  · have next := same.next
    refine advance_exact applied.next_nonneg applied.next_le (fun _ => ⟨?_, limit⟩) (by omega)
      fun q => ?_
    · simp only
      omega
    · rw [hits_append, hits_applied, applied.hits_eq]
      simp [present]

/-- Datagrams handled one after the other; a call that fails is the last. -/
def mcastRun (r : Receiver g) : List McastInput → Receiver g
  | [] => r
  | inp :: rest =>
    let (st, r) := mcastOnRead r inp
    if Status.Failed st then r else mcastRun r rest

theorem mcastRun_partitioned {r : Receiver g} (h : Exact r) (inps : List McastInput)
    (bound : ∀ inp ∈ inps, ∀ data, inp.dgram = .ok data → ntohll (ldLong data 0) < sequenceMax) :
    Partitioned (mcastRun r inps) := by
  induction inps generalizing r with
  | nil => exact h.partitioned
  | cons inp rest ih =>
    obtain ⟨parted, remains⟩ := mcastOnRead_exact h (bound inp (List.mem_cons_self ..))
    simp only [mcastRun]
    split
    · exact parted
    · rename_i fine
      exact ih (remains fine) fun inp hi => bound inp (List.mem_cons_of_mem _ hi)

end Receiver

/-- After any datagrams, every sequence below `next_seq` lies in exactly one applied
datagram or in exactly one requested range, and no datagram was applied twice. -/
theorem sequences_partitioned (store : Storage g) (qCapacity : Nat) (inBuf outBuf : List UInt8)
    (now : Int) (inps : List McastInput)
    (bound : ∀ inp ∈ inps, ∀ data, inp.dgram = .ok data → ntohll (ldLong data 0) < sequenceMax)
    (r : Receiver g)
    (run : r = Receiver.mcastRun (Receiver.init store qCapacity inBuf outBuf now) inps) :
    (∀ q, 0 ≤ q → q < r.nextSeq →
      ((appliedSeqs r.acts).count q = 1 ∧ ∀ range ∈ gapRanges r.acts, ¬ range.IsWithin q) ∨
      (q ∉ appliedSeqs r.acts ∧
        (gapRanges r.acts).countP (fun range => range.IsWithin q) = 1)) ∧
    (appliedSeqs r.acts).Nodup ∧ r.nextSeq ≤ sequenceMax := by
  have start : Exact (Receiver.init store qCapacity inBuf outBuf now) := by
    refine ⟨le_refl _, by simp [Receiver.init, sequenceMax], fun q => ?_⟩
    have nothing : ¬ (0 ≤ q ∧ q < (Receiver.init store qCapacity inBuf outBuf now).nextSeq) := by
      simp only [Receiver.init]
      omega
    rw [if_neg nothing]
    rfl
  have parted := Receiver.mcastRun_partitioned start inps bound
  rw [← run] at parted
  refine ⟨?_, ?_, parted.next_le⟩
  · intro q low high
    have once := parted.below q low high
    rw [hits] at once
    by_cases gaps : (gapRanges r.acts).countP (fun range => range.IsWithin q) = 0
    · refine Or.inl ⟨by omega, ?_⟩
      simpa using List.countP_eq_zero.mp gaps
    · exact Or.inr ⟨List.count_eq_zero.mp (by omega), by omega⟩
  · refine List.nodup_iff_count_le_one.mpr fun q => ?_
    have once := parted.once q
    rw [hits] at once
    omega

/-- A datagram whose handling meets no failure. -/
def Receiver.McastInput.ofDatagram (data : List UInt8) (now : Int) : McastInput where
  dgram := .ok data
  junk := []
  clock := .ok now
  sameSource := true
  lockRecvStats := .ok ()
  latencyOnSample := .ok ()
  lock := fun _ => .ok ()
  setEvent := .ok ()
  lockStats := .ok ()

def smallReceiver : Receiver small :=
  Receiver.init smallStore 2 (List.replicate 17 0) (List.replicate 16 0) 0

/-- A heartbeat, or a packet with one record. -/
def smallPacket (seq : Int) : List UInt8 :=
  netLong seq ++ netLong 0 ++ if seq < 0 then [] else netLong 0 ++ [7]

/-- Sequence 2 comes first, then sequence 1 too late, then a heartbeat announces 5. -/
theorem sequences_partitioned_small : ∃ r : Receiver small, r.nextSeq = 5 ∧
    appliedSeqs r.acts = [2] ∧ gapRanges r.acts = [⟨0, 2⟩, ⟨3, 5⟩] ∧
    (appliedSeqs r.acts).Nodup := by
  let inps := [2, 1, -5].map fun seq => McastInput.ofDatagram (smallPacket seq) 0
  have bound : ∀ inp ∈ inps, ∀ data, inp.dgram = .ok data →
      ntohll (ldLong data 0) < sequenceMax := by
    have all : ∀ seq ∈ [2, 1, -5], ntohll (ldLong (smallPacket seq) 0) < sequenceMax := by
      decide +kernel
    intro inp hi data hd
    obtain ⟨seq, hs, rfl⟩ := List.mem_map.mp hi
    obtain rfl := Except.ok.inj hd
    exact all seq hs
  obtain ⟨_, nodup, _⟩ := sequences_partitioned smallStore 2 _ _ 0 inps bound
    (Receiver.mcastRun smallReceiver inps) rfl
  exact ⟨Receiver.mcastRun smallReceiver inps, by decide +kernel, by decide +kernel,
    by decide +kernel, nodup⟩

end Lancaster
