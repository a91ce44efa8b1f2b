import Lancaster.Delivery

/-!
# What is read of a datagram

The header is checked for its length, and then records are taken in steps of eight bytes
and a value for as long as the end is not reached. The last of them may reach beyond it:
what the stack buffer holds there is then read, and applied, as a part of the record.
-/

namespace Lancaster

open Bytes Receiver

variable {g : Geometry}

/-- Bytes of the buffer that are read. -/
structure Access where
  off : Nat
  len : Nat
  deriving DecidableEq

def Access.Inside (a : Access) (size : Nat) : Prop := a.off + a.len ≤ size

namespace Receiver

/-- The record can be applied: it is in range, and its lock is had. -/
def Takes (g : Geometry) (lock : Int → Except Failure Unit) (id : Int) : Prop :=
  g.Holds id ∧ (lock id).isOk

instance (lock : Int → Except Failure Unit) (id : Int) : Decidable (Takes g lock id) :=
  inferInstanceAs (Decidable (_ ∧ _))

/-- What the record loop reads: the identifier of a record, and its value once the record
is locked. -/
def recordReads (lock : Int → Except Failure Unit) (seq : Int) (buf : List UInt8) (last : Nat)
    (now : Int) : Nat → Nat → Receiver g → List Access
  | 0, _, _ => []
  | fuel + 1, p, r =>
    if p < last then
      let id := ntohll (ldLong buf p)
      let (st, r) := updateRecord r (lock id) seq id (Value.load g buf (p + 8)) now
      ⟨p, 8⟩ :: ((if Takes g lock id then [⟨p + 8, g.valSize⟩] else []) ++
        if Status.Failed st then []
        else recordReads lock seq buf last now fuel (p + (8 + g.valSize)) r)
    else []

/-- What is read once the datagram is known to come from the publisher. -/
def packetReads (r : Receiver g) (inp : McastInput) (data : List UInt8) (now : Int) : List Access :=
  let buf := data ++ inp.junk
  let seq := ntohll (ldLong buf 0)
  ⟨0, 8⟩ ::
    if seq < 0 then []
    else if seq < r.nextSeq then []
    else recordReads inp.lock seq buf data.length now data.length 16 r

/-- What `mcast_on_read` reads of the datagram: the time stamp, the sequence, the records. -/
def mcastReads (r : Receiver g) (inp : McastInput) : List Access :=
  match sockRecvfrom inp.dgram, inp.clock with
  | .ok data, .ok now =>
    if data.length < 16 then []
    else if inp.sameSource = false then []
    else
      let (st, r) := updateStats { r with mcastRecvTime := now } inp data.length
      ⟨8, 8⟩ :: if Status.Failed st then [] else packetReads r inp data now
  | _, _ => []

/-- Nothing is read but what was received, and a datagram without a whole header is a
protocol error, unless the clock fails before its length is looked at. -/
def StaysInside (r : Receiver g) (inp : McastInput) (data : List UInt8) : Prop :=
  (∀ a ∈ mcastReads r inp, a.Inside data.length) ∧
  (data.length < 16 → data = [] ∨ inp.clock.isOk → (mcastOnRead r inp).1 = Status.protocolError)

/-- From `p` on there are records that can all be applied and then a part of one, which is
shorter than its identifier or can be applied as well. -/
def CutRecord (g : Geometry) (lock : Int → Except Failure Unit) (buf : List UInt8) (p last : Nat) :
    Prop :=
  (last - p) % (8 + g.valSize) ≠ 0 ∧
  (∀ k < (last - p) / (8 + g.valSize),
    Takes g lock (ntohll (ldLong buf (p + k * (8 + g.valSize))))) ∧
  ((last - p) % (8 + g.valSize) < 8 ∨
    Takes g lock (ntohll (ldLong buf
      (p + (last - p) / (8 + g.valSize) * (8 + g.valSize)))))

/-- The datagram is one whose records are looked at, and the last of them is cut. -/
def Truncated (r : Receiver g) (inp : McastInput) (data : List UInt8) : Prop :=
  16 ≤ data.length ∧ inp.clock.isOk ∧ inp.lockRecvStats.isOk ∧ inp.latencyOnSample.isOk ∧
  0 ≤ ntohll (ldLong data 0) ∧ r.nextSeq ≤ ntohll (ldLong data 0) ∧
  CutRecord g inp.lock data 16 data.length

/-! ## The record loop -/

theorem updateRecord_fails (r : Receiver g) (lock : Int → Except Failure Unit) (seq id : Int)
    (val : Value g) (now : Int) :
    Status.Failed (updateRecord r (lock id) seq id val now).1 ↔ ¬ Takes g lock id := by
  unfold Takes
  by_cases known : g.Holds id
  · cases lock id with
    | error st =>
      rw [updateRecord, if_pos known]
      exact ⟨fun _ able => Bool.false_ne_true able.2, fun _ => st.2⟩
    | ok _ =>
      rcases updateRecord_cases r (.ok ()) seq val now known with ⟨_, fails, _⟩ | ⟨r', eq, _⟩
      · cases fails
      · rw [eq]
        exact ⟨fun failed => absurd failed (lt_irrefl _), fun unable => absurd ⟨known, rfl⟩ unable⟩
  · have refused : updateRecord r (lock id) seq id val now = (Status.invalidRecord, r) := by
      simp [updateRecord, known]
    have failed : Status.Failed Status.invalidRecord := by decide
    rw [refused]
    exact ⟨fun _ able => known able.1, fun _ => failed⟩

/-- A record that is there whole moves the cut on to the next one. -/
theorem cutRecord_next {lock : Int → Except Failure Unit} {buf : List UInt8} {p last : Nat}
    (whole : p + (8 + g.valSize) ≤ last) :
    CutRecord g lock buf p last ↔ Takes g lock (ntohll (ldLong buf p)) ∧
      CutRecord g lock buf (p + (8 + g.valSize)) last := by
  have pos : 0 < 8 + g.valSize := by omega
  generalize hv : 8 + g.valSize = v at whole pos
  obtain ⟨m, rfl⟩ : ∃ m, last = p + v + m := ⟨last - (p + v), by omega⟩
  have left : p + v + m - p = m + v := by omega
  have rest : p + v + m - (p + v) = m := by omega
  have last : p + (m / v + 1) * v = p + v + m / v * v := by
    rw [Nat.add_mul, Nat.one_mul]
    omega
  unfold CutRecord
  rw [hv, left, rest, Nat.add_mod_right, Nat.add_div_right _ pos, last]
  constructor
  · rintro ⟨cut, before, ends⟩
    refine ⟨?_, cut, ?_, ends⟩
    · have first := before 0 (Nat.succ_pos _)
      rwa [Nat.zero_mul, Nat.add_zero] at first
    · intro k hk
      have next := before (k + 1) (Nat.succ_lt_succ hk)
      rwa [Nat.add_mul, Nat.one_mul, Nat.add_comm (k * v), ← Nat.add_assoc] at next
  · rintro ⟨first, cut, before, ends⟩
    refine ⟨cut, ?_, ends⟩
    intro k hk
    cases k with
    | zero => rwa [Nat.zero_mul, Nat.add_zero]
    | succ k =>
      have next := before k (Nat.lt_of_succ_lt_succ hk)
      rwa [Nat.add_mul, Nat.one_mul, Nat.add_comm (k * v), ← Nat.add_assoc]

/-- A part of a record at the end. -/
theorem cutRecord_end {lock : Int → Except Failure Unit} {buf : List UInt8} {p last : Nat}
    (more : p < last) (part : last < p + (8 + g.valSize)) :
    CutRecord g lock buf p last ↔
      last < p + 8 ∨ Takes g lock (ntohll (ldLong buf p)) := by
  unfold CutRecord
  rw [Nat.mod_eq_of_lt (by omega), Nat.div_eq_of_lt (by omega), Nat.zero_mul, Nat.add_zero]
  constructor
  · rintro ⟨_, _, ends⟩
    exact ends.imp_left fun short => by omega
  · intro ends
    exact ⟨by omega, nofun, ends.imp_left fun short => by omega⟩

/-- The loop reads beyond the datagram exactly when it comes to a record that is cut. -/
theorem recordReads_inside (lock : Int → Except Failure Unit) (seq : Int) (buf : List UInt8)
    (last : Nat) (now : Int) (fuel p : Nat) (r : Receiver g) (enough : last - p ≤ fuel)
    (low : p ≤ last) :
    (∀ a ∈ recordReads lock seq buf last now fuel p r, a.Inside last) ↔
      ¬ CutRecord g lock buf p last := by
  induction fuel generalizing p r with
  | zero =>
    obtain rfl : p = last := by omega
    simp [recordReads, CutRecord]
  | succ fuel ih =>
    rw [recordReads]
    by_cases more : p < last
    · have fails := updateRecord_fails r lock seq (ntohll (ldLong buf p))
        (Value.load g buf (p + 8)) now
      simp only [if_pos more]
      by_cases takes : Takes g lock (ntohll (ldLong buf p))
      · rw [if_pos takes, if_neg (fun failed => fails.mp failed takes)]
        by_cases whole : p + (8 + g.valSize) ≤ last
        · have next : CutRecord g lock buf p last ↔
              CutRecord g lock buf (p + (8 + g.valSize)) last := by
            rw [cutRecord_next whole, and_iff_right takes]
          rw [next, ← ih _ _ (by omega) whole]
          constructor
          · intro inside a here
            exact inside a (List.mem_cons_of_mem _ (List.mem_append_right _ here))
          · intro inside a here
            rcases List.mem_cons.mp here with rfl | here
            · simp only [Access.Inside]
              omega
            rcases List.mem_append.mp here with here | here
            · obtain rfl := List.mem_singleton.mp here
              simp only [Access.Inside]
              omega
            · exact inside a here
        · -- the value reaches beyond the end
          rw [cutRecord_end more (by omega)]
          constructor
          · intro inside
            have value := inside ⟨p + 8, g.valSize⟩ (by simp)
            simp only [Access.Inside] at value
            omega
          · intro whole
            exact absurd (Or.inr takes) whole
      · rw [if_neg takes, if_pos (fails.mpr takes), List.append_nil]
        by_cases whole : p + (8 + g.valSize) ≤ last
        · rw [cutRecord_next whole]
          constructor
          · exact fun _ cut => takes cut.1
          · intro _ a here
            obtain rfl := List.mem_singleton.mp here
            simp only [Access.Inside]
            omega
        · rw [cutRecord_end more (by omega)]
          constructor
          · rintro inside (short | able)
            · have ident := inside ⟨p, 8⟩ (List.mem_singleton.mpr rfl)
              simp only [Access.Inside] at ident
              omega
            · exact takes able
          · intro long a here
            obtain rfl := List.mem_singleton.mp here
            simp only [Access.Inside]
            omega
    · obtain rfl : p = last := by omega
      simp [CutRecord]

/-- What lies behind the datagram has no part in where it is cut. -/
theorem cutRecord_append {lock : Int → Except Failure Unit} (data junk : List UInt8) (p : Nat) :
    CutRecord g lock (data ++ junk) p data.length ↔ CutRecord g lock data p data.length := by
  have same : ∀ q, q + 8 ≤ data.length → ldLong (data ++ junk) q = ldLong data q := by
    intro q inside
    rw [ldLong, peek_append_left inside, ldLong]
  have bound : (data.length - p) / (8 + g.valSize) * (8 + g.valSize) +
      (data.length - p) % (8 + g.valSize) = data.length - p := Nat.div_add_mod' _ _
  generalize hn : (data.length - p) / (8 + g.valSize) = n at bound
  generalize hm : (data.length - p) % (8 + g.valSize) = m at bound
  have whole : ∀ k < n, k * (8 + g.valSize) + (8 + g.valSize) ≤ n * (8 + g.valSize) := by
    intro k hk
    have le : (k + 1) * (8 + g.valSize) ≤ n * (8 + g.valSize) := Nat.mul_le_mul_right _ hk
    rwa [Nat.add_mul, Nat.one_mul] at le
  unfold CutRecord
  rw [hn, hm]
  refine and_congr_right fun cut => and_congr ?_ ?_
  · refine forall_congr' fun k => imp_congr_right fun hk => ?_
    have fits := whole k hk
    rw [same _ (by omega)]
  · by_cases short : m < 8
    · simp [short]
    · rw [same _ (by omega)]

/-- The statistics, with the status they end with. -/
theorem updateStats_next (r : Receiver g) (inp : McastInput) (size : Nat) :
    (updateStats r inp size).2.nextSeq = r.nextSeq ∧
      (Status.Failed (updateStats r inp size).1 ↔
        ¬ (inp.lockRecvStats.isOk ∧ inp.latencyOnSample.isOk)) := by
  unfold updateStats
  cases inp.lockRecvStats with
  | error st => exact ⟨rfl, fun _ able => Bool.false_ne_true able.1, fun _ => st.2⟩
  | ok _ =>
    cases inp.latencyOnSample with
    | error st => exact ⟨rfl, fun _ able => Bool.false_ne_true able.2, fun _ => st.2⟩
    | ok _ => exact ⟨rfl, fun failed => absurd failed (lt_irrefl _), fun unable => absurd ⟨rfl, rfl⟩ unable⟩

theorem packetReads_inside (r : Receiver g) (inp : McastInput) {data : List UInt8} (now : Int)
    (long : 16 ≤ data.length) :
    (∀ a ∈ packetReads r inp data now, a.Inside data.length) ↔
      ¬ (0 ≤ ntohll (ldLong data 0) ∧ r.nextSeq ≤ ntohll (ldLong data 0) ∧
        CutRecord g inp.lock data 16 data.length) := by
  have header : ldLong (data ++ inp.junk) 0 = ldLong data 0 := by
    rw [ldLong, peek_append_left (by omega), ldLong]
  have sequence : Access.Inside ⟨0, 8⟩ data.length := by
    simp only [Access.Inside]
    omega
  rw [packetReads, header, List.forall_mem_cons, and_iff_right sequence]
  split
  · rename_i beat
    exact ⟨fun _ cut => absurd beat (not_lt.mpr cut.1), fun _ => List.forall_mem_nil _⟩
  split
  · rename_i late
    exact ⟨fun _ cut => absurd late (not_lt.mpr cut.2.1), fun _ => List.forall_mem_nil _⟩
  · rename_i isData fresh
    rw [recordReads_inside _ _ _ _ _ _ _ _ (by omega) long, cutRecord_append, not_iff_not]
    exact ⟨fun cut => ⟨not_lt.mp isData, not_lt.mp fresh, cut⟩, fun cut => cut.2.2⟩

/-- An empty datagram is read as the end of a file. -/
theorem mcastOnRead_empty (r : Receiver g) (inp : McastInput) (got : inp.dgram = .ok []) :
    (mcastOnRead r inp).1 = Status.eof := by
  unfold mcastOnRead
  rw [got]
  rfl

/-- Every byte that is read of a datagram was received, and a datagram that is too short is
refused as a protocol error, exactly when it is not empty and the loop does not come to a record
that is cut. -/
theorem datagram_inside (r : Receiver g) (inp : McastInput) {data : List UInt8}
    (got : inp.dgram = .ok data) (source : inp.sameSource = true) :
    StaysInside r inp data ↔ data ≠ [] ∧ ¬ Truncated r inp data := by
  by_cases empty : data = []
  · subst empty
    refine iff_of_false (fun inside => ?_) (fun h => h.1 rfl)
    have refused := inside.2 (by decide) (Or.inl rfl)
    rw [mcastOnRead_empty r inp got] at refused
    revert refused
    decide
  unfold StaysInside Truncated mcastReads mcastOnRead
  rw [got, sockRecvfrom_nonempty empty, and_iff_right empty, or_iff_right empty]
  cases inp.clock with
  | error st =>
    refine ⟨fun _ cut => Bool.false_ne_true cut.2.1, fun _ => ⟨nofun, nofun⟩⟩
  | ok now =>
    dsimp only
    by_cases short : data.length < 16
    · rw [if_pos short, if_pos short]
      exact ⟨fun _ cut => absurd short (not_lt.mpr cut.1), fun _ => ⟨nofun, fun _ _ => rfl⟩⟩
    have long : 16 ≤ data.length := not_lt.mp short
    have ours : ¬ inp.sameSource = false := by simp [source]
    have stamp : Access.Inside ⟨8, 8⟩ data.length := by
      simp only [Access.Inside]
      omega
    obtain ⟨next, stats⟩ := updateStats_next { r with mcastRecvTime := now } inp data.length
    rw [if_neg short, if_neg ours, and_iff_left fun less => absurd less short,
      List.forall_mem_cons, and_iff_right stamp]
    by_cases failed : Status.Failed
      (updateStats { r with mcastRecvTime := now } inp data.length).1
    · rw [if_pos failed]
      exact ⟨fun _ cut => stats.mp failed ⟨cut.2.2.1, cut.2.2.2.1⟩, fun _ => nofun⟩
    · obtain ⟨locked, sampled⟩ := not_not.mp fun unable => failed (stats.mpr unable)
      rw [if_neg failed, packetReads_inside _ _ _ long, next, not_iff_not]
      exact ⟨fun cut => ⟨long, rfl, locked, sampled, cut⟩, fun cut => cut.2.2.2.2⟩

end Receiver

/-- A datagram of the publisher with one byte of a record behind its header. -/
def cutDatagram : List UInt8 := netLong 0 ++ netLong 0 ++ [0]

/-- The identifier of its last record is read from the buffer behind it, and an empty datagram is no
protocol error. -/
theorem datagram_overread :
    ¬ StaysInside smallReceiver (.ofDatagram cutDatagram 0) cutDatagram ∧
      ¬ StaysInside smallReceiver (.ofDatagram [] 0) [] := by
  constructor
  · intro inside
    have read : ⟨16, 8⟩ ∈ smallReceiver.mcastReads (.ofDatagram cutDatagram 0) := by decide +kernel
    have bound : 16 + 8 ≤ cutDatagram.length := inside.1 _ read
    revert bound
    decide +kernel
  · intro inside
    have refused := inside.2 (by decide) (Or.inl rfl)
    rw [mcastOnRead_empty smallReceiver _ rfl] at refused
    revert refused
    decide

theorem datagram_inside_small :
    StaysInside smallReceiver (.ofDatagram (datagram 1 (netLong 5) [(0, smallValue 7)]) 0)
      (datagram 1 (netLong 5) [(0, smallValue 7)]) := by
  apply (Receiver.datagram_inside _ _ rfl rfl).mpr
  refine ⟨by decide +kernel, ?_⟩
  rintro ⟨_, _, _, _, _, _, cut, _⟩
  revert cut
  decide +kernel

end Lancaster
