import Mathlib.Data.List.TakeWhile
import Lancaster.Base.Text
import Lancaster.StorageCreate

/-!
# Numbers and addresses from texts

`a2i` takes any result of `sscanf` but the end of the input for success, also that nothing was
converted, and it does not look at what follows the number or at its range. `sock_addr_split`
reads a port with it.
-/

namespace Lancaster

open Text

namespace Status

def invalidAddress : Int := -237
def invalidNumber : Int := -251

end Status

/-- The status that `error_msg` returns. A text that does not fit its buffer of 256 bytes runs over
the end. -/
def messageStatus (code : Int) (msg : List UInt8) : Option Int :=
    if msg.length < 256 then some code else none

/-- A conversion to an integer: `%hd`, `%ld`, `%hu`, `%u`, `%lu` and the like. -/
structure IntConv where
  isSigned : Bool
  bits : Nat
  bits_pos : 0 < bits
  bits_le : bits ≤ 64

namespace IntConv

def conv (c : IntConv) : Conv := if c.isSigned then .signed c.bits else .unsigned c.bits

/-- What is stored of a sign and a number. -/
def stored (c : IntConv) (neg : Bool) (n : Nat) : Int :=
  if c.isSigned then toSigned c.bits neg n else toUnsigned c.bits neg n

def Holds (c : IntConv) (x : Int) : Prop :=
  if c.isSigned then -2 ^ (c.bits - 1) ≤ x ∧ x < 2 ^ (c.bits - 1) else 0 ≤ x ∧ x < 2 ^ c.bits

def hu : IntConv := ⟨false, 16, by decide, by decide⟩

end IntConv

/-- The status and the variable, which is only changed by a conversion. -/
def a2i (text : List UInt8) (c : IntConv) (num : Int) : Option (Int × Int) :=
  let items := sscanf [.conv c.conv] text
  let result : Int := if text.all isSpace then -1 else conversions items
  let num := match items with
    | .num x :: _ => x
    | _ => num
  if result ≠ -1 then some (Status.ok, num)
  else (messageStatus Status.invalidNumber (ascii "invalid number: \"" ++ text ++ ascii "\"")).map (·, num)

/-- The status, the address and the port. -/
def sockAddrSplit (addrAndPort : List UInt8) (addrSz : Nat) (paddr : List UInt8) (pport : Int) :
    Option (Int × List UInt8 × Int) :=
  if addrSz = 0 then some (Status.invalidArg, paddr, pport)
  else
    let addr := addrAndPort.takeWhile (· != 58)
    match addrAndPort.dropWhile (· != 58) with
    | [] =>
      (messageStatus Status.invalidAddress
        (ascii "sock_addr_split: invalid address: \"" ++ addrAndPort ++ ascii "\"")).map (·, paddr, pport)
    | _ :: rest =>
      if addr.length ≥ addrSz then
        (messageStatus Status.bufferTooSmall (ascii "sock_addr_split: buffer too small")).map
          (·, paddr, pport)
      else (a2i rest IntConv.hu pport).map fun (st, pport) => (st, addr, pport)

/-! ## The number of a text -/

/-- A numeral, perhaps signed, with nothing but white space around it. -/
def Denotes (text : List UInt8) (x : Int) : Prop :=
  ∃ sp sgn ds sp', Blank sp ∧ Blank sp' ∧ text = sp ++ (sgn ++ (ds ++ sp')) ∧
    (sgn = [] ∨ sgn = [43] ∨ sgn = [45]) ∧ ds ≠ [] ∧ (∀ b ∈ ds, isDigit b = true) ∧
    x = if sgn = [45] then -(valueOf ds : Int) else valueOf ds

theorem takeSign_split (s : List UInt8) :
    ∃ sgn, (sgn = [] ∨ sgn = [43] ∨ sgn = [45]) ∧ s = sgn ++ (takeSign s).2 ∧
      (takeSign s).1 = decide (sgn = [45]) := by
  cases s with
  | nil => exact ⟨[], Or.inl rfl, rfl, rfl⟩
  | cons b s =>
    by_cases minus : b = 45
    · subst minus
      exact ⟨[45], Or.inr (Or.inr rfl), rfl, rfl⟩
    · by_cases plus : b = 43
      · subst plus
        exact ⟨[43], Or.inr (Or.inl rfl), rfl, rfl⟩
      · refine ⟨[], Or.inl rfl, ?_, ?_⟩ <;> simp [takeSign, minus, plus]

/-- A number with either sign is read up to its end. -/
theorem scanNumber_signed {sp sgn ds rest : List UInt8} (blank : Blank sp)
    (signs : sgn = [] ∨ sgn = [43] ∨ sgn = [45]) (nonempty : ds ≠ [])
    (digits : ∀ b ∈ ds, isDigit b = true) (ended : Ended rest) :
    scanNumber (sp ++ (sgn ++ (ds ++ rest))) = some (decide (sgn = [45]), valueOf ds, rest) := by
  rcases signs with rfl | rfl | rfl
  · exact scanNumber_digits blank false digits nonempty ended
  · unfold scanNumber
    rw [blank.dropWhile_append, dropWhile_solid (by rintro b ⟨⟩; decide)]
    have signless : takeSign ([43] ++ (ds ++ rest)) = (false, ds ++ rest) := rfl
    rw [signless]
    dsimp only
    rw [takeWhile_ended digits ended.not_digit, dropWhile_ended digits ended.not_digit,
      if_neg nonempty]
    rfl
  · exact scanNumber_digits blank true digits nonempty ended

/-- A text denotes what is read of it, if only white space is left. -/
theorem denotes_iff {text : List UInt8} {x : Int} :
    Denotes text x ↔ ∃ neg n rest, scanNumber text = some (neg, n, rest) ∧ Blank rest ∧
      x = if neg then -(n : Int) else n := by
  constructor
  · rintro ⟨sp, sgn, ds, sp', blank, blank', rfl, signs, nonempty, digits, rfl⟩
    refine ⟨_, _, _, scanNumber_signed blank signs nonempty digits (head_mem blank'), blank', ?_⟩
    simp
  · rintro ⟨neg, n, rest, read, blank, rfl⟩
    obtain ⟨sgn, signs, parts, neg_eq⟩ := takeSign_split (text.dropWhile isSpace)
    unfold scanNumber at read
    rcases signless : takeSign (text.dropWhile isSpace) with ⟨neg', s⟩
    rw [signless] at read parts neg_eq
    dsimp only at read parts neg_eq
    split at read
    · cases read
    · rename_i nonempty
      cases read
      refine ⟨text.takeWhile isSpace, sgn, s.takeWhile isDigit, s.dropWhile isDigit, ?_, blank, ?_,
        signs, nonempty, ?_, ?_⟩
      · exact fun b here => List.mem_takeWhile_imp here
      · rw [List.takeWhile_append_dropWhile, ← parts, List.takeWhile_append_dropWhile]
      · exact fun b here => List.mem_takeWhile_imp here
      · rw [neg_eq]
        simp

/-- What is stored by `%d` is in range, whatever was read. -/
theorem toSigned_range {bits : Nat} (pos : 0 < bits) (neg : Bool) (n : Nat) :
    -2 ^ (bits - 1) ≤ toSigned bits neg n ∧ toSigned bits neg n < 2 ^ (bits - 1) := by
  have double : (2 : Int) ^ bits = 2 * 2 ^ (bits - 1) := by
    obtain ⟨k, rfl⟩ : ∃ k, bits = k + 1 := ⟨bits - 1, by omega⟩
    rw [Nat.add_sub_cancel, pow_succ']
  have half : (0 : Int) < 2 ^ (bits - 1) := by positivity
  unfold toSigned
  dsimp only
  rw [double]
  generalize max (-2 ^ 63) (min (2 ^ 63 - 1) (if neg = true then -(n : Int) else n)) + 2 ^ (bits - 1) = x
  have nonneg := Int.emod_nonneg x (show (2 * 2 ^ (bits - 1) : Int) ≠ 0 by omega)
  have less := Int.emod_lt_of_pos x (show (0 : Int) < 2 * 2 ^ (bits - 1) by omega)
  constructor <;> omega

/-- Zero has no sign. -/
theorem toSigned_value {bits : Nat} (neg : Bool) (n : Nat) {x : Int}
    (value : x = if neg then -(n : Int) else n) :
    toSigned bits neg n = toSigned bits (decide (x < 0)) x.natAbs := by
  have same : (if decide (x < 0) = true then -(x.natAbs : Int) else x.natAbs) =
    if neg then -(n : Int) else n := by
    rw [← value]
    by_cases negative : x < 0
    · simp only [negative, decide_true, ↓reduceIte]
      omega
    · simp only [negative, decide_false, Bool.false_eq_true, ↓reduceIte]
      omega
  unfold toSigned
  rw [same]

/-- What is stored is the number exactly if the variable can hold it. -/
theorem IntConv.stored_iff (c : IntConv) {neg : Bool} {n : Nat} {x : Int}
    (value : x = if neg then -(n : Int) else n) : c.stored neg n = x ↔ c.Holds x := by
  obtain ⟨isSigned, bits, pos, le⟩ := c
  unfold stored Holds
  cases isSigned with
  | true =>
    simp only [↓reduceIte]
    constructor
    · rintro rfl
      exact toSigned_range pos neg n
    · rintro ⟨low, high⟩
      rw [toSigned_value neg n value]
      exact toSigned_of_range pos le low high
  | false =>
    simp only [Bool.false_eq_true, ↓reduceIte]
    constructor
    · rintro rfl
      unfold toUnsigned
      dsimp only
      refine ⟨Int.natCast_nonneg _, ?_⟩
      exact_mod_cast Nat.mod_lt _ (Nat.two_pow_pos bits)
    · rintro ⟨low, high⟩
      cases neg with
      | false =>
        simp only [Bool.false_eq_true, ↓reduceIte] at value
        rw [value] at high ⊢
        apply toUnsigned_of_lt _ le
        exact_mod_cast high
      | true =>
        simp only [↓reduceIte] at value
        obtain rfl : n = 0 := by omega
        rw [value]
        simp [toUnsigned]

/-! ## `a2i` -/

/-- The call is defined, and success means that the number has been stored. -/
def A2iRight (text : List UInt8) (c : IntConv) (num : Int) : Prop :=
  ∃ st stored, a2i text c num = some (st, stored) ∧ (st = Status.ok → Denotes text stored)

/-- The text is blank, and short enough for the message; or it denotes a number that the variable
can hold. -/
def A2iText (text : List UInt8) (c : IntConv) : Prop :=
  (Blank text ∧ text.length < 238) ∨ ∃ x, Denotes text x ∧ c.Holds x

theorem scan_conv (c : IntConv) (text : List UInt8) :
    sscanf [.conv c.conv] text =
      match scanNumber text with
      | none => []
      | some (neg, n, _) => [.num (c.stored neg n)] := by
  obtain ⟨isSigned, bits, pos, le⟩ := c
  unfold sscanf scan IntConv.conv IntConv.stored Conv.scan
  cases isSigned <;> cases scanNumber text <;> rfl

theorem scanNumber_blank {text : List UInt8} (blank : Blank text) : scanNumber text = none := by
  rw [scanNumber, blank.dropWhile]
  rfl

theorem a2i_blank {text : List UInt8} (blank : Blank text) (c : IntConv) (num : Int) :
    a2i text c num = if text.length < 238 then some (Status.invalidNumber, num) else none := by
  have length : (ascii "invalid number: \"" ++ text ++ ascii "\"").length = text.length + 18 := by
    rw [List.length_append, List.length_append]
    have : (ascii "invalid number: \"").length = 17 ∧ (ascii "\"").length = 1 := by decide
    omega
  unfold a2i messageStatus
  dsimp only
  rw [scan_conv, scanNumber_blank blank, length, if_pos (blank_iff.mp blank)]
  by_cases short : text.length < 238
  · rw [if_pos short, if_pos (show text.length + 18 < 256 by omega)]
    rfl
  · rw [if_neg short, if_neg (show ¬ text.length + 18 < 256 by omega)]
    rfl

/-- A text that is not blank is a success, whether a number was read or not. -/
theorem a2i_solid {text : List UInt8} (solid : ¬ Blank text) (c : IntConv) (num : Int) :
    a2i text c num = some (Status.ok,
      match scanNumber text with
      | none => num
      | some (neg, n, _) => c.stored neg n) := by
  unfold a2i
  dsimp only
  rw [scan_conv, if_neg fun all => solid (blank_iff.mpr all)]
  cases scanNumber text with
  | none => rfl
  | some read => rfl

theorem a2i_iff (text : List UInt8) (c : IntConv) (num : Int) :
    A2iRight text c num ↔ A2iText text c := by
  by_cases blank : Blank text
  · have refused (x : Int) : ¬ Denotes text x := by
      rw [denotes_iff, scanNumber_blank blank]
      rintro ⟨neg, n, rest, read, _⟩
      cases read
    have only : A2iText text c ↔ text.length < 238 :=
      ⟨fun h => h.elim And.right fun ⟨x, denotes, _⟩ => absurd denotes (refused x),
        fun short => Or.inl ⟨blank, short⟩⟩
    unfold A2iRight
    rw [only, a2i_blank blank]
    split
    · rename_i short
      refine iff_of_true ⟨_, _, rfl, ?_⟩ short
      intro ok
      cases ok
    · rename_i long
      refine iff_of_false ?_ long
      rintro ⟨st, stored, eq, _⟩
      cases eq
  · have only : A2iText text c ↔ ∃ x, Denotes text x ∧ c.Holds x := or_iff_right fun h => blank h.1
    have right : A2iRight text c num ↔ Denotes text (match scanNumber text with
        | none => num
        | some (neg, n, _) => c.stored neg n) := by
      unfold A2iRight
      rw [a2i_solid blank]
      constructor
      · rintro ⟨st, stored, eq, denotes⟩
        cases eq
        exact denotes rfl
      · exact fun denotes => ⟨_, _, rfl, fun _ => denotes⟩
    rw [only, right]
    simp only [denotes_iff]
    rcases read : scanNumber text with _ | ⟨neg, n, rest⟩
    · refine iff_of_false ?_ ?_
      · rintro ⟨neg, n, rest, found, _⟩
        cases found
      · rintro ⟨x, ⟨neg, n, rest, found, _⟩, _⟩
        cases found
    · dsimp only
      constructor
      · rintro ⟨_, _, _, ⟨⟩, blank, value⟩
        exact ⟨_, ⟨neg, n, rest, rfl, blank, rfl⟩, (c.stored_iff rfl).mp value⟩
      · rintro ⟨x, ⟨_, _, _, ⟨⟩, blank, value⟩, holds⟩
        exact ⟨neg, n, rest, rfl, blank, ((c.stored_iff value).mpr holds).trans value⟩

/-! ## `sock_addr_split` -/

/-- An address that fits the buffer, a colon and a decimal port. -/
def IsAddress (text : List UInt8) (addrSz : Nat) (addr : List UInt8) (port : Int) : Prop :=
  ∃ ds, text = addr ++ 58 :: ds ∧ (58 : UInt8) ∉ addr ∧ addr.length < addrSz ∧
    ds ≠ [] ∧ (∀ b ∈ ds, isDigit b = true) ∧ valueOf ds < 65536 ∧ port = valueOf ds

/-- The call is defined, it succeeds exactly for an address with a port, and then stores both. -/
def SplitRight (text : List UInt8) (addrSz : Nat) (paddr : List UInt8) (pport : Int) : Prop :=
  ∃ st addr port, sockAddrSplit text addrSz paddr pport = some (st, addr, port) ∧
    ((st = Status.ok ∧ IsAddress text addrSz addr port) ∨
      (Status.Failed st ∧ ∀ addr port, ¬ IsAddress text addrSz addr port))

/-- There is no colon, and the text is short enough for the message; or the address does not fit; or
the port is blank and short enough, or it is a decimal number in range. -/
def SplitText (text : List UInt8) (addrSz : Nat) : Prop :=
  match text.dropWhile (· != 58) with
  | [] => addrSz = 0 ∨ text.length < 220
  | _ :: port => addrSz ≤ (text.takeWhile (· != 58)).length ∨ (Blank port ∧ port.length < 238) ∨
    (port ≠ [] ∧ (∀ b ∈ port, isDigit b = true) ∧ valueOf port < 65536)

section Split

variable {text : List UInt8}

/-- The address of a text is what comes before the first colon. -/
theorem isAddress_iff {addrSz : Nat} {addr : List UInt8} {port : Int} :
    IsAddress text addrSz addr port ↔ ∃ ds, text.dropWhile (· != 58) = 58 :: ds ∧
      addr = text.takeWhile (· != 58) ∧ addr.length < addrSz ∧
      ds ≠ [] ∧ (∀ b ∈ ds, isDigit b = true) ∧ valueOf ds < 65536 ∧ port = valueOf ds := by
  constructor
  · rintro ⟨ds, rfl, colonless, fits, nonempty, digits, less, rfl⟩
    have before : ∀ b ∈ addr, (b != 58) = true := by
      intro b here
      rw [bne_iff_ne]
      rintro rfl
      exact colonless here
    have stop : ∀ b ∈ (58 :: ds).head?, (b != 58) = false := by
      rintro b ⟨⟩
      rfl
    exact ⟨ds, dropWhile_ended before stop, (takeWhile_ended before stop).symm, fits, nonempty,
      digits, less, rfl⟩
  · rintro ⟨ds, after, rfl, fits, nonempty, digits, less, rfl⟩
    refine ⟨ds, ?_, ?_, fits, nonempty, digits, less, rfl⟩
    · rw [← after, List.takeWhile_append_dropWhile]
    · intro here
      have := List.mem_takeWhile_imp here
      simp at this

theorem head_colon {b : UInt8} {rest : List UInt8} (after : text.dropWhile (· != 58) = b :: rest) :
    b = 58 := by
  have nonempty : text.dropWhile (· != 58) ≠ [] := by
    rw [after]
    exact List.cons_ne_nil b rest
  have first := List.head_dropWhile_not (p := (· != 58)) nonempty
  simp only [after, List.head_cons, bne_eq_false_iff_eq] at first
  exact first

/-- The conversion of a port is right about it exactly if it is blank or all digits, in range. -/
theorem port_iff {port : List UInt8} {pport : Int} :
    (∃ st x, a2i port IntConv.hu pport = some (st, x) ∧
      ((st = Status.ok ∧ port ≠ [] ∧ (∀ b ∈ port, isDigit b = true) ∧ valueOf port < 65536 ∧
        x = valueOf port) ∨
        (Status.Failed st ∧ ¬ (port ≠ [] ∧ (∀ b ∈ port, isDigit b = true) ∧ valueOf port < 65536)))) ↔
    (Blank port ∧ port.length < 238) ∨
      (port ≠ [] ∧ (∀ b ∈ port, isDigit b = true) ∧ valueOf port < 65536) := by
  by_cases blank : Blank port
  · have missing : ¬ (port ≠ [] ∧ (∀ b ∈ port, isDigit b = true) ∧ valueOf port < 65536) := by
      rintro ⟨nonempty, digits, _⟩
      obtain ⟨b, rest, rfl⟩ := List.exists_cons_of_ne_nil nonempty
      have digit := isSpace_not_digit (blank b (List.mem_cons_self ..))
      rw [digits b (List.mem_cons_self ..)] at digit
      cases digit
    rw [a2i_blank blank, or_iff_left missing]
    split
    · rename_i short
      exact iff_of_true
        ⟨_, _, rfl, Or.inr ⟨(by decide : Status.Failed Status.invalidNumber), missing⟩⟩ ⟨blank, short⟩
    · rename_i long
      refine iff_of_false ?_ fun h => long h.2
      rintro ⟨st, x, eq, _⟩
      cases eq
  · rw [a2i_solid blank, or_iff_right fun h => blank h.1]
    constructor
    · rintro ⟨st, x, eq, ⟨_, nonempty, digits, less, _⟩ | ⟨failed, _⟩⟩
      · exact ⟨nonempty, digits, less⟩
      · cases eq
        exact absurd failed (by decide)
    · rintro ⟨nonempty, digits, less⟩
      have read : scanNumber port = some (false, valueOf port, []) := by
        have nothing : Blank [] := fun b here => absurd here List.not_mem_nil
        have whole : scanNumber ([] ++ (sign false ++ (port ++ []))) =
          some (false, valueOf port, []) :=
          scanNumber_digits nothing false digits nonempty (head_mem nothing)
        rwa [List.append_nil] at whole
      refine ⟨_, _, rfl, Or.inl ⟨rfl, nonempty, digits, less, ?_⟩⟩
      rw [read]
      exact toUnsigned_of_lt less (by decide)

/-- A failing status is right for a text that is no address. -/
theorem splitRight_failed {addrSz : Nat} {paddr addr : List UInt8} {pport port st : Int}
    (eq : sockAddrSplit text addrSz paddr pport = some (st, addr, port)) (failed : Status.Failed st)
    (refused : ∀ addr port, ¬ IsAddress text addrSz addr port) :
    SplitRight text addrSz paddr pport :=
  ⟨st, addr, port, eq, Or.inr ⟨failed, refused⟩⟩

theorem split_no_colon (after : text.dropWhile (· != 58) = []) (addrSz : Nat) (paddr : List UInt8)
    (pport : Int) :
    SplitRight text addrSz paddr pport ↔ addrSz = 0 ∨ text.length < 220 := by
  have refused (addr : List UInt8) (port : Int) : ¬ IsAddress text addrSz addr port := by
    rw [isAddress_iff, after]
    rintro ⟨ds, colon, _⟩
    cases colon
  have length : (ascii "sock_addr_split: invalid address: \"" ++ text ++ ascii "\"").length =
      text.length + 36 := by
    rw [List.length_append, List.length_append]
    have : (ascii "sock_addr_split: invalid address: \"").length = 35 ∧ (ascii "\"").length = 1 := by decide
    omega
  by_cases zero : addrSz = 0
  · refine iff_of_true ?_ (Or.inl zero)
    exact splitRight_failed (by rw [sockAddrSplit, if_pos zero])
      (by decide : Status.Failed Status.invalidArg) refused
  · have called : sockAddrSplit text addrSz paddr pport =
        (if text.length + 36 < 256 then some Status.invalidAddress else none).map (·, paddr, pport) := by
      rw [sockAddrSplit, if_neg zero, after]
      dsimp only
      rw [messageStatus, length]
    rw [or_iff_right zero]
    by_cases short : text.length < 220
    · rw [if_pos (by omega)] at called
      exact iff_of_true
        (splitRight_failed called (by decide : Status.Failed Status.invalidAddress) refused) short
    · rw [if_neg (by omega)] at called
      refine iff_of_false ?_ short
      rintro ⟨st, addr, port, eq, _⟩
      rw [called] at eq
      cases eq

theorem split_colon {port : List UInt8} (after : text.dropWhile (· != 58) = 58 :: port)
    (addrSz : Nat) (paddr : List UInt8) (pport : Int) :
    SplitRight text addrSz paddr pport ↔ addrSz ≤ (text.takeWhile (· != 58)).length ∨
      (Blank port ∧ port.length < 238) ∨
      (port ≠ [] ∧ (∀ b ∈ port, isDigit b = true) ∧ valueOf port < 65536) := by
  by_cases long : addrSz ≤ (text.takeWhile (· != 58)).length
  · refine iff_of_true ?_ (Or.inl long)
    have refused (addr : List UInt8) (port : Int) : ¬ IsAddress text addrSz addr port := by
      rw [isAddress_iff]
      rintro ⟨ds, _, rfl, fits, _⟩
      omega
    by_cases zero : addrSz = 0
    · exact splitRight_failed (by rw [sockAddrSplit, if_pos zero])
        (by decide : Status.Failed Status.invalidArg) refused
    · have called : sockAddrSplit text addrSz paddr pport =
        some (Status.bufferTooSmall, paddr, pport) := by
        rw [sockAddrSplit, if_neg zero, after]
        dsimp only
        rw [if_pos long, messageStatus, if_pos (by decide)]
        rfl
      exact splitRight_failed called (by decide : Status.Failed Status.bufferTooSmall) refused
  · have fits : (text.takeWhile (· != 58)).length < addrSz := by omega
    have called : sockAddrSplit text addrSz paddr pport =
        (a2i port IntConv.hu pport).map fun (st, pport) => (st, text.takeWhile (· != 58), pport) := by
      rw [sockAddrSplit, if_neg (by omega), after]
      dsimp only
      rw [if_neg (by omega)]
    have address (x : Int) : IsAddress text addrSz (text.takeWhile (· != 58)) x ↔
        port ≠ [] ∧ (∀ b ∈ port, isDigit b = true) ∧ valueOf port < 65536 ∧ x = valueOf port := by
      rw [isAddress_iff, after]
      constructor
      · rintro ⟨ds, ⟨⟩, _, _, parts⟩
        exact parts
      · exact fun parts => ⟨port, rfl, rfl, fits, parts⟩
    have ported := @port_iff port pport
    rw [or_iff_right long, ← ported]
    unfold SplitRight
    rw [called]
    constructor
    · rintro ⟨st, addr, x, eq, result⟩
      obtain ⟨⟨st', x'⟩, converted, mapped⟩ := Option.map_eq_some_iff.mp eq
      cases mapped
      refine ⟨st, x, converted, ?_⟩
      rcases result with ⟨ok, is⟩ | ⟨failed, refused⟩
      · exact Or.inl ⟨ok, (address x).mp is⟩
      · refine Or.inr ⟨failed, fun ⟨nonempty, digits, less⟩ => ?_⟩
        exact refused _ _ ((address (valueOf port)).mpr ⟨nonempty, digits, less, rfl⟩)
    · rintro ⟨st, x, converted, result⟩
      refine ⟨st, text.takeWhile (· != 58), x, by rw [converted]; rfl, ?_⟩
      rcases result with ⟨ok, parts⟩ | ⟨failed, nothing⟩
      · exact Or.inl ⟨ok, (address x).mpr parts⟩
      · refine Or.inr ⟨failed, ?_⟩
        intro addr y is
        obtain ⟨_, _, same, _⟩ := isAddress_iff.mp is
        rw [same] at is
        obtain ⟨nonempty, digits, less, _⟩ := (address y).mp is
        exact nothing ⟨nonempty, digits, less⟩

theorem split_iff (text : List UInt8) (addrSz : Nat) (paddr : List UInt8) (pport : Int) :
    SplitRight text addrSz paddr pport ↔ SplitText text addrSz := by
  unfold SplitText
  split
  · rename_i after
    exact split_no_colon after addrSz paddr pport
  · rename_i b port after
    obtain rfl := head_colon after
    exact split_colon after addrSz paddr pport

end Split

/-- For every text, conversion and buffer: success of `a2i` means that the number has been stored,
and `sock_addr_split` succeeds exactly for an address with a port and stores them, if and only if
the text is of the kinds for which `sscanf` alone decides rightly. -/
theorem texts_validated (text : List UInt8) (c : IntConv) (num : Int) (addrSz : Nat)
    (paddr : List UInt8) (pport : Int) :
    (A2iRight text c num ↔ A2iText text c) ∧
    (SplitRight text addrSz paddr pport ↔ SplitText text addrSz) :=
  ⟨a2i_iff text c num, split_iff text addrSz paddr pport⟩

/-- A word is accepted as a number, and nothing is stored; and so is a word for a port. -/
theorem words_accepted :
    a2i (ascii "abc") IntConv.hu 9 = some (Status.ok, 9) ∧ ¬ A2iRight (ascii "abc") IntConv.hu 9 ∧
    sockAddrSplit (ascii "host:http") 16 [] 9 = some (Status.ok, ascii "host", 9) ∧
    ¬ SplitRight (ascii "host:http") 16 [] 9 := by
  have word : ¬ A2iText (ascii "abc") IntConv.hu := by
    rintro (⟨blank, _⟩ | ⟨x, denotes, _⟩)
    · exact absurd (blank_iff.mp blank) (by decide)
    · obtain ⟨neg, n, rest, read, _⟩ := denotes_iff.mp denotes
      have absent : scanNumber (ascii "abc") = none := by decide
      rw [absent] at read
      cases read
  have port : ¬ SplitText (ascii "host:http") 16 := by
    rintro (long | ⟨blank, _⟩ | ⟨_, digits, _⟩)
    · exact absurd long (by decide)
    · exact absurd (blank 104 (by decide)) (by decide)
    · exact absurd (digits 104 (by decide)) (by decide)
  refine ⟨by decide, fun right => word ((a2i_iff ..).mp right), by decide,
    fun right => port ((split_iff ..).mp right)⟩

end Lancaster
