import Mathlib.Data.Int.Basic
import Mathlib.Data.Nat.Log
import Mathlib.Tactic.NormNum

/-!
# Formatted text

What `sprintf` makes of a number, and what `sscanf` makes of a text. A text is the list of its
bytes, without the final zero. A conversion passes over white space, takes what it can, and
leaves the rest; white space in a format matches any amount of it, none included, and neither it
nor `%n` fails at the end of a text. A number that is out of range is clipped to the range of a
long and then cut to the size of the variable.
-/

namespace Text

/-- `isspace` in the C locale. -/
def isSpace (b : UInt8) : Bool := b == 32 || (9 ≤ b && b ≤ 13)

def isDigit (b : UInt8) : Bool := 48 ≤ b && b ≤ 57

def ofChar (c : Char) : UInt8 := UInt8.ofNat c.toNat

def ascii (s : String) : List UInt8 := s.toList.map ofChar

def crlf : List UInt8 := [13, 10]

/-- `%u` and `%lu`. -/
def decimal (n : Nat) : List UInt8 := (Nat.toDigits 10 n).map ofChar

/-- `%d` and `%ld`. -/
def signed (x : Int) : List UInt8 :=
  if x < 0 then 45 :: decimal x.natAbs else decimal x.natAbs

def valueOf (digits : List UInt8) : Nat := digits.foldl (fun n b => 10 * n + (b.toNat - 48)) 0

/-! ## Conversions -/

inductive Item where
  | num (x : Int)
  | text (bs : List UInt8)
  | count (n : Nat)
  deriving DecidableEq

/-- A conversion and the size of its variable: in bits, and for a word in bytes. -/
inductive Conv where
  | unsigned (bits : Nat)
  | signed (bits : Nat)
  | word (width : Nat)

def takeSign : List UInt8 → Bool × List UInt8
  | [] => (false, [])
  | b :: rest => if b = 45 then (true, rest) else if b = 43 then (false, rest) else (false, b :: rest)

/-- A sign and digits, at least one. -/
def scanNumber (s : List UInt8) : Option (Bool × Nat × List UInt8) :=
  let (neg, s) := takeSign (s.dropWhile isSpace)
  if s.takeWhile isDigit = [] then none
  else some (neg, valueOf (s.takeWhile isDigit), s.dropWhile isDigit)

/-- `strtoul`, cut to `bits`. -/
def toUnsigned (bits : Nat) (neg : Bool) (n : Nat) : Int :=
  let v : Nat := if 2 ^ 64 ≤ n then 2 ^ 64 - 1 else if neg then (2 ^ 64 - n) % 2 ^ 64 else n
  (v % 2 ^ bits : Nat)

/-- `strtol`, cut to `bits`. -/
def toSigned (bits : Nat) (neg : Bool) (n : Nat) : Int :=
  let x : Int := max (-2 ^ 63) (min (2 ^ 63 - 1) (if neg then -n else n))
  (x + 2 ^ (bits - 1)) % 2 ^ bits - 2 ^ (bits - 1)

def Conv.scan (s : List UInt8) : Conv → Option (Item × List UInt8)
  | .unsigned bits => (scanNumber s).map fun (neg, n, rest) => (.num (toUnsigned bits neg n), rest)
  | .signed bits => (scanNumber s).map fun (neg, n, rest) => (.num (toSigned bits neg n), rest)
  | .word width =>
    let s := s.dropWhile isSpace
    let w := (s.takeWhile fun b => ! isSpace b).take width
    if w = [] then none else some (.text w, s.drop w.length)

/-! ## Formats -/

inductive Directive where
  | space
  | conv (c : Conv)
  | count

/-- The items that `sscanf` assigns before a conversion fails; `total` is the length of the whole
text. -/
def scan (total : Nat) : List Directive → List UInt8 → List Item
  | [], _ => []
  | .space :: fmt, s => scan total fmt (s.dropWhile isSpace)
  | .count :: fmt, s => .count (total - s.length) :: scan total fmt s
  | .conv c :: fmt, s =>
    match c.scan s with
    | none => []
    | some (item, rest) => item :: scan total fmt rest

def sscanf (fmt : List Directive) (s : List UInt8) : List Item := scan s.length fmt s

/-- The number of conversions, which is what `sscanf` returns unless the text ends before the
first. -/
def conversions (items : List Item) : Nat :=
  (items.filter fun
    | .count _ => false
    | _ => true).length

/-! ## Digits -/

theorem ofChar_digit {c : Char} (h : c.isDigit = true) :
    isDigit (ofChar c) = true ∧ (ofChar c).toNat = c.toNat := by
  have range : 48 ≤ c.toNat ∧ c.toNat ≤ 57 := by
    simp only [Char.isDigit, ge_iff_le, Bool.and_eq_true, decide_eq_true_eq] at h
    exact h
  have small : (ofChar c).toNat = c.toNat := by
    rw [ofChar, UInt8.toNat_ofNat']
    omega
  refine ⟨?_, small⟩
  simp only [isDigit, Bool.and_eq_true, decide_eq_true_eq, UInt8.le_iff_toNat_le, small]
  exact range

theorem isDigit_not_space {b : UInt8} (h : isDigit b = true) : isSpace b = false := by
  simp only [isDigit, Bool.and_eq_true, decide_eq_true_eq, UInt8.le_iff_toNat_le] at h
  have low : 48 ≤ b.toNat := h.1
  simp only [isSpace, Bool.or_eq_false_iff, beq_eq_false_iff_ne, Bool.and_eq_false_imp,
    decide_eq_true_eq, decide_eq_false_iff_not, UInt8.le_iff_toNat_le]
  constructor
  · rintro rfl
    revert low
    decide
  · intro _ high
    have high' : b.toNat ≤ 13 := high
    omega

theorem decimal_digits (n : Nat) : ∀ b ∈ decimal n, isDigit b = true := by
  intro b here
  obtain ⟨c, digit, rfl⟩ := List.mem_map.mp here
  exact (ofChar_digit (Nat.isDigit_of_mem_toDigits (by decide) (by decide) digit)).1

theorem decimal_nonzero {n : Nat} {b : UInt8} (here : b ∈ decimal n) : b ≠ 0 := by
  rintro rfl
  have digit := decimal_digits n 0 here
  revert digit
  decide

theorem signed_nonzero {x : Int} {b : UInt8} (here : b ∈ signed x) : b ≠ 0 := by
  unfold signed at here
  split at here
  · rcases List.mem_cons.mp here with rfl | here
    · decide
    · exact decimal_nonzero here
  · exact decimal_nonzero here

theorem decimal_ne_nil (n : Nat) : decimal n ≠ [] := by
  simp [decimal]

/-- What is printed is read back. -/
theorem valueOf_decimal (n : Nat) : valueOf (decimal n) = n := by
  have same : ∀ (cs : List Char) (m : Nat), (∀ c ∈ cs, c.isDigit = true) →
      (cs.map ofChar).foldl (fun n b => 10 * n + (b.toNat - 48)) m = Nat.ofDigitChars 10 cs m := by
    intro cs
    induction cs with
    | nil =>
      intro m _
      rfl
    | cons c cs ih =>
      intro m all
      have first := (ofChar_digit (all c (List.mem_cons_self ..))).2
      rw [List.map_cons, List.foldl_cons, ih _ fun c' here => all c' (List.mem_cons_of_mem _ here),
        Nat.ofDigitChars_cons, first]
      rfl
  rw [valueOf, decimal, same _ 0 fun c here =>
    Nat.isDigit_of_mem_toDigits (by decide) (by decide) here]
  exact Nat.ofDigitChars_ten_toDigits

theorem length_decimal_le {n k : Nat} (pos : 0 < k) : (decimal n).length ≤ k ↔ n < 10 ^ k := by
  rw [decimal, List.length_map]
  exact Nat.length_toDigits_le_iff (by decide) pos

/-- The number of digits. -/
theorem length_decimal (n : Nat) : (decimal n).length = Nat.log 10 n + 1 := by
  have least : ∀ k, 0 < k → ((decimal n).length ≤ k ↔ Nat.log 10 n + 1 ≤ k) := by
    intro k pos
    rw [length_decimal_le pos]
    by_cases zero : n = 0
    · subst zero
      simp only [Nat.log_zero_right]
      exact ⟨fun _ => pos, fun _ => Nat.pow_pos (by decide)⟩
    · rw [← Nat.log_lt_iff_lt_pow (by decide) zero]
      exact Iff.rfl
  have pos : 0 < (decimal n).length := List.length_pos_iff.mpr (decimal_ne_nil n)
  apply Nat.le_antisymm
  · exact (least _ (Nat.succ_pos _)).mpr (Nat.le_refl _)
  · exact (least _ pos).mp (Nat.le_refl _)

/-- The number of bytes of a printed number. -/
def width (x : Int) : Nat := (if x < 0 then 1 else 0) + (Nat.log 10 x.natAbs + 1)

theorem length_signed (x : Int) : (signed x).length = width x := by
  unfold signed width
  split
  · rw [List.length_cons, length_decimal, Nat.add_comm]
  · rw [length_decimal, Nat.zero_add]

/-! ## Conversions of what was printed -/

def Blank (s : List UInt8) : Prop := ∀ b ∈ s, isSpace b = true

theorem blank_iff {s : List UInt8} : Blank s ↔ s.all isSpace = true := by
  simp [Blank]

/-- The text is over, or goes on with white space. -/
def Ended (s : List UInt8) : Prop := ∀ b ∈ s.head?, isSpace b = true

variable {sp s rest : List UInt8}

theorem Blank.dropWhile (h : Blank sp) : sp.dropWhile isSpace = [] := by
  induction sp with
  | nil => rfl
  | cons b sp ih =>
    rw [List.dropWhile_cons_of_pos (h b (List.mem_cons_self ..))]
    exact ih fun b' here => h b' (List.mem_cons_of_mem _ here)

theorem Blank.dropWhile_append (h : Blank sp) (s : List UInt8) :
    (sp ++ s).dropWhile isSpace = s.dropWhile isSpace :=
  List.dropWhile_append_of_pos h

theorem dropWhile_solid (solid : ∀ b ∈ s.head?, isSpace b = false) : s.dropWhile isSpace = s := by
  cases s with
  | nil => rfl
  | cons b s => exact List.dropWhile_cons_of_neg (by rw [solid b rfl]; decide)

theorem head?_append_left (nonempty : s ≠ []) (rest : List UInt8) :
    (s ++ rest).head? = s.head? := by
  cases s with
  | nil => exact absurd rfl nonempty
  | cons b s => rfl

theorem takeWhile_ended {p : UInt8 → Bool} (all : ∀ b ∈ s, p b = true)
    (stop : ∀ b ∈ rest.head?, p b = false) : (s ++ rest).takeWhile p = s := by
  rw [List.takeWhile_append_of_pos all]
  cases rest with
  | nil => simp
  | cons b rest => rw [List.takeWhile_cons_of_neg (by rw [stop b rfl]; decide), List.append_nil]

theorem takeWhile_all {p : UInt8 → Bool} (all : ∀ b ∈ s, p b = true) : s.takeWhile p = s := by
  have whole : (s ++ []).takeWhile p = s := takeWhile_ended all nofun
  rwa [List.append_nil] at whole

theorem dropWhile_ended {p : UInt8 → Bool} (all : ∀ b ∈ s, p b = true)
    (stop : ∀ b ∈ rest.head?, p b = false) : (s ++ rest).dropWhile p = rest := by
  rw [List.dropWhile_append_of_pos all]
  cases rest with
  | nil => rfl
  | cons b rest => exact List.dropWhile_cons_of_neg (by rw [stop b rfl]; decide)

theorem isSpace_not_digit {b : UInt8} (h : isSpace b = true) : isDigit b = false := by
  by_contra digit
  rw [Bool.not_eq_false] at digit
  rw [isDigit_not_space digit] at h
  cases h

theorem Ended.not_digit (h : Ended rest) : ∀ b ∈ rest.head?, isDigit b = false :=
  fun b here => isSpace_not_digit (h b here)

def sign (neg : Bool) : List UInt8 := if neg then [45] else []

theorem takeSign_digits (neg : Bool) {ds : List UInt8} (digits : ∀ b ∈ ds, isDigit b = true)
    (rest : List UInt8) (nonempty : ds ≠ []) :
    takeSign (sign neg ++ (ds ++ rest)) = (neg, ds ++ rest) := by
  cases neg with
  | true => rfl
  | false =>
    cases ds with
    | nil => exact absurd rfl nonempty
    | cons b ds =>
      have digit := digits b (List.mem_cons_self ..)
      have minus : b ≠ 45 := by
        rintro rfl
        revert digit
        decide
      have plus : b ≠ 43 := by
        rintro rfl
        revert digit
        decide
      simp [sign, takeSign, minus, plus]

theorem sign_solid (neg : Bool) {ds : List UInt8} (digits : ∀ b ∈ ds, isDigit b = true) :
    ∀ b ∈ sign neg ++ ds, isSpace b = false := by
  intro b here
  rcases List.mem_append.mp here with here | here
  · cases neg with
    | true =>
      obtain rfl := List.mem_singleton.mp here
      rfl
    | false => cases here
  · exact isDigit_not_space (digits b here)

theorem head_mem {p : UInt8 → Prop} (all : ∀ b ∈ s, p b) : ∀ b ∈ s.head?, p b :=
  fun b here => all b (List.mem_of_mem_head? here)

/-- A printed number is read up to its end. -/
theorem scanNumber_digits (blank : Blank sp) (neg : Bool) {ds : List UInt8}
    (digits : ∀ b ∈ ds, isDigit b = true) (nonempty : ds ≠ []) (ended : Ended rest) :
    scanNumber (sp ++ (sign neg ++ (ds ++ rest))) = some (neg, valueOf ds, rest) := by
  have solid : ∀ b ∈ (sign neg ++ (ds ++ rest)).head?, isSpace b = false := by
    intro b here
    apply sign_solid neg digits
    apply List.mem_of_mem_head?
    cases neg with
    | true => exact here
    | false =>
      cases ds with
      | nil => exact absurd rfl nonempty
      | cons d ds => exact here
  unfold scanNumber
  rw [blank.dropWhile_append, dropWhile_solid solid, takeSign_digits neg digits rest nonempty]
  dsimp only
  rw [takeWhile_ended digits ended.not_digit, dropWhile_ended digits ended.not_digit,
    if_neg nonempty]

/-- A part of a number, at the end of a text: nothing is left of it. -/
theorem scanNumber_part (blank : Blank sp) (neg : Bool) {ds p : List UInt8}
    (digits : ∀ b ∈ ds, isDigit b = true) (part : p <+: sign neg ++ ds) :
    scanNumber (sp ++ p) = none ∨ ∃ neg n, scanNumber (sp ++ p) = some (neg, n, []) := by
  have whole : ∀ (neg : Bool) {ds' : List UInt8}, ds' <+: ds → ds' ≠ [] →
      scanNumber (sp ++ (sign neg ++ ds')) = some (neg, valueOf ds', []) := by
    intro neg ds' front nonempty
    have read : scanNumber (sp ++ (sign neg ++ (ds' ++ []))) = some (neg, valueOf ds', []) :=
      scanNumber_digits blank neg (fun b here => digits b (front.subset here)) nonempty nofun
    rwa [List.append_nil] at read
  have nothing : scanNumber (sp ++ []) = none := by
    rw [scanNumber, blank.dropWhile_append]
    rfl
  cases p with
  | nil => exact Or.inl nothing
  | cons b p =>
    cases neg with
    | false => exact Or.inr ⟨false, _, whole false part nofun⟩
    | true =>
      obtain ⟨rfl, front⟩ := List.cons_prefix_cons.mp part
      cases p with
      | nil =>
        left
        rw [scanNumber, blank.dropWhile_append]
        rfl
      | cons d p => exact Or.inr ⟨true, _, whole true front nofun⟩

/-- A text that a conversion reads as `item`. What it reads of a part of the text does not matter,
but nothing is left of it. -/
structure Reads (c : Conv) (text : List UInt8) (item : Item) : Prop where
  nonempty : text ≠ []
  solid : ∀ b ∈ text, isSpace b = false
  whole : ∀ sp rest, Blank sp → Ended rest → c.scan (sp ++ (text ++ rest)) = some (item, rest)
  part : ∀ sp p, Blank sp → p <+: text →
    c.scan (sp ++ p) = none ∨ ∃ it, c.scan (sp ++ p) = some (it, [])

theorem toUnsigned_of_lt {bits n : Nat} (small : n < 2 ^ bits) (fits : bits ≤ 64) :
    toUnsigned bits false n = n := by
  have le : 2 ^ bits ≤ 2 ^ 64 := Nat.pow_le_pow_right (by decide) fits
  have inside : ¬ 2 ^ 64 ≤ n := by omega
  simp only [toUnsigned, inside, ↓reduceIte, Bool.false_eq_true, Nat.mod_eq_of_lt small]

/-- `%u` and `%lu` read what was printed. -/
theorem reads_unsigned {bits n : Nat} (small : n < 2 ^ bits) (fits : bits ≤ 64) :
    Reads (.unsigned bits) (decimal n) (.num n) := by
  refine ⟨decimal_ne_nil n, fun b here => isDigit_not_space (decimal_digits n b here), ?_, ?_⟩
  · intro sp rest blank ended
    have read := scanNumber_digits blank false (decimal_digits n) (decimal_ne_nil n) ended
    rw [Conv.scan, ← List.nil_append (decimal n ++ rest)]
    simp only [sign, Bool.false_eq_true, ↓reduceIte] at read
    rw [read, valueOf_decimal, Option.map_some]
    dsimp only
    rw [toUnsigned_of_lt small fits]
  · intro sp p blank part
    rcases scanNumber_part blank false (decimal_digits n) part with absent | ⟨neg, m, eq⟩
    · exact Or.inl (by rw [Conv.scan, absent]; rfl)
    · exact Or.inr ⟨_, by rw [Conv.scan, eq]; rfl⟩

theorem signed_natCast (n : Nat) : signed n = decimal n := by
  have nonneg : ¬ (n : Int) < 0 := by omega
  rw [signed, if_neg nonneg, Int.natAbs_natCast]

theorem signed_eq (x : Int) : signed x = sign (decide (x < 0)) ++ decimal x.natAbs := by
  unfold signed sign
  by_cases neg : x < 0 <;> simp [neg]

theorem toSigned_of_range {bits : Nat} {x : Int} (pos : 0 < bits) (fits : bits ≤ 64)
    (low : -2 ^ (bits - 1) ≤ x) (high : x < 2 ^ (bits - 1)) :
    toSigned bits (decide (x < 0)) x.natAbs = x := by
  have le : (2 : Int) ^ (bits - 1) ≤ 2 ^ 63 := by
    exact_mod_cast Nat.pow_le_pow_right (by decide) (by omega)
  have double : (2 : Int) ^ bits = 2 * 2 ^ (bits - 1) := by
    obtain ⟨k, rfl⟩ : ∃ k, bits = k + 1 := ⟨bits - 1, by omega⟩
    rw [Nat.add_sub_cancel, pow_succ']
  have back : (if decide (x < 0) = true then -(x.natAbs : Int) else x.natAbs) = x := by
    by_cases neg : x < 0
    · simp only [neg, decide_true, ↓reduceIte]
      omega
    · simp only [neg, decide_false, Bool.false_eq_true, ↓reduceIte]
      omega
  unfold toSigned
  dsimp only
  rw [back, double]
  generalize (2 : Int) ^ (bits - 1) = m at *
  have clipped : max (-2 ^ 63) (min (2 ^ 63 - 1) x) = x := by omega
  rw [clipped, Int.emod_eq_of_lt (by omega) (by omega)]
  omega

/-- `%d` and `%ld` read what was printed. -/
theorem reads_signed {bits : Nat} {x : Int} (pos : 0 < bits) (fits : bits ≤ 64)
    (low : -2 ^ (bits - 1) ≤ x) (high : x < 2 ^ (bits - 1)) :
    Reads (.signed bits) (signed x) (.num x) := by
  have digits := decimal_digits x.natAbs
  rw [signed_eq]
  refine ⟨?_, sign_solid _ digits, ?_, ?_⟩
  · simp [decimal_ne_nil]
  · intro sp rest blank ended
    have read := scanNumber_digits blank (decide (x < 0)) digits (decimal_ne_nil _) ended
    rw [Conv.scan, List.append_assoc, read, valueOf_decimal, Option.map_some]
    dsimp only
    rw [toSigned_of_range pos fits low high]
  · intro sp p blank part
    rcases scanNumber_part blank _ digits part with absent | ⟨neg, m, eq⟩
    · exact Or.inl (by rw [Conv.scan, absent]; rfl)
    · exact Or.inr ⟨_, by rw [Conv.scan, eq]; rfl⟩

/-- `%s` reads a word that is not too long. -/
theorem reads_word {width : Nat} {w : List UInt8} (inhabited : w ≠ [])
    (solid : ∀ b ∈ w, isSpace b = false) (short : w.length ≤ width) :
    Reads (.word width) w (.text w) := by
  have whole : ∀ {p sp rest : List UInt8}, Blank sp → Ended rest → p <+: w → p ≠ [] →
      Conv.scan (sp ++ (p ++ rest)) (.word width) = some (.text p, rest) := by
    intro p sp rest blank ended front nonempty
    have solid' : ∀ b ∈ p, isSpace b = false := fun b here => solid b (front.subset here)
    have first : ∀ b ∈ (p ++ rest).head?, isSpace b = false := by
      intro b here
      rw [head?_append_left nonempty] at here
      exact head_mem solid' b here
    have taken : ((p ++ rest).takeWhile fun b => ! isSpace b) = p := by
      apply takeWhile_ended
      · intro b here
        rw [solid' b here]
        rfl
      · intro b here
        rw [ended b here]
        rfl
    have len : p.take width = p := List.take_of_length_le (front.length_le.trans short)
    rw [Conv.scan, blank.dropWhile_append, dropWhile_solid first, taken, len, if_neg nonempty,
      List.drop_left]
  refine ⟨inhabited, solid, fun sp rest blank ended => whole blank ended List.prefix_rfl inhabited, ?_⟩
  intro sp p blank part
  by_cases nothing : p = []
  · left
    rw [nothing, Conv.scan, blank.dropWhile_append]
    simp
  · right
    have read : Conv.scan (sp ++ (p ++ [])) (.word width) = some (.text p, []) :=
      whole blank nofun part nothing
    rw [List.append_nil] at read
    exact ⟨_, read⟩

/-! ## Lines of fields -/

/-- A printed field: how it is read, its text and what is read. -/
structure TextField where
  conv : Conv
  text : List UInt8
  item : Item
  reads : Reads conv text item

variable {fs : List TextField} {total : Nat}

def lines (fs : List TextField) : List UInt8 := fs.flatMap fun f => f.text ++ crlf

/-- The conversions of the fields, with white space behind each. -/
def convs (fs : List TextField) : List Directive := fs.flatMap fun f => [.conv f.conv, .space]

theorem ended_crlf (s : List UInt8) : Ended (crlf ++ s) := by
  intro b here
  obtain rfl := Option.some.inj here
  decide

theorem blank_crlf : Blank crlf := blank_iff.mpr rfl

theorem lines_solid (f : TextField) (fs : List TextField) (tail : List UInt8) :
    ∀ b ∈ (lines (f :: fs) ++ tail).head?, isSpace b = false := by
  intro b here
  apply f.reads.solid
  apply List.mem_of_mem_head?
  rw [lines, List.flatMap_cons, List.append_assoc, List.append_assoc,
    head?_append_left f.reads.nonempty] at here
  exact here

/-- Fields are read one after the other, and then what is behind them. -/
theorem scan_lines (fs : List TextField) (fmt : List Directive) (tail : List UInt8) :
    scan total (convs fs ++ fmt) ((lines fs ++ tail).dropWhile isSpace) =
      fs.map TextField.item ++ scan total fmt (tail.dropWhile isSpace) := by
  induction fs with
  | nil => rfl
  | cons f fs ih =>
    have read := f.reads.whole [] (crlf ++ (lines fs ++ tail)) nofun (ended_crlf _)
    have shape : lines (f :: fs) ++ tail = f.text ++ (crlf ++ (lines fs ++ tail)) := by
      simp [lines]
    rw [dropWhile_solid (lines_solid f fs tail), shape, convs, List.flatMap_cons, ← convs]
    simp only [List.cons_append, List.nil_append, scan]
    rw [List.nil_append] at read
    rw [read]
    dsimp only
    rw [blank_crlf.dropWhile_append, ih]
    rfl

/-- A text that begins with a digit begins with a number. -/
theorem scanNumber_digit {b : UInt8} (digit : isDigit b = true) (s : List UInt8) :
    ∃ n rest, scanNumber (b :: s) = some (false, n, rest) := by
  have minus : b ≠ 45 := by
    rintro rfl
    revert digit
    decide
  have plus : b ≠ 43 := by
    rintro rfl
    revert digit
    decide
  have solid : ¬ isSpace b = true := by
    rw [isDigit_not_space digit]
    decide
  unfold scanNumber
  rw [List.dropWhile_cons_of_neg solid]
  simp only [takeSign, minus, plus, ↓reduceIte, List.takeWhile_cons_of_pos digit]
  exact ⟨_, _, rfl⟩

theorem conversions_cons_le (item : Item) (items : List Item) :
    conversions (item :: items) ≤ conversions items + 1 := by
  unfold conversions
  cases item with
  | count n => simp
  | _ => simp

theorem scan_nil (c : Conv) (fmt : List Directive) : scan total (.conv c :: fmt) [] = [] := by
  cases c with
  | word width => simp [scan, Conv.scan]
  | _ => rfl

/-- Behind the end of a text there is no conversion. -/
theorem scan_convs_nil (fs : List TextField) (c : Conv) (fmt : List Directive) :
    scan total (convs fs ++ .conv c :: fmt) [] = [] := by
  cases fs with
  | nil => exact scan_nil c fmt
  | cons f fs =>
    rw [convs, List.flatMap_cons]
    exact scan_nil f.conv _

/-- A line that is cut short: a part of its text, or all of it and a part of its end. -/
theorem take_line {text : List UInt8} {k : Nat} (short : k < text.length + 2) (more : List UInt8) :
    ((text ++ (crlf ++ more)).take k <+: text) ∨
      ∃ sp, Blank sp ∧ (text ++ (crlf ++ more)).take k = text ++ sp := by
  by_cases inside : k ≤ text.length
  · left
    rw [List.take_append_of_le_length inside]
    exact List.take_prefix _ _
  · right
    refine ⟨[13], blank_iff.mpr rfl, ?_⟩
    have one : k = text.length + 1 := by omega
    rw [one, List.take_append, List.take_of_length_le (by omega)]
    simp [crlf]

/-- A text that is cut behind some of its fields has no more conversions than these. -/
theorem conversions_part (fs : List TextField) (c : Conv) (fmt : List Directive) (k : Nat) :
    conversions (scan total (convs fs ++ .conv c :: fmt) (((lines fs).take k).dropWhile isSpace)) ≤
      fs.length := by
  induction fs generalizing k with
  | nil =>
    have empty : (((lines []).take k).dropWhile isSpace) = [] := by simp [lines]
    rw [empty, scan_convs_nil]
    exact Nat.le_refl _
  | cons f fs ih =>
    have shape : lines (f :: fs) = f.text ++ (crlf ++ lines fs) := by simp [lines]
    have fmts : convs (f :: fs) ++ .conv c :: fmt =
        .conv f.conv :: .space :: (convs fs ++ .conv c :: fmt) := by simp [convs]
    have stop : ∀ it : Item, conversions [it] ≤ (f :: fs).length := by
      intro it
      have one : conversions [it] ≤ 1 := conversions_cons_le it []
      rw [List.length_cons]
      omega
    rw [fmts, shape]
    by_cases short : k < f.text.length + 2
    · rcases take_line short (lines fs) with part | ⟨sp, blank, eq⟩
      · have solid : ∀ b ∈ ((f.text ++ (crlf ++ lines fs)).take k).head?, isSpace b = false :=
          head_mem fun b here => f.reads.solid b (part.subset here)
        rw [dropWhile_solid solid]
        generalize (f.text ++ (crlf ++ lines fs)).take k = p at part
        rcases f.reads.part [] p nofun part with absent | ⟨it, eq⟩
        · rw [List.nil_append] at absent
          rw [scan, absent]
          exact Nat.zero_le _
        · rw [List.nil_append] at eq
          rw [scan, eq]
          dsimp only
          rw [scan, List.dropWhile_nil, scan_convs_nil]
          exact stop it
      · have solid : ∀ b ∈ (f.text ++ sp).head?, isSpace b = false := by
          rw [head?_append_left f.reads.nonempty]
          exact head_mem f.reads.solid
        have ended : Ended sp := head_mem blank
        have read := f.reads.whole [] sp nofun ended
        rw [eq, dropWhile_solid solid]
        rw [List.nil_append] at read
        rw [scan, read]
        dsimp only
        rw [scan, blank.dropWhile, scan_convs_nil]
        exact stop f.item
    · have cut : (f.text ++ (crlf ++ lines fs)).take k =
          f.text ++ (crlf ++ (lines fs).take (k - (f.text.length + 2))) := by
        rw [List.take_append, List.take_of_length_le (by omega), List.take_append,
          List.take_of_length_le (by simp [crlf]; omega)]
        have len : crlf.length = 2 := rfl
        rw [len, Nat.sub_sub]
      have solid : ∀ b ∈ (f.text ++ (crlf ++ (lines fs).take (k - (f.text.length + 2)))).head?,
          isSpace b = false := by
        rw [head?_append_left f.reads.nonempty]
        exact head_mem f.reads.solid
      have read := f.reads.whole [] (crlf ++ (lines fs).take (k - (f.text.length + 2))) nofun
        (ended_crlf _)
      rw [cut, dropWhile_solid solid]
      rw [List.nil_append] at read
      rw [scan, read]
      dsimp only
      rw [scan, blank_crlf.dropWhile_append, List.length_cons]
      exact (conversions_cons_le _ _).trans (Nat.succ_le_succ (ih _))

/-! ## Whole formats -/

inductive Assigns : Conv → Item → Prop
  | unsigned (bits : Nat) (x : Int) : Assigns (.unsigned bits) (.num x)
  | signed (bits : Nat) (x : Int) : Assigns (.signed bits) (.num x)
  | word (width : Nat) (w : List UInt8) : Assigns (.word width) (.text w)

theorem Conv.scan_assigns {c : Conv} {item : Item} (eq : c.scan s = some (item, rest)) :
    Assigns c item := by
  cases c with
  | unsigned bits =>
    obtain ⟨x, -, same⟩ := Option.map_eq_some_iff.mp eq
    obtain ⟨rfl, -⟩ := Prod.mk.inj same
    exact .unsigned bits _
  | signed bits =>
    obtain ⟨x, -, same⟩ := Option.map_eq_some_iff.mp eq
    obtain ⟨rfl, -⟩ := Prod.mk.inj same
    exact .signed bits _
  | word width =>
    simp only [Conv.scan] at eq
    split at eq
    · cases eq
    · obtain ⟨rfl, -⟩ := Prod.mk.inj (Option.some.inj eq)
      exact .word width _

/-- Conversions, with white space behind each and the count of what was read at the end. -/
def counted (cs : List Conv) : List Directive :=
  cs.flatMap (fun c => [.conv c, .space]) ++ [.count]

/-- A conversion fails, or all assign what they can. -/
theorem scan_counted (total : Nat) (cs : List Conv) (s : List UInt8) :
    conversions (scan total (counted cs) s) < cs.length ∨
      ∃ items n, scan total (counted cs) s = items ++ [.count n] ∧
        List.Forall₂ Assigns cs items := by
  induction cs generalizing s with
  | nil => exact Or.inr ⟨[], _, rfl, .nil⟩
  | cons c cs ih =>
    have step : counted (c :: cs) = .conv c :: .space :: counted cs := rfl
    rw [step, scan]
    cases eq : c.scan s with
    | none => exact Or.inl (Nat.succ_pos _)
    | some result =>
      obtain ⟨item, rest⟩ := result
      dsimp only
      rw [scan]
      rcases ih (rest.dropWhile isSpace) with few | ⟨items, n, all, assigned⟩
      · left
        have one := conversions_cons_le item (scan total (counted cs) (rest.dropWhile isSpace))
        rw [List.length_cons]
        omega
      · right
        exact ⟨item :: items, n, by rw [all]; rfl, .cons (Conv.scan_assigns eq) assigned⟩

/-- What a number leaves is the end of the text. -/
theorem scanNumber_suffix {neg : Bool} {n : Nat} (eq : scanNumber s = some (neg, n, rest)) :
    rest <:+ s := by
  have signed_suffix : ∀ t : List UInt8, (takeSign t).2 <:+ t := by
    intro t
    cases t with
    | nil => exact List.suffix_rfl
    | cons b t =>
      simp only [takeSign]
      split
      · exact List.suffix_cons b t
      · split
        · exact List.suffix_cons b t
        · exact List.suffix_rfl
  unfold scanNumber at eq
  dsimp only at eq
  split at eq
  · cases eq
  · have tail := (Prod.mk.inj (Prod.mk.inj (Option.some.inj eq)).2).2
    rw [← tail]
    exact (List.dropWhile_suffix _).trans ((signed_suffix _).trans (List.dropWhile_suffix _))

theorem toUnsigned_range (bits : Nat) (neg : Bool) (n : Nat) :
    0 ≤ toUnsigned bits neg n ∧ toUnsigned bits neg n < 2 ^ bits := by
  unfold toUnsigned
  dsimp only
  constructor
  · exact Int.natCast_nonneg _
  · exact_mod_cast Nat.mod_lt _ (Nat.two_pow_pos bits)

-- From here on a printed number is known by its lemmas: comparing two of them would print both.
attribute [irreducible] decimal signed

end Text
