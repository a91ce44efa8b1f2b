import Lancaster.Base.Text

/-!
# JSON

A reader of RFC 8259 texts, as a program that takes untrusted bytes has one: a string that is not
well formed UTF-8 is read with the replacement character in place of each bad byte, and so is an
escaped surrogate without its partner. A number is kept as its text.

The rules at the end say what is read from a text that was put together from parts.
-/

namespace Json

/-- A value. The members of an object are in the order of the text. -/
inductive Value where
  | null
  | bool (b : Bool)
  | num (token : List UInt8)
  | str (s : List UInt8)
  | arr (vs : List Value)
  | obj (ms : List (List UInt8 × Value))

/-! ## UTF-8 -/

def replacement : List UInt8 := [239, 191, 189]

def isContinuation (b : UInt8) : Bool := 128 ≤ b && b ≤ 191

/-- The number of bytes of the character at the start of a text; none if it is not well formed. -/
def runeSize : List UInt8 → Option Nat
  | [] => none
  | b :: rest =>
    if b < 128 then some 1
    else if 194 ≤ b ∧ b ≤ 223 then
      match rest with
      | c :: _ => if isContinuation c then some 2 else none
      | _ => none
    else if 224 ≤ b ∧ b ≤ 239 then
      match rest with
      | c :: d :: _ =>
        -- Neither an overlong form nor a surrogate.
        if isContinuation c && isContinuation d && (b != 224 || 160 ≤ c) && (b != 237 || c ≤ 159)
        then some 3 else none
      | _ => none
    else if 240 ≤ b ∧ b ≤ 244 then
      match rest with
      | c :: d :: e :: _ =>
        if isContinuation c && isContinuation d && isContinuation e && (b != 240 || 144 ≤ c) &&
          (b != 244 || c ≤ 143)
        then some 4 else none
      | _ => none
    else none

/-- The text with each bad byte replaced; `skip` bytes belong to the character before. -/
def coerce : Nat → List UInt8 → List UInt8
  | _, [] => []
  | skip + 1, b :: rest => b :: coerce skip rest
  | 0, b :: rest =>
    match runeSize (b :: rest) with
    | some size => b :: coerce (size - 1) rest
    | none => replacement ++ coerce 0 rest

def wellFormedFrom : Nat → List UInt8 → Bool
  | _, [] => true
  | skip + 1, _ :: rest => wellFormedFrom skip rest
  | 0, b :: rest =>
    match runeSize (b :: rest) with
    | some size => wellFormedFrom (size - 1) rest
    | none => false

def wellFormed (s : List UInt8) : Bool := wellFormedFrom 0 s

def encodeRune (u : Nat) : List UInt8 :=
  if u < 128 then [.ofNat u]
  else if u < 2048 then [.ofNat (192 + u / 64), .ofNat (128 + u % 64)]
  else if u < 65536 then
    [.ofNat (224 + u / 4096), .ofNat (128 + u / 64 % 64), .ofNat (128 + u % 64)]
  else
    [.ofNat (240 + u / 262144), .ofNat (128 + u / 4096 % 64), .ofNat (128 + u / 64 % 64),
      .ofNat (128 + u % 64)]

/-! ## Strings -/

/-- A byte, or the number of an escape `\u`. -/
inductive Piece where
  | byte (b : UInt8)
  | unit (u : Nat)

def hexDigit (b : UInt8) : Option Nat :=
  if Text.isDigit b then some (b.toNat - 48)
  else if 97 ≤ b ∧ b ≤ 102 then some (b.toNat - 87)
  else if 65 ≤ b ∧ b ≤ 70 then some (b.toNat - 55)
  else none

/-- The byte of an escape of two characters. -/
def shortEscape (b : UInt8) : Option UInt8 :=
  if b = 34 ∨ b = 92 ∨ b = 47 then some b
  else if b = 98 then some 8
  else if b = 102 then some 12
  else if b = 110 then some 10
  else if b = 114 then some 13
  else if b = 116 then some 9
  else none

/-- What is left of a string after its first quote, and the rest of the text. -/
def pieces : List UInt8 → Option (List Piece × List UInt8)
  | [] => none
  | b :: rest =>
    if b = 34 then some ([], rest)
    else if b < 32 then none
    else if b = 92 then
      match rest with
      | [] => none
      | c :: rest =>
        if c = 117 then
          match rest with
          | w :: x :: y :: z :: rest => do
            let w ← hexDigit w
            let x ← hexDigit x
            let y ← hexDigit y
            let z ← hexDigit z
            let (ps, rest) ← pieces rest
            some (.unit (((w * 16 + x) * 16 + y) * 16 + z) :: ps, rest)
          | _ => none
        else do
          let e ← shortEscape c
          let (ps, rest) ← pieces rest
          some (.byte e :: ps, rest)
    else do
      let (ps, rest) ← pieces rest
      some (.byte b :: ps, rest)

def isHigh (u : Nat) : Bool := 0xD800 ≤ u && u < 0xDC00

def isLow (u : Nat) : Bool := 0xDC00 ≤ u && u < 0xE000

/-- The bytes of the pieces. Two surrogates that belong together are one character. -/
def assemble : List Piece → List UInt8
  | [] => []
  | .byte b :: ps => b :: assemble ps
  | .unit u :: .unit v :: ps =>
    if isHigh u && isLow v then
      encodeRune (0x10000 + (u - 0xD800) * 1024 + (v - 0xDC00)) ++ assemble ps
    else (if isHigh u || isLow u then replacement else encodeRune u) ++ assemble (.unit v :: ps)
  | .unit u :: ps => (if isHigh u || isLow u then replacement else encodeRune u) ++ assemble ps

def string (s : List UInt8) : Option (List UInt8 × List UInt8) :=
  (pieces s).map fun (ps, rest) => (coerce 0 (assemble ps), rest)

/-! ## Numbers -/

/-- Digits, at least one, with what stands before them. -/
def digits (before s : List UInt8) : Option (List UInt8 × List UInt8) :=
  if s.takeWhile Text.isDigit = [] then none
  else some (before ++ s.takeWhile Text.isDigit, s.dropWhile Text.isDigit)

/-- The integer part: a zero, or digits that do not start with one. -/
def integer : List UInt8 → Option (List UInt8 × List UInt8)
  | [] => none
  | b :: rest => if b = 48 then some ([48], rest) else digits [] (b :: rest)

def fraction (before : List UInt8) : List UInt8 → Option (List UInt8 × List UInt8)
  | [] => some (before, [])
  | b :: rest => if b = 46 then digits (before ++ [46]) rest else some (before, b :: rest)

def exponent (before : List UInt8) : List UInt8 → Option (List UInt8 × List UInt8)
  | [] => some (before, [])
  | b :: rest =>
    if b = 101 ∨ b = 69 then
      match rest with
      | [] => none
      | c :: rest' =>
        if c = 43 ∨ c = 45 then digits (before ++ [b, c]) rest' else digits (before ++ [b]) rest
    else some (before, b :: rest)

def unsigned (s : List UInt8) : Option (List UInt8 × List UInt8) := do
  let (t, s) ← integer s
  let (t, s) ← fraction t s
  exponent t s

def number : List UInt8 → Option (List UInt8 × List UInt8)
  | [] => none
  | b :: rest =>
    if b = 45 then (unsigned rest).map fun (t, s) => (45 :: t, s) else unsigned (b :: rest)

/-! ## Values -/

def isSpace (b : UInt8) : Bool := b == 32 || b == 9 || b == 10 || b == 13

def skip (s : List UInt8) : List UInt8 := s.dropWhile isSpace

/-- A word, if it stands at the start of the text. -/
def word (w : String) (v : Value) (s : List UInt8) : Option (Value × List UInt8) :=
  if Text.ascii w <+: s then some (v, s.drop (Text.ascii w).length) else none

/-- The name of a member, with its colon. -/
def key (s : List UInt8) : Option (List UInt8 × List UInt8) :=
  match skip s with
  | [] => none
  | b :: rest =>
    if b = 34 then do
      let (k, s) ← string rest
      match skip s with
      | [] => none
      | c :: rest => if c = 58 then some (k, rest) else none
    else none

mutual

/-- A value at the start of a text, and the rest. The first argument bounds the recursion. -/
def value : Nat → List UInt8 → Option (Value × List UInt8)
  | 0, _ => none
  | n + 1, s =>
    match skip s with
    | [] => none
    | b :: rest =>
      if b = 34 then (string rest).map fun (t, rest) => (.str t, rest)
      else if b = 91 then
        match skip rest with
        | [] => none
        | c :: rest' =>
          if c = 93 then some (.arr [], rest')
          else (elements n rest).map fun (vs, rest) => (.arr vs, rest)
      else if b = 123 then
        match skip rest with
        | [] => none
        | c :: rest' =>
          if c = 125 then some (.obj [], rest')
          else (members n rest).map fun (ms, rest) => (.obj ms, rest)
      else if b = 116 then word "true" (.bool true) (b :: rest)
      else if b = 102 then word "false" (.bool false) (b :: rest)
      else if b = 110 then word "null" .null (b :: rest)
      else (number (b :: rest)).map fun (t, rest) => (.num t, rest)

/-- What follows the bracket of an array that is not empty. -/
def elements : Nat → List UInt8 → Option (List Value × List UInt8)
  | 0, _ => none
  | n + 1, s => do
    let (v, s) ← value n s
    match skip s with
    | [] => none
    | b :: rest =>
      if b = 44 then (elements n rest).map fun (vs, rest) => (v :: vs, rest)
      else if b = 93 then some ([v], rest)
      else none

/-- What follows the brace of an object that is not empty. -/
def members : Nat → List UInt8 → Option (List (List UInt8 × Value) × List UInt8)
  | 0, _ => none
  | n + 1, s => do
    let (k, s) ← key s
    let (v, s) ← value n s
    match skip s with
    | [] => none
    | b :: rest =>
      if b = 44 then (members n rest).map fun (ms, rest) => ((k, v) :: ms, rest)
      else if b = 125 then some ([(k, v)], rest)
      else none

end

/-- The value of a whole text. Each byte takes the recursion at most two levels down. -/
def parse (s : List UInt8) : Option Value :=
  match value (2 * s.length + 2) s with
  | none => none
  | some (v, rest) => if skip rest = [] then some v else none

/-! ## Strings that are read back -/

/-- A text that stands for a string between its quotes. -/
inductive Spells : List UInt8 → List UInt8 → Prop
  | nil : Spells [] []
  | plain {b : UInt8} {t s : List UInt8} (visible : 32 ≤ b) (quote : b ≠ 34) (slash : b ≠ 92) :
      Spells t s → Spells (b :: t) (b :: s)
  | escaped {c e : UInt8} {t s : List UInt8} (known : shortEscape c = some e) :
      Spells t s → Spells (92 :: c :: t) (e :: s)

variable {t s rest : List UInt8}

theorem pieces_spells (h : Spells t s) (rest : List UInt8) :
    pieces (t ++ 34 :: rest) = some (s.map .byte, rest) := by
  induction h with
  | nil =>
    rw [List.nil_append, pieces.eq_def]
    simp
  | @plain b t s visible quote slash _ ih =>
    have high : ¬ b < 32 := UInt8.not_lt.mpr visible
    rw [List.cons_append, pieces.eq_def]
    simp [quote, slash, high, ih]
  | @escaped c e t s known _ ih =>
    have short : c ≠ 117 := by
      rintro rfl
      revert known
      simp [shortEscape]
    rw [List.cons_append, List.cons_append, pieces.eq_def]
    simp [short, known, ih]

theorem assemble_bytes (s : List UInt8) : assemble (s.map .byte) = s := by
  induction s with
  | nil => rfl
  | cons b s ih => rw [List.map_cons, assemble, ih]

theorem coerce_wellFormedFrom {k : Nat} (h : wellFormedFrom k s = true) : coerce k s = s := by
  induction s generalizing k with
  | nil => cases k <;> rfl
  | cons b s ih =>
    cases k with
    | succ k => rw [coerce, ih h]
    | zero =>
      rw [wellFormedFrom] at h
      rw [coerce]
      cases size : runeSize (b :: s) with
      | none => simp [size] at h
      | some size' =>
        simp only [size] at h ⊢
        rw [ih h]

/-- Bytes of seven bits are well formed. -/
theorem wellFormed_ascii (low : ∀ b ∈ s, b < 128) : wellFormed s = true := by
  induction s with
  | nil => rfl
  | cons b s ih =>
    have first : runeSize (b :: s) = some 1 := by
      simp [runeSize, low b (List.mem_cons_self ..)]
    rw [wellFormed, wellFormedFrom, first]
    exact ih fun b' here => low b' (List.mem_cons_of_mem _ here)

theorem string_spells (h : Spells t s) (formed : wellFormed s = true) (rest : List UInt8) :
    string (t ++ 34 :: rest) = some (s, rest) := by
  have same : coerce 0 (assemble (s.map .byte)) = s := by
    rw [assemble_bytes]
    exact coerce_wellFormedFrom formed
  simp only [string, pieces_spells h, Option.map_some, same]

/-! ## Numbers that are read back -/

/-- No number goes on here. -/
def Ended (rest : List UInt8) : Prop := ∀ b ∈ rest.head?, b = 44 ∨ b = 93 ∨ b = 125

theorem ended_cons {b : UInt8} (h : b = 44 ∨ b = 93 ∨ b = 125) : Ended (b :: rest) := by
  intro c here
  obtain rfl : b = c := by simpa using here
  exact h

theorem digitChar_ne_zero : ∀ n < 10, 0 < n → Text.ofChar (Nat.digitChar n) ≠ 48 := by
  decide

theorem decimal_head {n : Nat} (pos : 0 < n) : ∀ b ∈ (Text.decimal n).head?, b ≠ 48 := by
  induction n using Nat.strong_induction_on with
  | _ n ih =>
    by_cases small : n < 10
    · intro b here
      obtain rfl : Text.ofChar (Nat.digitChar n) = b := by
        simpa [Text.decimal, Nat.toDigits_of_lt_base small] using here
      exact digitChar_ne_zero n small pos
    · have large : 10 ≤ n := Nat.le_of_not_lt small
      have parts : Text.decimal n = Text.decimal (n / 10) ++ [Text.ofChar (Nat.digitChar (n % 10))] := by
        simp only [Text.decimal, Nat.toDigits_of_base_le (by decide) large, List.map_append,
          List.map_cons, List.map_nil]
      rw [parts, Text.head?_append_left (Text.decimal_ne_nil (n / 10))]
      exact ih (n / 10) (by omega) (by omega)

theorem Ended.noDigit (h : Ended rest) : ∀ b ∈ rest.head?, Text.isDigit b = false := by
  intro b here
  rcases h b here with rfl | rfl | rfl <;> decide

theorem Ended.fraction_exponent (h : Ended rest) (t : List UInt8) :
    (do let (t, s) ← fraction t rest; exponent t s) = some (t, rest) := by
  cases rest with
  | nil => rfl
  | cons b rest => rcases h b rfl with rfl | rfl | rfl <;> rfl

theorem integer_decimal (n : Nat) (h : Ended rest) :
    integer (Text.decimal n ++ rest) = some (Text.decimal n, rest) := by
  by_cases zero : n = 0
  · subst zero
    have text : Text.decimal 0 = [48] := by simp [Text.decimal, Text.ofChar]
    rw [text]
    rfl
  · have all := Text.decimal_digits n
    have nonempty := Text.decimal_ne_nil n
    have first := decimal_head (Nat.pos_of_ne_zero zero)
    have taken := Text.takeWhile_ended all h.noDigit
    have left := Text.dropWhile_ended all h.noDigit
    cases text : Text.decimal n with
    | nil => exact absurd text nonempty
    | cons b t =>
      rw [text] at first taken left
      have nonzero : b ≠ 48 := first b rfl
      rw [List.cons_append] at taken left ⊢
      rw [integer, if_neg nonzero, digits, taken, left, if_neg (List.cons_ne_nil b t),
        List.nil_append]

theorem number_decimal (n : Nat) (h : Ended rest) :
    number (Text.decimal n ++ rest) = some (Text.decimal n, rest) := by
  have whole : unsigned (Text.decimal n ++ rest) = some (Text.decimal n, rest) := by
    rw [unsigned, integer_decimal n h]
    exact h.fraction_exponent _
  have all := Text.decimal_digits n
  cases text : Text.decimal n with
  | nil => exact absurd text (Text.decimal_ne_nil n)
  | cons b t =>
    rw [text] at whole all
    have minus : b ≠ 45 := by
      rintro rfl
      have digit := all 45 (List.mem_cons_self ..)
      revert digit
      decide
    rw [List.cons_append] at whole ⊢
    rw [number, if_neg minus, whole]

/-! ## Values that are read back -/

theorem skip_space (s : List UInt8) : skip (32 :: s) = skip s := by
  simp [skip, isSpace]

theorem skip_solid {b : UInt8} (solid : isSpace b = false) (s : List UInt8) :
    skip (b :: s) = b :: s := by
  simp [skip, solid]

theorem value_space (n : Nat) (s : List UInt8) : value n (32 :: s) = value n s := by
  cases n with
  | zero => rfl
  | succ n => rw [value, value, skip_space]

theorem elements_space (n : Nat) (s : List UInt8) : elements n (32 :: s) = elements n s := by
  cases n with
  | zero => rfl
  | succ n => rw [elements, elements, value_space]

theorem members_space (n : Nat) (s : List UInt8) : members n (32 :: s) = members n s := by
  cases n with
  | zero => rfl
  | succ n => rw [members, members, key, key, skip_space]

/-- A text is read as a value, whatever follows it, at any depth that its length allows. -/
structure Reads (v : Value) (t : List UInt8) : Prop where
  starts : ∃ b u, t = b :: u ∧ isSpace b = false ∧ b ≠ 93
  reads : ∀ n rest, 2 * t.length ≤ n → Ended rest → value n (t ++ rest) = some (v, rest)

theorem Reads.string (h : Spells t s) (formed : wellFormed s = true) :
    Reads (.str s) (34 :: t ++ [34]) := by
  refine ⟨⟨34, t ++ [34], rfl, by decide, by decide⟩, ?_⟩
  intro n rest enough _
  cases n with
  | zero => simp at enough
  | succ n =>
    have read := string_spells h formed rest
    simp only [List.cons_append, List.append_assoc, List.nil_append, value,
      skip_solid (by decide : isSpace 34 = false)]
    simp [read]

theorem Reads.decimal (n : Nat) : Reads (.num (Text.decimal n)) (Text.decimal n) := by
  have all := Text.decimal_digits n
  cases text : Text.decimal n with
  | nil => exact absurd text (Text.decimal_ne_nil n)
  | cons b t =>
    rw [text] at all
    have digit := all b (List.mem_cons_self ..)
    have other {c : UInt8} (no : Text.isDigit c = false) : b ≠ c := by
      rintro rfl
      rw [digit] at no
      cases no
    have solid : isSpace b = false := by
      simp [isSpace, other (by decide : Text.isDigit 32 = false),
        other (by decide : Text.isDigit 9 = false), other (by decide : Text.isDigit 10 = false),
        other (by decide : Text.isDigit 13 = false)]
    refine ⟨⟨b, t, rfl, solid, other (by decide)⟩, ?_⟩
    intro m rest enough ended
    cases m with
    | zero => simp at enough
    | succ m =>
      have read := number_decimal n ended
      rw [text] at read
      rw [List.cons_append] at read ⊢
      rw [value, skip_solid solid]
      simp only [if_neg (other (by decide : Text.isDigit 34 = false)),
        if_neg (other (by decide : Text.isDigit 91 = false)),
        if_neg (other (by decide : Text.isDigit 123 = false)),
        if_neg (other (by decide : Text.isDigit 116 = false)),
        if_neg (other (by decide : Text.isDigit 102 = false)),
        if_neg (other (by decide : Text.isDigit 110 = false)), read, Option.map_some]

def separated : List (List UInt8) → List UInt8
  | [] => []
  | [t] => t
  | t :: u :: ts => t ++ 44 :: 32 :: separated (u :: ts)

theorem elements_separated {vs : List Value} {ts : List (List UInt8)}
    (all : List.Forall₂ Reads vs ts) (nonempty : ts ≠ []) {n : Nat}
    (enough : 2 * (separated ts).length + 1 ≤ n) (rest : List UInt8) :
    elements n (separated ts ++ 93 :: rest) = some (vs, rest) := by
  induction all generalizing n with
  | nil => exact absurd rfl nonempty
  | @cons v t vs ts first others ih =>
    cases n with
    | zero => omega
    | succ n =>
      cases others with
      | nil =>
        have read := first.reads n (93 :: rest) (by simp [separated] at enough; omega)
          (ended_cons (by decide))
        simp only [separated, elements, read, Option.bind_eq_bind, Option.bind_some,
          skip_solid (by decide : isSpace 93 = false)]
        simp
      | @cons v' t' vs' ts' second others =>
        simp only [separated, List.length_append, List.length_cons] at enough
        have read := first.reads n (44 :: 32 :: (separated (t' :: ts') ++ 93 :: rest)) (by omega)
          (ended_cons (by decide))
        have more := ih (List.cons_ne_nil _ _) (show _ ≤ n by omega)
        simp only [separated, List.append_assoc, List.cons_append, elements, read,
          Option.bind_eq_bind, Option.bind_some, skip_solid (by decide : isSpace 44 = false),
          elements_space, more]
        simp

structure ReadsMember (m : List UInt8 × Value) (t : List UInt8) : Prop where
  parts : ∃ k u, t = 34 :: k ++ 34 :: 58 :: u ∧ Spells k m.1 ∧ Reads m.2 u
  formed : wellFormed m.1 = true

theorem ReadsMember.key {m : List UInt8 × Value} (h : ReadsMember m t) :
    ∃ u, Reads m.2 u ∧ u.length < t.length ∧ ∀ rest, key (t ++ rest) = some (m.1, u ++ rest) := by
  obtain ⟨k, u, rfl, spells, reads⟩ := h.parts
  refine ⟨u, reads, ?_, ?_⟩
  · simp
    omega
  · intro rest
    have read := string_spells spells h.formed (58 :: (u ++ rest))
    simp only [Json.key, List.cons_append, List.append_assoc,
      skip_solid (by decide : isSpace 34 = false), if_true, read, Option.bind_eq_bind,
      Option.bind_some, skip_solid (by decide : isSpace 58 = false)]

theorem members_separated {ms : List (List UInt8 × Value)} {ts : List (List UInt8)}
    (all : List.Forall₂ ReadsMember ms ts) (nonempty : ts ≠ []) {n : Nat}
    (enough : 2 * (separated ts).length + 1 ≤ n) (rest : List UInt8) :
    members n (separated ts ++ 125 :: rest) = some (ms, rest) := by
  induction all generalizing n with
  | nil => exact absurd rfl nonempty
  | @cons m t ms ts first others ih =>
    obtain ⟨u, readsValue, shorter, readsKey⟩ := first.key
    cases n with
    | zero => omega
    | succ n =>
      cases others with
      | nil =>
        have read := readsValue.reads n (125 :: rest) (by simp [separated] at enough; omega)
          (ended_cons (by decide))
        simp only [separated, members, readsKey, read, Option.bind_eq_bind, Option.bind_some,
          skip_solid (by decide : isSpace 125 = false)]
        simp
      | @cons m' t' ms' ts' second others =>
        simp only [separated, List.length_append, List.length_cons] at enough
        have read := readsValue.reads n (44 :: 32 :: (separated (t' :: ts') ++ 125 :: rest)) (by omega)
          (ended_cons (by decide))
        have more := ih (List.cons_ne_nil _ _) (show _ ≤ n by omega)
        simp only [separated, List.append_assoc, List.cons_append, members, readsKey, read,
          Option.bind_eq_bind, Option.bind_some, skip_solid (by decide : isSpace 44 = false),
          members_space, more]
        simp

/-- Several texts start as the first of them does. -/
theorem skip_separated {b : UInt8} {u : List UInt8} (starts : t = b :: u)
    (solid : isSpace b = false) (ts : List (List UInt8)) (rest : List UInt8) :
    ∃ w, skip (separated (t :: ts) ++ rest) = b :: w := by
  subst starts
  cases ts with
  | nil =>
    rw [separated, List.cons_append, skip_solid solid]
    exact ⟨_, rfl⟩
  | cons t' ts =>
    rw [separated, List.cons_append, List.cons_append, skip_solid solid]
    exact ⟨_, rfl⟩

theorem Reads.arr {vs : List Value} {ts : List (List UInt8)} (all : List.Forall₂ Reads vs ts) :
    Reads (.arr vs) (91 :: separated ts ++ [93]) := by
  refine ⟨⟨91, _, rfl, by decide, by decide⟩, ?_⟩
  intro n rest enough _
  cases n with
  | zero => simp at enough
  | succ n =>
    simp only [List.length_cons, List.length_append, List.length_nil, List.cons_append] at enough
    simp only [List.cons_append, List.append_assoc, List.nil_append, value,
      skip_solid (by decide : isSpace 91 = false)]
    cases all with
    | nil => simp [separated, skip_solid (by decide : isSpace 93 = false)]
    | @cons v t vs ts first others =>
      obtain ⟨b, u, starts, solid, other⟩ := first.starts
      have read := elements_separated (.cons first others) (List.cons_ne_nil _ _)
        (show _ ≤ n by omega) rest
      obtain ⟨w, front⟩ := skip_separated starts solid ts (93 :: rest)
      simp [front, other, read]

theorem Reads.obj {ms : List (List UInt8 × Value)} {ts : List (List UInt8)}
    (all : List.Forall₂ ReadsMember ms ts) : Reads (.obj ms) (123 :: separated ts ++ [125]) := by
  refine ⟨⟨123, _, rfl, by decide, by decide⟩, ?_⟩
  intro n rest enough _
  cases n with
  | zero => simp at enough
  | succ n =>
    simp only [List.length_cons, List.length_append, List.length_nil, List.cons_append] at enough
    simp only [List.cons_append, List.append_assoc, List.nil_append, value,
      skip_solid (by decide : isSpace 123 = false)]
    cases all with
    | nil => simp [separated, skip_solid (by decide : isSpace 125 = false)]
    | @cons m t ms ts first others =>
      obtain ⟨k, u, starts, -, -⟩ := first.parts
      have read := members_separated (.cons first others) (List.cons_ne_nil _ _)
        (show _ ≤ n by omega) rest
      obtain ⟨w, front⟩ := skip_separated starts (by decide) ts (125 :: rest)
      simp [front, read]

theorem Reads.parse {v : Value} (h : Reads v t) : parse t = some v := by
  have read := h.reads (2 * t.length + 2) [] (by omega) nofun
  rw [List.append_nil] at read
  rw [Json.parse, read]
  rfl

end Json
