import Lancaster.Handshake

/-!
# The buffers of the handshake

The hello is formatted into `hello_str`, of 128 bytes, and assembled in a buffer of 512 bytes. What
a receiver finds wrong with it is formatted by `error_msg` into a buffer of 256 bytes, and two of
the messages quote the text that was read. Each string takes one more byte for its end.
-/

namespace Lancaster

open Text

namespace Hello

variable {h : Hello} {data buf : List UInt8}

/-! ## The sender -/

def attributeBytes (h : Hello) : Nat :=
  width h.dataVer + h.mcastAddress.length + width h.mcastPort + width h.mcastMtu + width h.baseId +
    width h.maxId + width h.valSize + width h.qCapacity + width h.maxAgeUsec +
    width h.heartbeatUsec

theorem length_decimal_eq (n : Nat) : (decimal n).length = width n := by
  rw [← signed_natCast, length_signed]

/-- Three bytes for the wire version, and two at the end of each of the eleven lines. -/
theorem length_helloStr (h : Hello) : h.helloStr.length = h.attributeBytes + 25 := by
  have wire : width wireVersion = 3 := by
    rw [← length_decimal_eq, decimal_wireVersion]
    rfl
  have newline : crlf.length = 2 := rfl
  simp only [helloStr, attributes, List.flatMap_cons, List.flatMap_nil, List.length_append,
    List.length_nil, length_signed, length_decimal_eq, wire, newline, attributeBytes]
  omega

/-! ## The receiver -/

/-- A text that is quoted in a message leaves room for the rest of it: one that does not begin with
a number, and one that begins with the right version and lacks some of the attributes. -/
def Quotable (buf : List UInt8) : Prop :=
  match scanNumber buf with
  | none => buf.length < 217
  | some (neg, n, rest) =>
    toUnsigned 32 neg n / 256 = wireMajor →
      conversions (sscanf attrFormat (rest.dropWhile isSpace)) < 10 → buf.length < 209

theorem length_invalidWireVersion (buf : List UInt8) :
    (invalidWireVersion buf).message.length = 39 + buf.length := by
  rw [invalidWireVersion, List.length_append]
  rfl

theorem length_invalidAttributes (buf : List UInt8) :
    (invalidAttributes buf).message.length = 47 + buf.length := by
  rw [invalidAttributes, List.length_append]
  rfl

/-- A number below 10 ^ 8 has at most eight digits. -/
theorem width_le {x : Int} (low : 0 ≤ x) (high : x < 100000000) : width x ≤ 8 := by
  obtain ⟨n, rfl⟩ := Int.eq_ofNat_of_zero_le low
  rw [← length_decimal_eq]
  apply (length_decimal_le (by decide)).mpr
  norm_num
  omega

/-- Another version is named in a message that is never long. -/
theorem incompatible_short {wireVer : Int} (low : 0 ≤ wireVer) (high : wireVer < 2 ^ 32) :
    (incompatibleWireVersion wireVer).message.length < 256 := by
  have major : width (wireVer / 256) ≤ 8 := width_le (by omega) (by omega)
  have minor : width (wireVer % 256) ≤ 8 := width_le (by omega) (by omega)
  have major' : width wireMajor ≤ 8 := width_le (by decide) (by decide)
  have minor' : width wireMinor ≤ 8 := width_le (by decide) (by decide)
  have first : (ascii "receiver_create: incompatible wire version (").length = 44 := rfl
  have dot : (ascii ".").length = 1 := rfl
  have middle : (ascii " but expecting ").length = 15 := rfl
  have last : (ascii ")").length = 1 := rfl
  simp only [incompatibleWireVersion, List.length_append, length_signed, first, dot, middle, last]
  omega

/-- The attributes are refused if there are less than ten conversions, and only then. -/
theorem parse_enough {wireVer : Int} {n : Nat}
    (enough : ¬ conversions (sscanf attrFormat (buf.drop n)) < 10) :
    ∃ greeting, parseAttributes buf wireVer n = .ok greeting := by
  have fmt : attrFormat = counted [.unsigned 32, .word 31, .signed 32, .unsigned 64, .signed 64,
    .signed 64, .unsigned 64, .unsigned 64, .signed 64, .signed 64] := rfl
  unfold parseAttributes
  rw [sscanf, fmt] at enough ⊢
  rcases scan_counted (buf.drop n).length _ (buf.drop n) with few | ⟨items, m, all, assigned⟩
  · exact absurd few enough
  · rw [all]
    clear all enough fmt
    rcases assigned with _ | ⟨⟨_, dataVer⟩, assigned⟩
    rcases assigned with _ | ⟨⟨_, mcastAddress⟩, assigned⟩
    rcases assigned with _ | ⟨⟨_, mcastPort⟩, assigned⟩
    rcases assigned with _ | ⟨⟨_, mcastMtu⟩, assigned⟩
    rcases assigned with _ | ⟨⟨_, baseId⟩, assigned⟩
    rcases assigned with _ | ⟨⟨_, maxId⟩, assigned⟩
    rcases assigned with _ | ⟨⟨_, valSize⟩, assigned⟩
    rcases assigned with _ | ⟨⟨_, pubQCapacity⟩, assigned⟩
    rcases assigned with _ | ⟨⟨_, maxAgeUsec⟩, assigned⟩
    rcases assigned with _ | ⟨⟨_, hbUsec⟩, assigned⟩
    rcases assigned with _ | _
    exact ⟨_, rfl⟩

/-- What is scanned first is a number, and the rest is left. -/
theorem scan_version {neg : Bool} {n : Nat} {rest : List UInt8}
    (number : scanNumber buf = some (neg, n, rest)) :
    sscanf wireFormat buf =
        [.num (toUnsigned 32 neg n), .count (buf.length - (rest.dropWhile isSpace).length)] ∧
      buf.drop (buf.length - (rest.dropWhile isSpace).length) = rest.dropWhile isSpace := by
  constructor
  · simp only [sscanf, wireFormat, scan, Conv.scan, number, Option.map_some]
  · exact drop_suffix ((List.dropWhile_suffix _).trans (scanNumber_suffix number))

/-- No message is too long exactly if the text can be quoted. -/
theorem messages_fit_iff (data : List UInt8) :
    (∀ refusal, parseHello data = .error refusal → refusal.message.length < 256) ↔
      Quotable (data.takeWhile (· ≠ 0)) := by
  unfold parseHello Quotable
  dsimp only
  generalize data.takeWhile (· ≠ 0) = buf
  cases number : scanNumber buf with
  | none =>
    have nothing : sscanf wireFormat buf = [] := by
      simp only [sscanf, wireFormat, scan, Conv.scan, number, Option.map_none]
    rw [nothing]
    constructor
    · intro fits
      have short := fits _ rfl
      rw [length_invalidWireVersion] at short
      omega
    · intro short refusal refused
      cases refused
      rw [length_invalidWireVersion]
      omega
  | some result =>
    obtain ⟨neg, n, rest⟩ := result
    obtain ⟨scanned, behind⟩ := scan_version number
    obtain ⟨low, high⟩ := toUnsigned_range 32 neg n
    rw [scanned]
    dsimp only
    generalize buf.length - (rest.dropWhile isSpace).length = len at behind
    by_cases major : toUnsigned 32 neg n / 256 = wireMajor
    · rw [if_neg (not_not.mpr major), ← behind]
      by_cases few : conversions (sscanf attrFormat (buf.drop len)) < 10
      · rw [parse_few few]
        constructor
        · intro fits _ _
          have short := fits _ rfl
          rw [length_invalidAttributes] at short
          omega
        · intro short refusal refused
          cases refused
          have room := short major few
          rw [length_invalidAttributes]
          omega
      · obtain ⟨greeting, accepted⟩ := parse_enough few
        rw [accepted]
        exact ⟨fun _ _ few' => absurd few' few, by simp⟩
    · rw [if_pos major]
      constructor
      · exact fun _ major' => absurd major' major
      · intro _ refusal refused
        cases refused
        exact incompatible_short low high

/-- No buffer of the handshake overflows exactly if the attributes of the sender take at most 102
bytes and the receiver can quote the text that it has read. -/
theorem buffers_fit_iff (short : h.description.length ≤ 255) (data : List UInt8) :
    (h.helloStr.length < 128 ∧ h.text.length < 512 ∧
      ∀ refusal, parseHello data = .error refusal → refusal.message.length < 256) ↔
    h.attributeBytes ≤ 102 ∧ Quotable (data.takeWhile (· ≠ 0)) := by
  have newline : crlf.length = 2 := rfl
  rw [messages_fit_iff, text, List.length_append, List.length_append, length_helloStr, newline]
  constructor
  · rintro ⟨hello, -, messages⟩
    exact ⟨by omega, messages⟩
  · rintro ⟨hello, messages⟩
    exact ⟨by omega, by omega, messages⟩

theorem buffers_fit_sample :
    sample.Valid ∧ sample.helloStr.length < 128 ∧ sample.text.length < 512 ∧
      ∀ refusal, parseHello sample.text = .error refusal → refusal.message.length < 256 := by
  have quotable : Quotable (sample.text.takeWhile (· ≠ 0)) := by
    apply (messages_fit_iff _).mp
    intro refusal refused
    rw [parse_hello sample_valid (takeWhile_text sample_valid)] at refused
    cases refused
  have bytes : sample.attributeBytes ≤ 102 := by
    have len : sample.helloStr.length = 62 := by decide +kernel
    rw [length_helloStr] at len
    omega
  exact ⟨sample_valid, (buffers_fit_iff sample_valid.description sample.text).mpr ⟨bytes, quotable⟩⟩

/-- Attributes that `sender_create` accepts. -/
def wide : Hello where
  dataVer := 65535
  mcastAddress := ascii "239.255.255.250"
  mcastPort := 65535
  mcastMtu := 1472
  baseId := -9223372036854775808
  maxId := -9223372036854775807
  valSize := 1
  qCapacity := 0
  maxAgeUsec := 9223372036854775807
  heartbeatUsec := 9223372036854775807
  description := []

theorem wide_valid : wide.Valid where
  dataVer := by decide
  address := by decide
  solid := solid_of_all rfl
  short := by decide
  port := by decide
  mtu := by decide
  base := by decide
  max := by decide
  valSize := by decide
  qCapacity := by decide
  maxAge := by decide
  heartbeat := by decide
  positive := by decide
  description := by decide
  nonzero := by decide

/-- The hello takes 134 bytes of 128, and a message that quotes 300 bytes takes 339 of 256. -/
theorem buffers_overflow :
    wide.Valid ∧ ¬ wide.helloStr.length < 128 ∧
      ∃ refusal, parseHello (List.replicate 300 120) = .error refusal ∧
        ¬ refusal.message.length < 256 := by
  refine ⟨wide_valid, by decide +kernel, invalidWireVersion (List.replicate 300 120), ?_, ?_⟩
  · decide +kernel
  · rw [length_invalidWireVersion, List.length_replicate]
    decide

end Hello

end Lancaster
