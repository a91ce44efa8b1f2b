import Lancaster.Base.Text
import Lancaster.Storage

/-!
# The hello of a sender

A sender greets a new client with a text: the wire version and ten attributes, each on a line,
and then the description of its storage. A receiver takes what its first read finds for the
whole of it.
-/

namespace Lancaster

open Text

/-! ## The sender's side -/

structure Hello where
  dataVer : Nat
  mcastAddress : List UInt8
  mcastPort : Nat
  mcastMtu : Nat
  baseId : Int
  maxId : Int
  valSize : Nat
  qCapacity : Nat
  maxAgeUsec : Int
  heartbeatUsec : Int
  description : List UInt8
  deriving DecidableEq

def wireMajor : Nat := 2
def wireMinor : Nat := 0

/-- The major version in the upper byte, the minor in the lower. -/
def wireVersion : Nat := wireMajor * 256 + wireMinor

namespace Hello

/-- What `init` formats into `hello_str`. -/
def attributes (h : Hello) : List (List UInt8) :=
  [signed wireVersion, signed h.dataVer, h.mcastAddress, signed h.mcastPort, decimal h.mcastMtu,
   signed h.baseId, signed h.maxId, decimal h.valSize, decimal h.qCapacity, signed h.maxAgeUsec,
   signed h.heartbeatUsec]

def helloStr (h : Hello) : List UInt8 := h.attributes.flatMap (· ++ crlf)

/-- The text that `tcp_on_accept` assembles and writes. -/
def text (h : Hello) : List UInt8 := h.helloStr ++ h.description ++ crlf

/-- The ranges of the C types, and what the code has checked: an address is a word, and the
heartbeat period is positive. A description is a string of at most 255 bytes. -/
structure Valid (h : Hello) : Prop where
  dataVer : h.dataVer < 65536
  address : h.mcastAddress ≠ []
  solid : ∀ b ∈ h.mcastAddress, isSpace b = false ∧ b ≠ 0
  short : h.mcastAddress.length ≤ 31
  port : h.mcastPort < 65536
  mtu : h.mcastMtu < 18446744073709551616
  base : Bytes.IsLong h.baseId
  max : Bytes.IsLong h.maxId
  valSize : h.valSize < 18446744073709551616
  qCapacity : h.qCapacity < 18446744073709551616
  maxAge : Bytes.IsLong h.maxAgeUsec
  heartbeat : Bytes.IsLong h.heartbeatUsec
  positive : 0 < h.heartbeatUsec
  description : h.description.length ≤ 255
  nonzero : 0 ∉ h.description

end Hello

/-! ## The receiver's side -/

namespace Status

def wrongWireVersion : Int := -230

end Status

/-- What `init` takes from a hello. -/
structure Greeting where
  wireVer : Int
  dataVer : Int
  mcastAddress : List UInt8
  mcastPort : Int
  mcastMtu : Int
  baseId : Int
  maxId : Int
  valSize : Int
  pubQCapacity : Int
  maxAgeUsec : Int
  hbUsec : Int
  description : List UInt8
  deriving DecidableEq

/-- A failure with the text that is given to `error_msg`. -/
structure Refusal where
  status : Int
  message : List UInt8
  deriving DecidableEq

def wireFormat : List Directive := [.conv (.unsigned 32), .space, .count]

def attrFormat : List Directive :=
  [.conv (.unsigned 32), .space, .conv (.word 31), .space, .conv (.signed 32), .space,
   .conv (.unsigned 64), .space, .conv (.signed 64), .space, .conv (.signed 64), .space,
   .conv (.unsigned 64), .space, .conv (.unsigned 64), .space, .conv (.signed 64), .space,
   .conv (.signed 64), .space, .count]

def invalidWireVersion (buf : List UInt8) : Refusal :=
  ⟨Status.protocolError, ascii "receiver_create: invalid wire version:\n" ++ buf⟩

def incompatibleWireVersion (wireVer : Int) : Refusal :=
  ⟨Status.wrongWireVersion, ascii "receiver_create: incompatible wire version (" ++
    signed (wireVer / 256) ++ ascii "." ++ signed (wireVer % 256) ++ ascii " but expecting " ++
    signed wireMajor ++ ascii "." ++ signed wireMinor ++ ascii ")"⟩

def invalidAttributes (buf : List UInt8) : Refusal :=
  ⟨Status.protocolError, ascii "receiver_create: invalid publisher attributes:\n" ++ buf⟩

/-- The rest of the text, without its last two bytes if there are any. -/
def trimDescription (rest : List UInt8) : List UInt8 :=
  if 2 ≤ rest.length then rest.take (rest.length - 2) else rest

/-- What `init` does behind the wire version. -/
def parseAttributes (buf : List UInt8) (wireVer : Int) (wireVerLen : Nat) :
    Except Refusal Greeting :=
  match sscanf attrFormat (buf.drop wireVerLen) with
  | [.num dataVer, .text mcastAddress, .num mcastPort, .num mcastMtu, .num baseId, .num maxId,
      .num valSize, .num pubQCapacity, .num maxAgeUsec, .num hbUsec, .count protoLen] =>
    .ok {
      wireVer, dataVer, mcastAddress, mcastPort, mcastMtu, baseId, maxId, valSize, pubQCapacity,
      maxAgeUsec, hbUsec
      description := trimDescription (buf.drop (protoLen + wireVerLen)) }
  | _ => .error (invalidAttributes buf)

/-- `init` of the receiver, from the bytes that its first read has found. A zero behind them ends
the text, if there is none among them. -/
def parseHello (data : List UInt8) : Except Refusal Greeting :=
  let buf := data.takeWhile (· ≠ 0)
  match sscanf wireFormat buf with
  | [.num wireVer, .count wireVerLen] =>
    if wireVer / 256 ≠ wireMajor then .error (incompatibleWireVersion wireVer)
    else parseAttributes buf wireVer wireVerLen
  | _ => .error (invalidWireVersion buf)

/-- What a receiver should take from it. -/
def Hello.greeting (h : Hello) : Greeting where
  wireVer := wireVersion
  dataVer := h.dataVer
  mcastAddress := h.mcastAddress
  mcastPort := h.mcastPort
  mcastMtu := h.mcastMtu
  baseId := h.baseId
  maxId := h.maxId
  valSize := h.valSize
  pubQCapacity := h.qCapacity
  maxAgeUsec := h.maxAgeUsec
  hbUsec := h.heartbeatUsec
  description := h.description

/-! ## Reading a hello -/

/-- `%ld` reads a long. -/
theorem reads_long {x : Int} (long : Bytes.IsLong x) : Reads (.signed 64) (signed x) (.num x) := by
  obtain ⟨low, high⟩ := long
  apply reads_signed (by decide) (by decide)
  · norm_num
    exact low
  · norm_num
    exact high

/-- `%lu` reads a `size_t`. -/
theorem reads_size {n : Nat} (small : n < 18446744073709551616) :
    Reads (.unsigned 64) (decimal n) (.num n) := by
  apply reads_unsigned _ (by decide)
  norm_num
  exact small

def wireField : TextField :=
  ⟨.unsigned 32, decimal wireVersion, .num wireVersion, reads_unsigned (by decide) (by decide)⟩

namespace Hello

variable {h : Hello}

theorem Valid.reads_dataVer (valid : h.Valid) :
    Reads (.unsigned 32) (decimal h.dataVer) (.num h.dataVer) := by
  have small := valid.dataVer
  apply reads_unsigned _ (by decide)
  norm_num
  omega

theorem Valid.reads_port (valid : h.Valid) :
    Reads (.signed 32) (signed h.mcastPort) (.num h.mcastPort) := by
  have small := valid.port
  apply reads_signed (by decide) (by decide)
  · omega
  · norm_num
    omega

theorem Valid.reads_address (valid : h.Valid) :
    Reads (.word 31) h.mcastAddress (.text h.mcastAddress) :=
  reads_word valid.address (fun b here => (valid.solid b here).1) valid.short

def firstFields (valid : h.Valid) : List TextField :=
  [⟨_, _, _, valid.reads_dataVer⟩, ⟨_, _, _, valid.reads_address⟩, ⟨_, _, _, valid.reads_port⟩,
   ⟨_, _, _, reads_size valid.mtu⟩, ⟨_, _, _, reads_long valid.base⟩,
   ⟨_, _, _, reads_long valid.max⟩, ⟨_, _, _, reads_size valid.valSize⟩,
   ⟨_, _, _, reads_size valid.qCapacity⟩, ⟨_, _, _, reads_long valid.maxAge⟩]

def heartbeatField (valid : h.Valid) : TextField := ⟨_, _, _, reads_long valid.heartbeat⟩

theorem helloStr_eq (valid : h.Valid) :
    h.helloStr = lines [wireField] ++ (lines (firstFields valid) ++ lines [heartbeatField valid]) := by
  have wire : signed (wireVersion : Int) = decimal wireVersion := signed_natCast _
  have data : signed (h.dataVer : Int) = decimal h.dataVer := signed_natCast _
  have texts : h.attributes =
      ([wireField] ++ (firstFields valid ++ [heartbeatField valid])).map TextField.text := by
    simp only [attributes, wire, data, firstFields, heartbeatField, wireField, List.map_cons,
      List.map_nil, List.cons_append, List.nil_append]
  simp only [helloStr, texts, lines, List.flatMap_map, List.flatMap_append]

theorem attrFormat_eq (valid : h.Valid) :
    attrFormat = convs (firstFields valid) ++ .conv (.signed 64) :: [.space, .count] := by
  simp only [attrFormat, convs, firstFields, List.flatMap_cons, List.flatMap_nil,
    List.cons_append, List.nil_append]

theorem drop_suffix {s t : List UInt8} (suffix : t <:+ s) : s.drop (s.length - t.length) = t :=
  (List.suffix_iff_eq_drop.mp suffix).symm

/-- The line with the wire version is read, whatever is behind it. -/
theorem scan_wire (tail : List UInt8) :
    sscanf wireFormat (lines [wireField] ++ tail) =
      [.num wireVersion,
       .count ((lines [wireField] ++ tail).length - (tail.dropWhile isSpace).length)] := by
  have read : scan (lines [wireField] ++ tail).length (convs [wireField] ++ [.count])
      ((lines [wireField] ++ tail).dropWhile isSpace) = _ := scan_lines [wireField] [.count] tail
  rw [dropWhile_solid (lines_solid wireField [] tail)] at read
  exact read

/-- All attributes are read, whatever is behind them. -/
theorem scan_attributes (valid : h.Valid) (tail : List UInt8) :
    sscanf attrFormat (lines (firstFields valid ++ [heartbeatField valid]) ++ tail) =
      (firstFields valid ++ [heartbeatField valid]).map TextField.item ++
      [.count ((lines (firstFields valid ++ [heartbeatField valid]) ++ tail).length -
        (tail.dropWhile isSpace).length)] := by
  have fmt : attrFormat = convs (firstFields valid ++ [heartbeatField valid]) ++ [.count] := by
    rw [attrFormat_eq valid]
    simp only [convs, List.flatMap_append, List.append_assoc]
    rfl
  have solid : ∀ b ∈ (lines (firstFields valid ++ [heartbeatField valid]) ++ tail).head?,
      isSpace b = false := lines_solid _ _ tail
  rw [sscanf, fmt]
  generalize (lines (firstFields valid ++ [heartbeatField valid]) ++ tail).length = total
  nth_rewrite 1 [← dropWhile_solid solid]
  rw [scan_lines]
  rfl

/-- Behind the line with the wire version, the attributes are looked for. -/
theorem parse_wire {data tail : List UInt8}
    (buf : data.takeWhile (· ≠ 0) = lines [wireField] ++ tail) :
    ∃ n ≤ (lines [wireField] ++ tail).length,
      (lines [wireField] ++ tail).drop n = tail.dropWhile isSpace ∧
      parseHello data = parseAttributes (lines [wireField] ++ tail) wireVersion n := by
  refine ⟨(lines [wireField] ++ tail).length - (tail.dropWhile isSpace).length, by omega, ?_, ?_⟩
  · exact drop_suffix ((List.dropWhile_suffix _).trans (List.suffix_append _ _))
  · have major : ¬ ((wireVersion : Int) / 256 ≠ (wireMajor : Int)) := by decide
    unfold parseHello
    dsimp only
    rw [buf, scan_wire]
    exact if_neg major

/-- All attributes are recovered, and the description is what is behind them, without white space
before and two bytes after. -/
theorem parse_attributes (valid : h.Valid) {buf tail : List UInt8} {n : Nat}
    (rest : buf.drop n = lines (firstFields valid ++ [heartbeatField valid]) ++ tail) :
    parseAttributes buf wireVersion n =
      .ok { h.greeting with description := trimDescription (tail.dropWhile isSpace) } := by
  have behind : (buf.drop n).drop ((buf.drop n).length - (tail.dropWhile isSpace).length) =
      tail.dropWhile isSpace := by
    apply drop_suffix
    rw [rest]
    exact (List.dropWhile_suffix _).trans (List.suffix_append _ _)
  rw [List.drop_drop, Nat.add_comm, rest] at behind
  unfold parseAttributes
  rw [rest, scan_attributes valid tail]
  simp only [firstFields, heartbeatField, List.map_cons, List.map_nil, List.cons_append,
    List.nil_append]
  simp only [firstFields, heartbeatField, List.cons_append, List.nil_append] at behind
  rw [behind]
  rfl

theorem lines_append (fs gs : List TextField) : lines (fs ++ gs) = lines fs ++ lines gs :=
  List.flatMap_append

/-- A hello is recovered but for its description, which ends where the text does. -/
theorem parse_hello (valid : h.Valid) {data tail : List UInt8}
    (buf : data.takeWhile (· ≠ 0) = h.helloStr ++ tail) :
    parseHello data =
      .ok { h.greeting with description := trimDescription (tail.dropWhile isSpace) } := by
  have shape : h.helloStr ++ tail =
      lines [wireField] ++ (lines (firstFields valid ++ [heartbeatField valid]) ++ tail) := by
    rw [helloStr_eq valid, lines_append, List.append_assoc]
  have solid : (lines (firstFields valid ++ [heartbeatField valid]) ++ tail).dropWhile isSpace =
      lines (firstFields valid ++ [heartbeatField valid]) ++ tail :=
    dropWhile_solid (lines_solid _ _ tail)
  rw [shape] at buf
  obtain ⟨n, -, rest, parsed⟩ := parse_wire buf
  rw [parsed]
  exact parse_attributes valid (rest.trans solid)

theorem helloStr_nonzero (valid : h.Valid) : ∀ b ∈ h.helloStr, b ≠ 0 := by
  intro b here
  obtain ⟨text, listed, inside⟩ := List.mem_flatMap.mp here
  rcases List.mem_append.mp inside with inside | inside
  · simp only [attributes, List.mem_cons, List.not_mem_nil, or_false] at listed
    rcases listed with rfl | rfl | rfl | rfl | rfl | rfl | rfl | rfl | rfl | rfl | rfl
    case inr.inr.inl => exact (valid.solid b inside).2
    all_goals first
      | exact signed_nonzero inside
      | exact decimal_nonzero inside
  · rintro rfl
    revert inside
    decide

theorem text_nonzero (valid : h.Valid) : ∀ b ∈ h.text, decide (b ≠ 0) = true := by
  intro b here
  apply decide_eq_true
  rw [text, List.append_assoc] at here
  rcases List.mem_append.mp here with here | here
  · exact helloStr_nonzero valid b here
  · rintro rfl
    rcases List.mem_append.mp here with here | here
    · exact valid.nonzero here
    · revert here
      decide

/-- The text has no zero, so it is read to its end. -/
theorem takeWhile_text (valid : h.Valid) :
    h.text.takeWhile (· ≠ 0) = h.helloStr ++ (h.description ++ crlf) := by
  rw [takeWhile_all (text_nonzero valid), text, List.append_assoc]

theorem trimDescription_prefix (rest : List UInt8) : trimDescription rest <+: rest := by
  unfold trimDescription
  split
  · exact List.take_prefix _ _
  · exact List.prefix_rfl

/-- A description that does not begin with white space is recovered, and no other. -/
theorem trimDescription_iff (description : List UInt8) :
    trimDescription ((description ++ crlf).dropWhile isSpace) = description ↔
      ∀ b ∈ description.head?, isSpace b = false := by
  cases description with
  | nil =>
    simp only [List.nil_append, blank_crlf.dropWhile]
    exact ⟨fun _ => nofun, fun _ => rfl⟩
  | cons b ds =>
    constructor
    · intro same b' here
      obtain rfl : b = b' := Option.some.inj here
      have front := trimDescription_prefix ((b :: ds ++ crlf).dropWhile isSpace)
      rw [same] at front
      obtain ⟨more, eq⟩ := front
      have first := List.head?_dropWhile_not isSpace (b :: ds ++ crlf)
      rw [← eq] at first
      exact first
    · intro solid
      have len : crlf.length = 2 := rfl
      have solid' : ∀ c ∈ (b :: ds ++ crlf).head?, isSpace c = false := solid
      rw [dropWhile_solid solid', trimDescription, if_pos (by simp [len]), List.length_append, len,
        Nat.add_sub_cancel, List.take_left]

/-- What is recovered is the whole of the hello if its description is. -/
theorem described_iff (h : Hello) :
    ({ h.greeting with
        description := trimDescription ((h.description ++ crlf).dropWhile isSpace) } : Greeting) =
      h.greeting ↔ ∀ b ∈ h.description.head?, isSpace b = false := by
  rw [← trimDescription_iff]
  constructor
  · exact congrArg Greeting.description
  · intro same
    rw [same]
    rfl

/-- A receiver recovers a hello from the whole of its text exactly if the description does not
begin with white space. -/
theorem round_trip (valid : h.Valid) :
    parseHello h.text = .ok h.greeting ↔ ∀ b ∈ h.description.head?, isSpace b = false := by
  rw [parse_hello valid (takeWhile_text valid), ← described_iff]
  exact ⟨Except.ok.inj, congrArg Except.ok⟩

def sample : Hello where
  dataVer := 1
  mcastAddress := ascii "227.1.1.1"
  mcastPort := 26511
  mcastMtu := 1472
  baseId := 0
  maxId := 100
  valSize := 8
  qCapacity := 64
  maxAgeUsec := 2000
  heartbeatUsec := 1000000
  description := ascii "TEST"

/-- The address of a hello is a word, as a computation. -/
theorem solid_of_all {address : List UInt8}
    (all : address.all (fun b => !isSpace b && b != 0) = true) :
    ∀ b ∈ address, isSpace b = false ∧ b ≠ 0 := by
  simpa using all

theorem sample_valid : sample.Valid where
  dataVer := by decide
  address := by decide
  solid := solid_of_all rfl
  short := by decide
  port := by decide
  mtu := by decide
  base := by decide
  max := by decide
  valSize := by decide
  qCapacity := by decide
  maxAge := by decide
  heartbeat := by decide
  positive := by decide
  description := by decide
  nonzero := by decide

theorem sample_solid : ∀ b ∈ sample.description.head?, isSpace b = false := by
  intro b here
  obtain rfl := Option.some.inj here
  rfl

theorem round_trip_sample : sample.Valid ∧ parseHello sample.text = .ok sample.greeting :=
  ⟨sample_valid, (round_trip sample_valid).mpr sample_solid⟩

/-- A blank before the description is lost. -/
theorem blank_lost :
    let h := { sample with description := ascii " TEST" }
    h.Valid ∧ parseHello h.text = .ok { h.greeting with description := ascii "TEST" } ∧
      parseHello h.text ≠ .ok h.greeting := by
  have read : parseHello { sample with description := ascii " TEST" }.text =
      .ok { sample.greeting with description := ascii "TEST" } := by decide +kernel
  refine ⟨{ sample_valid with description := by decide, nonzero := by decide }, read, ?_⟩
  rw [read]
  decide +kernel

/-! ## Cuts -/

/-- The number of bytes before the heartbeat period, which is the last of the attributes. -/
def heartbeatOffset (h : Hello) : Nat := (h.attributes.dropLast.flatMap (· ++ crlf)).length

/-- After a first read of `k` bytes of the stream, either the hello is recovered and the frames are
left, or the protocol is violated. -/
def Segmented (h : Hello) (frames : List UInt8) (k : Nat) : Prop :=
  (parseHello ((h.text ++ frames).take k) = .ok h.greeting ∧
    (h.text ++ frames).drop k = frames) ∨
  ∃ refusal, parseHello ((h.text ++ frames).take k) = .error refusal ∧
    refusal.status = Status.protocolError

theorem decimal_wireVersion : decimal wireVersion = [53, 49, 50] := by decide +kernel

theorem lines_wireField : lines [wireField] = [53, 49, 50, 13, 10] := by
  simp only [lines, wireField, decimal_wireVersion, List.flatMap_cons, List.flatMap_nil]
  rfl

theorem heartbeatOffset_eq (valid : h.Valid) :
    h.heartbeatOffset = (lines [wireField] ++ lines (firstFields valid)).length := by
  have texts : h.attributes = ([wireField] ++ firstFields valid).map TextField.text ++
      [signed h.heartbeatUsec] := by
    have wire : signed (wireVersion : Int) = decimal wireVersion := signed_natCast _
    have data : signed (h.dataVer : Int) = decimal h.dataVer := signed_natCast _
    simp only [attributes, wire, data, firstFields, wireField, List.map_cons, List.map_nil,
      List.cons_append, List.nil_append]
  rw [heartbeatOffset, texts, List.dropLast_concat, List.flatMap_map, ← lines_append, lines]

/-- The stream, cut before the heartbeat period. -/
theorem stream_eq (valid : h.Valid) (frames : List UInt8) :
    h.text ++ frames = (lines [wireField] ++ lines (firstFields valid)) ++
      (signed h.heartbeatUsec ++ (crlf ++ (h.description ++ (crlf ++ frames)))) := by
  have last : lines [heartbeatField valid] = signed h.heartbeatUsec ++ crlf := by
    simp only [lines, heartbeatField, List.flatMap_cons, List.flatMap_nil, List.append_nil]
  rw [text, helloStr_eq valid, last]
  simp only [List.append_assoc]

/-- With less than ten conversions the attributes are refused. -/
theorem parse_few {buf : List UInt8} {wireVer : Int} {n : Nat}
    (few : conversions (sscanf attrFormat (buf.drop n)) < 10) :
    parseAttributes buf wireVer n = .error (invalidAttributes buf) := by
  unfold parseAttributes
  split
  next eq =>
    rw [eq] at few
    revert few
    simp [conversions]
  · rfl

variable {frames : List UInt8} {k : Nat}

theorem front_nonzero (valid : h.Valid) :
    ∀ b ∈ lines [wireField] ++ lines (firstFields valid), decide (b ≠ 0) = true := by
  intro b here
  apply decide_eq_true
  apply helloStr_nonzero valid
  rw [helloStr_eq valid, ← List.append_assoc]
  exact List.mem_append_left _ here

/-- A part of the wire version is another version. -/
theorem cut_version (valid : h.Valid) (frames : List UInt8) (positive : 1 ≤ k) (short : k < 3) :
    ∃ refusal, parseHello ((h.text ++ frames).take k) = .error refusal ∧
      refusal.status = Status.wrongWireVersion := by
  rw [stream_eq valid, lines_wireField]
  have five : parseHello [53] = .error (incompatibleWireVersion 5) := rfl
  have fiftyOne : parseHello [53, 49] = .error (incompatibleWireVersion 51) := rfl
  obtain rfl | rfl : k = 1 ∨ k = 2 := by omega
  · exact ⟨_, five, rfl⟩
  · exact ⟨_, fiftyOne, rfl⟩

/-- A text that ends behind the wire version and before the heartbeat period is refused. -/
theorem cut_attributes (valid : h.Valid) (frames : List UInt8) (version : 3 ≤ k)
    (short : k ≤ h.heartbeatOffset) :
    ∃ refusal, parseHello ((h.text ++ frames).take k) = .error refusal ∧
      refusal.status = Status.protocolError := by
  have front : (h.text ++ frames).take k =
      (lines [wireField] ++ lines (firstFields valid)).take k := by
    rw [heartbeatOffset_eq valid] at short
    rw [stream_eq valid, List.take_append_of_le_length short]
  have zeros : ((h.text ++ frames).take k).takeWhile (· ≠ 0) = (h.text ++ frames).take k := by
    apply takeWhile_all
    intro b here
    rw [front] at here
    exact front_nonzero valid b (List.mem_of_mem_take here)
  have len : (lines [wireField]).length = 5 := by
    rw [lines_wireField]
    rfl
  by_cases line : k < 5
  · rw [front, lines_wireField]
    have alone : parseHello [53, 49, 50] = .error (invalidAttributes [53, 49, 50]) := rfl
    have begun : parseHello [53, 49, 50, 13] = .error (invalidAttributes [53, 49, 50, 13]) := rfl
    obtain rfl | rfl : k = 3 ∨ k = 4 := by omega
    · exact ⟨_, alone, rfl⟩
    · exact ⟨_, begun, rfl⟩
  · have shape : (h.text ++ frames).take k =
        lines [wireField] ++ (lines (firstFields valid)).take (k - 5) := by
      rw [front, List.take_append, List.take_of_length_le (by omega), len]
    obtain ⟨n, -, rest, parsed⟩ := parse_wire (zeros.trans shape)
    refine ⟨_, parsed.trans (parse_few ?_), rfl⟩
    rw [rest, attrFormat_eq valid]
    exact Nat.lt_succ_of_le (conversions_part (firstFields valid) _ _ (k - 5))

/-- From the first digit of the heartbeat period on a text is accepted. -/
theorem cut_accepted (valid : h.Valid) (frames : List UInt8) (long : h.heartbeatOffset < k) :
    ∃ greeting, parseHello ((h.text ++ frames).take k) = .ok greeting := by
  obtain ⟨d, ds, digits⟩ := List.exists_cons_of_ne_nil (decimal_ne_nil h.heartbeatUsec.natAbs)
  have positive := valid.positive
  have hb : signed h.heartbeatUsec = d :: ds := by
    have nat : signed h.heartbeatUsec.natAbs = decimal h.heartbeatUsec.natAbs := signed_natCast _
    rw [Int.natAbs_of_nonneg (by omega), digits] at nat
    exact nat
  have digit : isDigit d = true := decimal_digits h.heartbeatUsec.natAbs d (by simp [digits])
  have zero : decide (d ≠ 0) = true :=
    decide_eq_true (decimal_nonzero (n := h.heartbeatUsec.natAbs) (by simp [digits]))
  obtain ⟨more, shape⟩ : ∃ more, ((h.text ++ frames).take k).takeWhile (· ≠ 0) =
      lines [wireField] ++ (lines (firstFields valid) ++ d :: more) := by
    rw [heartbeatOffset_eq valid] at long
    obtain ⟨m, eq⟩ : ∃ m, k - (lines [wireField] ++ lines (firstFields valid)).length = m + 1 :=
      ⟨k - (lines [wireField] ++ lines (firstFields valid)).length - 1, by omega⟩
    refine ⟨((ds ++ (crlf ++ (h.description ++ (crlf ++ frames)))).take m).takeWhile (· ≠ 0), ?_⟩
    rw [stream_eq valid, List.take_append, List.take_of_length_le long.le, eq, hb, List.cons_append,
      List.take_succ_cons, List.takeWhile_append_of_pos (front_nonzero valid),
      List.takeWhile_cons_of_pos (p := fun b => decide (b ≠ 0)) zero, List.append_assoc]
  obtain ⟨n, -, rest, parsed⟩ := parse_wire shape
  have solid : ∀ b ∈ (lines (firstFields valid) ++ d :: more).head?, isSpace b = false :=
    lines_solid _ _ _
  obtain ⟨x, left, number⟩ := scanNumber_digit digit more
  have scanned : ∀ total, scan total attrFormat (lines (firstFields valid) ++ d :: more) =
      (firstFields valid).map TextField.item ++
        [.num (toSigned 64 false x), .count (total - (left.dropWhile isSpace).length)] := by
    intro total
    have read : scan total (convs (firstFields valid) ++ .conv (.signed 64) :: [.space, .count])
        ((lines (firstFields valid) ++ d :: more).dropWhile isSpace) = _ := scan_lines _ _ _
    have first : (d :: more).dropWhile isSpace = d :: more :=
      List.dropWhile_cons_of_neg (by rw [isDigit_not_space digit]; decide)
    rw [dropWhile_solid solid, ← attrFormat_eq valid, first] at read
    rw [read]
    simp only [scan, Conv.scan, number, Option.map_some]
  rw [dropWhile_solid solid] at rest
  rw [parsed, parseAttributes, rest, sscanf, scanned]
  exact ⟨_, rfl⟩

theorem drop_frames (enough : k ≤ (h.text ++ frames).length)
    (eq : (h.text ++ frames).drop k = frames) : k = h.text.length := by
  have len := congrArg List.length eq
  rw [List.length_drop] at len
  rw [List.length_append] at len enough
  omega

theorem offset_lt_text (valid : h.Valid) : h.heartbeatOffset < h.text.length := by
  have len := congrArg List.length (stream_eq valid [])
  have pos : 0 < crlf.length := by decide
  rw [List.append_nil, List.length_append, ← heartbeatOffset_eq valid, List.length_append,
    List.length_append] at len
  omega

/-- However the stream is cut, a receiver recovers the hello and leaves the frames, or finds a
protocol error, exactly if its first read ends behind the wire version and before the heartbeat
period, or with the hello and the description does not begin with white space. -/
theorem segmented_iff (valid : h.Valid) (frames : List UInt8) (positive : 1 ≤ k)
    (sent : k ≤ (h.text ++ frames).length) :
    h.Segmented frames k ↔
      (3 ≤ k ∧ k ≤ h.heartbeatOffset) ∨
      (k = h.text.length ∧ ∀ b ∈ h.description.head?, isSpace b = false) := by
  have after := offset_lt_text valid
  by_cases inside : k ≤ h.heartbeatOffset
  · by_cases version : 3 ≤ k
    · exact ⟨fun _ => Or.inl ⟨version, inside⟩,
        fun _ => Or.inr (cut_attributes valid frames version inside)⟩
    · obtain ⟨refusal, refused, wrong⟩ := cut_version valid frames positive (by omega)
      have no : ¬ h.Segmented frames k := by
        rintro (⟨accepted, -⟩ | ⟨r, eq, status⟩)
        · rw [refused] at accepted
          cases accepted
        · rw [refused] at eq
          cases eq
          rw [wrong] at status
          exact absurd status (by decide)
      constructor
      · exact fun yes => absurd yes no
      · rintro (⟨version', -⟩ | ⟨rfl, -⟩) <;> omega
  · have beyond : h.heartbeatOffset < k := by omega
    obtain ⟨greeting, accepted⟩ := cut_accepted valid frames beyond
    have whole : k = h.text.length →
        (parseHello ((h.text ++ frames).take k) = .ok h.greeting ↔
          ∀ b ∈ h.description.head?, isSpace b = false) := by
      rintro rfl
      rw [List.take_left, parse_hello valid (takeWhile_text valid), ← described_iff]
      exact ⟨Except.ok.inj, congrArg Except.ok⟩
    constructor
    · rintro (⟨same, left⟩ | ⟨r, refused, -⟩)
      · have last := drop_frames sent left
        exact Or.inr ⟨last, (whole last).mp same⟩
      · rw [accepted] at refused
        cases refused
    · rintro (⟨-, inside'⟩ | ⟨last, solid⟩)
      · exact absurd inside' inside
      · refine Or.inl ⟨(whole last).mpr solid, ?_⟩
        rw [last, List.drop_left]

theorem segmented_iff_sample : sample.Valid ∧ sample.Segmented [] 10 ∧ sample.Segmented [0] 68 := by
  have offset : sample.heartbeatOffset = 53 := by decide +kernel
  have len : sample.text.length = 68 := by decide +kernel
  refine ⟨sample_valid, ?_, ?_⟩
  · apply (segmented_iff sample_valid [] (by decide) (by rw [List.append_nil, len]; decide)).mpr
    rw [offset]
    decide
  · apply (segmented_iff sample_valid [0] (by decide) (by rw [List.length_append, len]; decide)).mpr
    rw [len]
    exact Or.inr ⟨rfl, sample_solid⟩

/-- With a read that ends behind the first digit of the heartbeat period, a receiver expects a
heartbeat each microsecond and takes the rest of the hello for frames. -/
theorem heartbeat_cut :
    sample.Valid ∧
      parseHello (sample.text.take 54) =
        .ok { sample.greeting with hbUsec := 1, description := [] } ∧
      ¬ sample.Segmented [] 54 := by
  have read : parseHello (sample.text.take 54) =
      .ok { sample.greeting with hbUsec := 1, description := [] } := by decide +kernel
  refine ⟨sample_valid, read, ?_⟩
  unfold Segmented
  rw [List.append_nil, read]
  rintro (⟨same, -⟩ | ⟨refusal, refused, -⟩)
  · revert same
    decide +kernel
  · cases refused

end Hello

end Lancaster
