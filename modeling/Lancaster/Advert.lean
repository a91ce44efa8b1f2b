import Lancaster.Base.Json
import Lancaster.Handshake
import Mathlib.Data.Bool.AllAny
import Mathlib.Data.Finset.Card
import Mathlib.Data.Multiset.MapFold

/-!
# Advertisements

A publisher tells by multicast which senders it has. `advert_publish` and `advert_retract` keep
a list of notices, and build the message from it each time: with `sprintf` and `strcat`, in
arrays of fixed sizes. `submux` reads the message with `json.Unmarshal`.

A text that does not fit its array leaves the model without a result.
-/

namespace Lancaster

open Text

/-- What a sender makes known: the port that it listens to, and the description of its
storage. -/
structure Feed where
  port : Nat
  description : List UInt8
  port_short : port < 65536
  length_description : description.length ≤ 255
  printable : ∀ b ∈ description, 32 ≤ b ∧ b ≤ 126

/-- `struct notice`. A sender is known by its handle. -/
structure Notice where
  sender : Nat
  jsonDesc : List UInt8

/-- `struct advert`, without what concerns the socket and the thread. -/
structure Advert where
  env : List UInt8
  notices : List Notice
  jsonMsg : Option (List UInt8)

namespace Advert

def initial (env : Option (List UInt8)) : Advert := ⟨env.getD [], [], none⟩

/-- The text and its final zero in an array. -/
def fit (size : Nat) (text : List UInt8) : Option (List UInt8) :=
  if text.length < size then some text else none

/-- The loop of `escape_quotes`. -/
def escape : List UInt8 → List UInt8
  | [] => []
  | b :: s => if b = 34 then 92 :: b :: escape s else b :: escape s

def escapeQuotes (s : List UInt8) : Option (List UInt8) := fit 512 (escape s)

def makeJsonMap (name : List UInt8) (advert : Advert) : Option (List UInt8) := do
  let escaped ← escapeQuotes name
  let hostname ← fit 256 escaped
  let env ← escapeQuotes advert.env
  fit 8192 (ascii "\x7b\"hostname\":\"" ++ hostname ++ ascii "\", \"env\":\"" ++ env ++
    ascii "\", \"version\":\"" ++ decimal wireMajor ++ ascii "." ++ decimal wireMinor ++
    ascii "\", \"data\":[" ++ Json.separated (advert.notices.map (·.jsonDesc)) ++ ascii "]\x7d")

def makeJsonNotice (feed : Feed) : Option (List UInt8) := do
  let description ← escapeQuotes feed.description
  fit 512 (ascii "\x7b\"port\":" ++ decimal feed.port ++ ascii ", \"description\":\"" ++
    description ++ ascii "\"\x7d")

/-- What the system answers during a call. -/
structure Answers where
  /-- Whether there is memory for a notice. -/
  noticeMemory : Bool
  /-- Whether there is memory for its text. -/
  descMemory : Bool
  hostname : Except Int (List UInt8)
  /-- Whether there is memory for the message. -/
  msgMemory : Bool
  lock : Except Int Unit

/-- The message is built, copied, and takes the place of the last one. -/
def rebuild (answers : Answers) (advert : Advert) : Option (Int × Advert) :=
  match answers.hostname with
  | .error st => some (st, advert)
  | .ok name => do
    let msg ← makeJsonMap name advert
    if answers.msgMemory = false then some (Status.noMemory, advert)
    else
      match answers.lock with
      | .error st => some (st, advert)
      | .ok () => some (Status.ok, { advert with jsonMsg := some msg })

def senders (advert : Advert) : List Nat := advert.notices.map (·.sender)

def advertPublish (feeds : Nat → Feed) (answers : Answers) (advert : Advert) :
    Option Nat → Option (Int × Advert)
  | none => some (Status.invalidArg, advert)
  | some sender =>
    if sender ∈ advert.senders then some (Status.ok, advert)
    else if answers.noticeMemory = false then some (Status.noMemory, advert)
    else do
      let json ← makeJsonNotice (feeds sender)
      if answers.descMemory = false then some (Status.noMemory, advert)
      else rebuild answers { advert with notices := ⟨sender, json⟩ :: advert.notices }

/-- The loop of `advert_retract`: the list without the notice, if it is there. -/
def unlink (sender : Nat) : List Notice → Option (List Notice)
  | [] => none
  | n :: ns => if n.sender = sender then some ns else (unlink sender ns).map (n :: ·)

def advertRetract (answers : Answers) (advert : Advert) : Option Nat → Option (Int × Advert)
  | none => some (Status.invalidArg, advert)
  | some sender =>
    match unlink sender advert.notices with
    | some notices => rebuild answers { advert with notices := notices }
    | none => some (Status.notFound, advert)

/-! ## The reader -/

/-- An element of `Data`. -/
structure Entry where
  port : Int
  description : List UInt8
deriving DecidableEq

structure Discovery where
  hostname : List UInt8
  env : List UInt8
  version : List UInt8
  data : List Entry
deriving DecidableEq

/-- A name as the fields are compared with it: without regard to case, and with the two letters
outside ASCII that have one of ASCII as another case. -/
def foldName : List UInt8 → List UInt8
  | [] => []
  | 197 :: 191 :: s => 115 :: foldName s
  | 226 :: 132 :: 170 :: s => 107 :: foldName s
  | b :: s => (if 65 ≤ b ∧ b ≤ 90 then b + 32 else b) :: foldName s

/-- `strconv.ParseInt` for a number of JSON. -/
def parseInt (token : List UInt8) : Option Int :=
  let (negative, digits) := takeSign token
  if digits = [] ∨ digits.all isDigit = false then none
  else
    let x : Int := if negative then -valueOf digits else valueOf digits
    if -2 ^ 63 ≤ x ∧ x < 2 ^ 63 then some x else none

def setString (old : List UInt8) : Json.Value → Option (List UInt8)
  | .null => some old
  | .str s => some s
  | _ => none

def setInt (old : Int) : Json.Value → Option Int
  | .null => some old
  | .num token => parseInt token
  | _ => none

def setEntry (entry : Entry) (m : List UInt8 × Json.Value) : Option Entry :=
  if foldName m.1 = ascii "port" then
    (setInt entry.port m.2).map fun x => { entry with port := x }
  else if foldName m.1 = ascii "description" then
    (setString entry.description m.2).map fun s => { entry with description := s }
  else some entry

def readEntry : Json.Value → Option Entry
  | .null => some ⟨0, []⟩
  | .obj ms => ms.foldlM setEntry ⟨0, []⟩
  | _ => none

def readData : Json.Value → Option (List Entry)
  | .null => some []
  | .arr vs => vs.mapM readEntry
  | _ => none

def setField (disc : Discovery) (m : List UInt8 × Json.Value) : Option Discovery :=
  if foldName m.1 = ascii "hostname" then
    (setString disc.hostname m.2).map fun s => { disc with hostname := s }
  else if foldName m.1 = ascii "env" then
    (setString disc.env m.2).map fun s => { disc with env := s }
  else if foldName m.1 = ascii "version" then
    (setString disc.version m.2).map fun s => { disc with version := s }
  else if foldName m.1 = ascii "data" then
    (readData m.2).map fun es => { disc with data := es }
  else some disc

/-- `json.Unmarshal` into an empty `Discovery`. -/
def unmarshal (msg : List UInt8) : Option Discovery :=
  match Json.parse msg with
  | some .null => some ⟨[], [], [], []⟩
  | some (.obj ms) => ms.foldlM setField ⟨[], [], [], []⟩
  | _ => none

/-! ## Calls -/

inductive Call where
  | publish (sender : Option Nat)
  | retract (sender : Option Nat)

structure Request where
  call : Call
  answers : Answers

/-- The status and the state after a call. -/
def request (feeds : Nat → Feed) (advert : Advert) (r : Request) : Option (Int × Advert) :=
  match r.call with
  | .publish sender => advertPublish feeds r.answers advert sender
  | .retract sender => advertRetract r.answers advert sender

def run (feeds : Nat → Feed) : Advert → List Request → Option Advert
  | advert, [] => some advert
  | advert, r :: rs =>
    match request feeds advert r with
    | some (_, after) => run feeds after rs
    | none => none

/-! ## What is advertised -/

/-- The name of the host, if the message is replaced. -/
def Answers.built (answers : Answers) : Option (List UInt8) :=
  match answers.hostname, answers.msgMemory, answers.lock with
  | .ok name, true, .ok () => some name
  | _, _, _ => none

/-- The senders that are published, and what was last made known: the name of the host and the
senders of that time. -/
structure Board where
  published : Finset Nat
  told : Option (List UInt8 × Finset Nat)

namespace Board

def initial : Board := ⟨∅, none⟩

def tell (board : Board) (answers : Answers) : Board :=
  match answers.built with
  | some name => { board with told := some (name, board.published) }
  | none => board

/-- What a call means. Without memory for a notice nothing is published. -/
def step (board : Board) (r : Request) : Board :=
  match r.call with
  | .publish (some sender) =>
    if sender ∈ board.published then board
    else if r.answers.noticeMemory && r.answers.descMemory then
      tell { board with published := insert sender board.published } r.answers
    else board
  | .retract (some sender) =>
    if sender ∈ board.published then
      tell { board with published := board.published.erase sender } r.answers
    else board
  | .publish none | .retract none => board

end Board

def entryOf (feed : Feed) : Entry := ⟨feed.port, feed.description⟩

/-- The message is valid, and is read as the name of the host, the environment, and each sender
once. -/
def Decodes (feeds : Nat → Feed) (name env : List UInt8) (told : Finset Nat) (msg : List UInt8) :
    Prop :=
  ∃ disc, unmarshal msg = some disc ∧ disc.hostname = name ∧ disc.env = env ∧
    (disc.data : Multiset Entry) = told.val.map fun sender => entryOf (feeds sender)

structure Shows (feeds : Nat → Feed) (env : List UInt8) (board : Board) (advert : Advert) :
    Prop where
  nodup : advert.senders.Nodup
  published : advert.senders.toFinset = board.published
  silent : board.told = none → advert.jsonMsg = none
  message : ∀ name told, board.told = some (name, told) →
    ∃ msg, advert.jsonMsg = some msg ∧ Decodes feeds name env told msg

/-! ## Room -/

/-- The length with a backslash before each quote. -/
def escapedSize (s : List UInt8) : Nat := s.length + s.count 34

def noticeSize (feed : Feed) : Nat :=
  27 + (decimal feed.port).length + escapedSize feed.description

def mapSize (name env : List UInt8) (feeds : List Feed) : Nat :=
  53 + escapedSize name + escapedSize env + (feeds.map noticeSize).sum + 2 * (feeds.length - 1)

/-- Neither a control character nor a backslash, and well formed UTF-8. -/
def Plain (s : List UInt8) : Prop := (∀ b ∈ s, 32 ≤ b ∧ b ≠ 92) ∧ Json.wellFormed s = true

/-- A message for these senders fits the arrays, and the strings that go into a new one are
plain. -/
def RoomFor (feeds : Nat → Feed) (env : List UInt8) (senders : List Nat) (answers : Answers) :
    Prop :=
  (∀ name, answers.hostname = .ok name → escapedSize name < 256 ∧ escapedSize env < 512 ∧
    mapSize name env (senders.map feeds) < 8192) ∧
  ∀ name, answers.built = some name → Plain name ∧ Plain env

/-- A call that changes the list leaves room, and no description that is published has a
backslash. -/
def Fits (feeds : Nat → Feed) (advert : Advert) (r : Request) : Prop :=
  match r.call with
  | .publish (some sender) => sender ∉ advert.senders → r.answers.noticeMemory = true →
    noticeSize (feeds sender) < 512 ∧ (r.answers.descMemory = true →
      92 ∉ (feeds sender).description ∧
        RoomFor feeds advert.env (sender :: advert.senders) r.answers)
  | .retract (some sender) => sender ∈ advert.senders →
    RoomFor feeds advert.env (advert.senders.erase sender) r.answers
  | .publish none | .retract none => True

/-- Every call of a run fits the state that it finds. -/
def FitsAll (feeds : Nat → Feed) : Advert → List Request → Prop
  | _, [] => True
  | advert, r :: rs => Fits feeds advert r ∧
    ∀ st after, request feeds advert r = some (st, after) → FitsAll feeds after rs

/-! ## One string -/

theorem length_escape (s : List UInt8) : (escape s).length = escapedSize s := by
  induction s with
  | nil => rfl
  | cons b s ih =>
    rw [escapedSize] at ih ⊢
    rw [escape]
    split
    · next quote =>
      subst quote
      simp only [List.length_cons, List.count_cons_self, ih]
      omega
    · next other =>
      rw [List.count_cons_of_ne other]
      simp only [List.length_cons, ih]
      omega

theorem fit_eq {size : Nat} {text : List UInt8} (room : text.length < size) :
    fit size text = some text := if_pos room

theorem escapeQuotes_eq {s : List UInt8} (room : escapedSize s < 512) :
    escapeQuotes s = some (escape s) := fit_eq (by rw [length_escape]; exact room)

theorem spells_escape {s : List UInt8} (plain : ∀ b ∈ s, 32 ≤ b ∧ b ≠ 92) :
    Json.Spells (escape s) s := by
  induction s with
  | nil => exact .nil
  | cons b s ih =>
    have others := ih fun b' here => plain b' (List.mem_cons_of_mem _ here)
    obtain ⟨visible, slash⟩ := plain b (List.mem_cons_self ..)
    unfold escape
    split
    · next quote =>
      subst quote
      exact .escaped (by decide) others
    · next quote => exact .plain visible quote slash others

/-- A string between quotes. -/
theorem Plain.reads {s : List UInt8} (plain : Plain s) :
    Json.Reads (.str s) (34 :: escape s ++ [34]) := .string (spells_escape plain.1) plain.2

theorem plain_description (feed : Feed) (slash : 92 ∉ feed.description) :
    Plain feed.description := by
  constructor
  · intro b here
    refine ⟨(feed.printable b here).1, ?_⟩
    rintro rfl
    exact slash here
  · apply Json.wellFormed_ascii
    intro b here
    exact UInt8.lt_of_le_of_lt (feed.printable b here).2 (by decide)

/-- A byte that a string may hold as it stands. -/
def visible (b : UInt8) : Bool := 32 ≤ b && b != 34 && b != 92 && b < 128

/-- A fixed text stands for itself. -/
theorem reads_visible {k : List UInt8} (all : k.all visible = true) :
    Json.Spells k k ∧ Json.wellFormed k = true := by
  have each : ∀ b ∈ k, ((32 ≤ b ∧ b ≠ 34) ∧ b ≠ 92) ∧ b < 128 := by
    intro b here
    simpa [visible] using List.all_eq_true.mp all b here
  refine ⟨?_, Json.wellFormed_ascii fun b here => (each b here).2⟩
  clear all
  induction k with
  | nil => exact .nil
  | cons b k ih =>
    obtain ⟨⟨⟨high, quote⟩, slash⟩, -⟩ := each b (List.mem_cons_self ..)
    exact .plain high quote slash (ih fun b' here => each b' (List.mem_cons_of_mem _ here))

theorem reads_member {k t : List UInt8} {v : Json.Value} (all : k.all visible = true)
    (reads : Json.Reads v t) : Json.ReadsMember (k, v) (34 :: k ++ 34 :: 58 :: t) := by
  obtain ⟨spells, formed⟩ := reads_visible all
  exact ⟨⟨k, t, rfl, spells, reads⟩, formed⟩

/-! ## One notice -/

def noticeText (feed : Feed) : List UInt8 :=
  ascii "\x7b\"port\":" ++ decimal feed.port ++ ascii ", \"description\":\"" ++
    escape feed.description ++ ascii "\"\x7d"

def noticeValue (feed : Feed) : Json.Value :=
  .obj [(ascii "port", .num (decimal feed.port)), (ascii "description", .str feed.description)]

theorem length_noticeText (feed : Feed) : (noticeText feed).length = noticeSize feed := by
  have port : (ascii "\x7b\"port\":").length = 8 := rfl
  have description : (ascii ", \"description\":\"").length = 17 := rfl
  have close : (ascii "\"\x7d").length = 2 := rfl
  simp only [noticeText, noticeSize, List.length_append, length_escape, port, description, close]
  omega

theorem makeJsonNotice_eq {feed : Feed} (room : noticeSize feed < 512) :
    makeJsonNotice feed = some (noticeText feed) := by
  have escaped : escapeQuotes feed.description = some (escape feed.description) := by
    apply escapeQuotes_eq
    unfold noticeSize at room
    omega
  simp only [makeJsonNotice, escaped, Option.bind_eq_bind, Option.bind_some]
  exact fit_eq (by rw [← length_noticeText] at room; exact room)

theorem reads_notice {feed : Feed} (slash : 92 ∉ feed.description) :
    Json.Reads (noticeValue feed) (noticeText feed) := by
  have port := reads_member (k := ascii "port") (by decide) (.decimal feed.port)
  have description := reads_member (k := ascii "description") (by decide) (plain_description feed slash).reads
  have parts : noticeText feed = 123 :: Json.separated
      [34 :: ascii "port" ++ 34 :: 58 :: decimal feed.port,
       34 :: ascii "description" ++ 34 :: 58 :: (34 :: escape feed.description ++ [34])] ++ [125] := by
    simp [noticeText, Json.separated, ascii, ofChar]
  rw [parts]
  exact .obj (.cons port (.cons description .nil))

theorem parseInt_decimal {n : Nat} (small : n < 65536) : parseInt (decimal n) = some (n : Int) := by
  have all : (decimal n).all isDigit = true := List.all_eq_true.mpr (decimal_digits n)
  have unsigned : takeSign (decimal n) = (false, decimal n) := by
    have read := takeSign_digits false (decimal_digits n) [] (decimal_ne_nil n)
    rwa [List.append_nil] at read
  have range : -2 ^ 63 ≤ (n : Int) ∧ (n : Int) < 2 ^ 63 := by omega
  simp only [parseInt, unsigned, all, decimal_ne_nil, valueOf_decimal]
  simpa using range

theorem readEntry_notice (feed : Feed) : readEntry (noticeValue feed) = some (entryOf feed) := by
  have port : setEntry ⟨0, []⟩ (ascii "port", .num (decimal feed.port)) = some ⟨feed.port, []⟩ := by
    have name : foldName (ascii "port") = ascii "port" := by decide
    simp only [setEntry, name, if_true, setInt, parseInt_decimal feed.port_short, Option.map_some]
  have description : setEntry ⟨feed.port, []⟩ (ascii "description", .str feed.description) =
      some (entryOf feed) := by
    have name : foldName (ascii "description") = ascii "description" := by decide
    have other : ascii "description" ≠ ascii "port" := by decide
    simp only [setEntry, name, if_neg other, if_true, setString, Option.map_some, entryOf]
  simp only [readEntry, noticeValue, List.foldlM_cons, port, description, Option.bind_eq_bind,
    Option.bind_some, List.foldlM_nil]
  rfl

/-! ## The message -/

def mapText (name env : List UInt8) (notices : List (List UInt8)) : List UInt8 :=
  ascii "\x7b\"hostname\":\"" ++ escape name ++ ascii "\", \"env\":\"" ++ escape env ++
    ascii "\", \"version\":\"" ++ decimal wireMajor ++ ascii "." ++ decimal wireMinor ++
    ascii "\", \"data\":[" ++ Json.separated notices ++ ascii "]\x7d"

def versionText : List UInt8 := [50, 46, 48]

theorem decimal_of_digit {n : Nat} (small : n < 10) : decimal n = [ofChar (Nat.digitChar n)] := by
  rw [decimal, Nat.toDigits_of_lt_base small, List.map_singleton]

theorem decimal_wireMajor : decimal wireMajor = [50] := decimal_of_digit (by decide)

theorem decimal_wireMinor : decimal wireMinor = [48] := decimal_of_digit (by decide)

theorem version_text : decimal wireMajor ++ ascii "." ++ decimal wireMinor = versionText := by
  rw [decimal_wireMajor, decimal_wireMinor]
  rfl

theorem length_separated (ts : List (List UInt8)) :
    (Json.separated ts).length = (ts.map List.length).sum + 2 * (ts.length - 1) := by
  induction ts with
  | nil => rfl
  | cons t ts ih =>
    cases ts with
    | nil => simp [Json.separated]
    | cons t' ts =>
      rw [Json.separated]
      simp only [List.length_append, List.length_cons, ih, List.map_cons, List.sum_cons]
      omega

theorem length_mapText (name env : List UInt8) (feeds : List Feed) :
    (mapText name env (feeds.map noticeText)).length = mapSize name env feeds := by
  have hostname : (ascii "\x7b\"hostname\":\"").length = 13 := rfl
  have environment : (ascii "\", \"env\":\"").length = 10 := rfl
  have version : (ascii "\", \"version\":\"").length = 14 := rfl
  have number : (decimal wireMajor).length + (ascii ".").length + (decimal wireMinor).length = 3 := by
    rw [← List.length_append, ← List.length_append, version_text]
    rfl
  have data : (ascii "\", \"data\":[").length = 11 := rfl
  have close : (ascii "]\x7d").length = 2 := rfl
  have sizes : (feeds.map noticeText).map List.length = feeds.map noticeSize := by
    rw [List.map_map]
    exact List.map_congr_left fun feed _ => length_noticeText feed
  simp only [mapText, mapSize, List.length_append, length_escape, length_separated, sizes,
    List.length_map, hostname, environment, version, data, close]
  omega

theorem makeJsonMap_eq {name : List UInt8} {advert : Advert} {feeds : List Feed}
    (texts : advert.notices.map (·.jsonDesc) = feeds.map noticeText)
    (short : escapedSize name < 256) (short_env : escapedSize advert.env < 512)
    (room : mapSize name advert.env feeds < 8192) :
    makeJsonMap name advert = some (mapText name advert.env (feeds.map noticeText)) := by
  have escaped : escapeQuotes name = some (escape name) := escapeQuotes_eq (by omega)
  have copied : fit 256 (escape name) = some (escape name) :=
    fit_eq (by rw [length_escape]; exact short)
  simp only [makeJsonMap, escaped, copied, escapeQuotes_eq short_env, Option.bind_eq_bind,
    Option.bind_some, texts]
  exact fit_eq (by rw [← length_mapText] at room; exact room)

def mapValue (name env : List UInt8) (feeds : List Feed) : Json.Value :=
  .obj [(ascii "hostname", .str name), (ascii "env", .str env),
    (ascii "version", .str versionText), (ascii "data", .arr (feeds.map noticeValue))]

theorem reads_map {name env : List UInt8} {feeds : List Feed} (plain : Plain name)
    (plain_env : Plain env) (slash : ∀ feed ∈ feeds, 92 ∉ feed.description) :
    Json.Reads (mapValue name env feeds) (mapText name env (feeds.map noticeText)) := by
  have notices : List.Forall₂ Json.Reads (feeds.map noticeValue) (feeds.map noticeText) := by
    rw [List.forall₂_map_left_iff, List.forall₂_map_right_iff, List.forall₂_same]
    exact fun feed here => reads_notice (slash feed here)
  have version : Json.Reads (.str versionText) (34 :: versionText ++ [34]) := by
    obtain ⟨spells, formed⟩ := reads_visible (by decide : versionText.all visible = true)
    exact .string spells formed
  have parts : mapText name env (feeds.map noticeText) = 123 :: Json.separated
      [34 :: ascii "hostname" ++ 34 :: 58 :: (34 :: escape name ++ [34]),
       34 :: ascii "env" ++ 34 :: 58 :: (34 :: escape env ++ [34]),
       34 :: ascii "version" ++ 34 :: 58 :: (34 :: versionText ++ [34]),
       34 :: ascii "data" ++ 34 :: 58 ::
         (91 :: Json.separated (feeds.map noticeText) ++ [93])] ++ [125] := by
    simp only [mapText, List.append_assoc, ← version_text]
    simp [Json.separated, ascii, ofChar]
  rw [parts]
  exact .obj (.cons (reads_member (by decide) plain.reads) (.cons
    (reads_member (by decide) plain_env.reads) (.cons (reads_member (by decide) version) (.cons
      (reads_member (by decide) (.arr notices)) .nil))))

theorem readData_notices (feeds : List Feed) :
    readData (.arr (feeds.map noticeValue)) = some (feeds.map entryOf) := by
  rw [readData]
  induction feeds with
  | nil => rfl
  | cons feed feeds ih => simp [List.mapM_cons, readEntry_notice, ih]

/-- What the reader makes of a message. -/
theorem unmarshal_mapText {name env : List UInt8} {feeds : List Feed} (plain : Plain name)
    (plain_env : Plain env) (slash : ∀ feed ∈ feeds, 92 ∉ feed.description) :
    unmarshal (mapText name env (feeds.map noticeText)) =
      some ⟨name, env, versionText, feeds.map entryOf⟩ := by
  have hostname : foldName (ascii "hostname") = ascii "hostname" := by decide
  have environment : foldName (ascii "env") = ascii "env" := by decide
  have version : foldName (ascii "version") = ascii "version" := by decide
  have data : foldName (ascii "data") = ascii "data" := by decide
  rw [unmarshal, (reads_map plain plain_env slash).parse]
  simp only [mapValue, List.foldlM_cons, List.foldlM_nil, setField, hostname, environment,
    version, data, setString, readData_notices, Option.map_some, Option.bind_eq_bind,
    Option.bind_some, if_true,
    (by decide : ascii "env" ≠ ascii "hostname"), (by decide : ascii "version" ≠ ascii "hostname"),
    (by decide : ascii "version" ≠ ascii "env"), (by decide : ascii "data" ≠ ascii "hostname"),
    (by decide : ascii "data" ≠ ascii "env"), (by decide : ascii "data" ≠ ascii "version"), if_false]
  rfl

/-! ## One call -/

/-- The notices are those of the senders, none of which has a backslash in its description. -/
structure Kept (feeds : Nat → Feed) (env : List UInt8) (advert : Advert) : Prop where
  env_eq : advert.env = env
  texts : ∀ n ∈ advert.notices, n.jsonDesc = noticeText (feeds n.sender) ∧
    92 ∉ (feeds n.sender).description

variable {feeds : Nat → Feed} {env : List UInt8} {board : Board} {advert : Advert}
    {answers : Answers}

theorem Kept.texts_eq (kept : Kept feeds env advert) :
    advert.notices.map (·.jsonDesc) = (advert.senders.map feeds).map noticeText := by
  rw [senders, List.map_map, List.map_map]
  exact List.map_congr_left fun n here => (kept.texts n here).1

theorem Kept.slash (kept : Kept feeds env advert) :
    ∀ feed ∈ advert.senders.map feeds, 92 ∉ feed.description := by
  intro feed here
  obtain ⟨sender, member, rfl⟩ := List.mem_map.mp here
  obtain ⟨n, listed, rfl⟩ := List.mem_map.mp member
  exact (kept.texts n listed).2

/-- The message for the senders of the list. -/
theorem Kept.decodes {name : List UInt8} (kept : Kept feeds env advert)
    (nodup : advert.senders.Nodup) (plain : Plain name) (plain_env : Plain env) :
    Decodes feeds name env advert.senders.toFinset
      (mapText name env ((advert.senders.map feeds).map noticeText)) := by
  refine ⟨_, unmarshal_mapText plain plain_env kept.slash, rfl, rfl, ?_⟩
  rw [List.toFinset_val, nodup.dedup, List.map_map]
  rfl

/-- What `make_json_map` leaves behind. -/
theorem rebuild_shows (kept : Kept feeds env advert) (shown : Shows feeds env board advert)
    (room : RoomFor feeds env advert.senders answers) :
    ∃ st after, rebuild answers advert = some (st, after) ∧ Kept feeds env after ∧
      Shows feeds env (board.tell answers) after := by
  obtain ⟨fits, plain⟩ := room
  unfold rebuild Board.tell Answers.built at *
  cases named : answers.hostname with
  | error st =>
    refine ⟨st, advert, rfl, kept, ?_⟩
    simp only
    exact shown
  | ok name =>
    obtain ⟨short, short_env, size⟩ := fits name named
    have made : makeJsonMap name advert =
        some (mapText name env ((advert.senders.map feeds).map noticeText)) := by
      obtain rfl := kept.env_eq
      exact makeJsonMap_eq kept.texts_eq short short_env size
    simp only [made, Option.bind_eq_bind, Option.bind_some]
    cases memory : answers.msgMemory with
    | false => exact ⟨_, advert, rfl, kept, shown⟩
    | true =>
      cases locked : answers.lock with
      | error st => exact ⟨st, advert, rfl, kept, shown⟩
      | ok u =>
        obtain ⟨plain_name, plain_env⟩ := plain name (by simp only [named, memory, locked])
        refine ⟨Status.ok, _, rfl, ⟨kept.env_eq, kept.texts⟩, shown.nodup, shown.published, ?_, ?_⟩
        · intro nothing
          cases nothing
        · rintro _ _ ⟨⟩
          refine ⟨_, rfl, ?_⟩
          rw [← shown.published]
          exact kept.decodes shown.nodup plain_name plain_env

theorem unlink_cases (sender : Nat) (ns : List Notice) :
    (unlink sender ns = none ∧ sender ∉ ns.map (·.sender)) ∨
    ∃ left, unlink sender ns = some left ∧ sender ∈ ns.map (·.sender) ∧
      left.map (·.sender) = (ns.map (·.sender)).erase sender ∧ ∀ n ∈ left, n ∈ ns := by
  induction ns with
  | nil => exact .inl ⟨rfl, List.not_mem_nil⟩
  | cons n ns ih =>
    by_cases here : n.sender = sender
    · right
      refine ⟨ns, by simp [unlink, here], by simp [here], by simp [here], ?_⟩
      exact fun m member => List.mem_cons_of_mem _ member
    · rcases ih with ⟨missing, absent⟩ | ⟨left, found, member, names, sub⟩
      · left
        constructor
        · simp [unlink, here, missing]
        · rw [List.map_cons, List.mem_cons, not_or]
          exact ⟨fun same => here same.symm, absent⟩
      · right
        refine ⟨n :: left, by simp [unlink, here, found], ?_, ?_, ?_⟩
        · rw [List.map_cons]
          exact List.mem_cons_of_mem _ member
        · rw [List.map_cons, List.map_cons, names, List.erase_cons_tail (by simpa using here)]
        · intro m member'
          rcases List.mem_cons.mp member' with rfl | member'
          · exact List.mem_cons_self ..
          · exact List.mem_cons_of_mem _ (sub m member')

theorem publish_shows {sender : Nat} (kept : Kept feeds env advert)
    (shown : Shows feeds env board advert)
    (fits : Fits feeds advert ⟨.publish (some sender), answers⟩) :
    ∃ st after, advertPublish feeds answers advert (some sender) = some (st, after) ∧
      Kept feeds env after ∧ Shows feeds env (board.step ⟨.publish (some sender), answers⟩) after := by
  have listed : sender ∈ board.published ↔ sender ∈ advert.senders := by
    rw [← shown.published, List.mem_toFinset]
  simp only [advertPublish, Board.step, listed]
  by_cases there : sender ∈ advert.senders
  · rw [if_pos there, if_pos there]
    exact ⟨_, _, rfl, kept, shown⟩
  rw [if_neg there, if_neg there]
  cases memory : answers.noticeMemory with
  | false => exact ⟨_, _, rfl, kept, shown⟩
  | true =>
    obtain ⟨small, rest⟩ := fits there memory
    simp only [makeJsonNotice_eq small, Option.bind_eq_bind, Option.bind_some]
    cases memory' : answers.descMemory with
    | false => exact ⟨_, _, rfl, kept, shown⟩
    | true =>
      obtain ⟨slash, room⟩ := rest memory'
      have kept' : Kept feeds env
          { advert with notices := ⟨sender, noticeText (feeds sender)⟩ :: advert.notices } := by
        refine ⟨kept.env_eq, ?_⟩
        intro n here
        rcases List.mem_cons.mp here with rfl | here
        · exact ⟨rfl, slash⟩
        · exact kept.texts n here
      have shows' : Shows feeds env { board with published := insert sender board.published }
          { advert with notices := ⟨sender, noticeText (feeds sender)⟩ :: advert.notices } := by
        refine ⟨?_, ?_, shown.silent, shown.message⟩
        · exact List.nodup_cons.mpr ⟨there, shown.nodup⟩
        · rw [← shown.published, ← List.toFinset_cons]
          rfl
      rw [kept.env_eq] at room
      exact rebuild_shows kept' shows' room

theorem retract_shows {sender : Nat} (kept : Kept feeds env advert)
    (shown : Shows feeds env board advert)
    (fits : Fits feeds advert ⟨.retract (some sender), answers⟩) :
    ∃ st after, advertRetract answers advert (some sender) = some (st, after) ∧
      Kept feeds env after ∧ Shows feeds env (board.step ⟨.retract (some sender), answers⟩) after := by
  have listed : sender ∈ board.published ↔ sender ∈ advert.senders := by
    rw [← shown.published, List.mem_toFinset]
  simp only [advertRetract, Board.step, listed]
  rcases unlink_cases sender advert.notices with ⟨missing, absent⟩ |
    ⟨left, found, member, names, sub⟩
  · have absent' : sender ∉ advert.senders := absent
    rw [missing, if_neg absent']
    exact ⟨_, _, rfl, kept, shown⟩
  · have member' : sender ∈ advert.senders := member
    have room := fits member'
    have names' : senders { advert with notices := left } = advert.senders.erase sender := names
    have kept' : Kept feeds env { advert with notices := left } :=
      ⟨kept.env_eq, fun n here => kept.texts n (sub n here)⟩
    have shows' : Shows feeds env { board with published := board.published.erase sender }
        { advert with notices := left } := by
      refine ⟨?_, ?_, shown.silent, shown.message⟩
      · rw [names']
        exact shown.nodup.erase sender
      · rw [names', ← shown.published]
        ext other
        simp [shown.nodup.mem_erase_iff]
    rw [found, if_pos member']
    rw [kept.env_eq, ← names'] at room
    exact rebuild_shows kept' shows' room

theorem request_shows {r : Request} (kept : Kept feeds env advert)
    (shown : Shows feeds env board advert) (fits : Fits feeds advert r) :
    ∃ st after, request feeds advert r = some (st, after) ∧ Kept feeds env after ∧
      Shows feeds env (board.step r) after := by
  obtain ⟨call, answers⟩ := r
  cases call with
  | publish sender =>
    cases sender with
    | none => exact ⟨_, _, rfl, kept, shown⟩
    | some sender => exact publish_shows kept shown fits
  | retract sender =>
    cases sender with
    | none => exact ⟨_, _, rfl, kept, shown⟩
    | some sender => exact retract_shows kept shown fits

/-! ## Every run -/

theorem run_shows (rs : List Request) (kept : Kept feeds env advert)
    (shows : Shows feeds env board advert) (fits : FitsAll feeds advert rs) :
    ∃ after, run feeds advert rs = some after ∧
      Shows feeds env (rs.foldl Board.step board) after := by
  induction rs generalizing advert board with
  | nil => exact ⟨advert, rfl, shows⟩
  | cons r rs ih =>
    obtain ⟨st, next, done, kept', shows'⟩ := request_shows kept shows fits.1
    obtain ⟨after, ran, shown⟩ := ih kept' shows' (fits.2 st next done)
    refine ⟨after, ?_, shown⟩
    rw [run, done]
    exact ran

theorem kept_initial (feeds : Nat → Feed) (env : Option (List UInt8)) :
    Kept feeds (env.getD []) (initial env) :=
  ⟨rfl, fun _ here => absurd here List.not_mem_nil⟩

theorem shows_initial (feeds : Nat → Feed) (env : Option (List UInt8)) :
    Shows feeds (env.getD []) Board.initial (initial env) :=
  ⟨List.nodup_nil, rfl, fun _ => rfl, nofun⟩

/-- When every call leaves room and no string that is told has a backslash, then no text overruns
its array, and what the reader finds in the message is what was told. -/
theorem advertisements_decode (feeds : Nat → Feed) (env : Option (List UInt8)) (rs : List Request)
    (fits : FitsAll feeds (initial env) rs) :
    ∃ advert, run feeds (initial env) rs = some advert ∧
      Shows feeds (env.getD []) (rs.foldl Board.step Board.initial) advert :=
  run_shows rs (kept_initial feeds env) (shows_initial feeds env) fits

/-- A call that meets no failure, on a host with this name. -/
def publishing (sender : Nat) (name : String) : Request :=
  ⟨.publish (some sender), ⟨true, true, .ok (ascii name), true, .ok ()⟩⟩

def quotedFeed : Feed :=
  ⟨4000, ascii "the \"fast\" feed", by decide, by decide, List.all_iff_forall_prop.mp (by decide)⟩

theorem quoted_description_decodes :
    ∃ advert, run (fun _ => quotedFeed) (initial (some (ascii "test"))) [publishing 1 "host"] = some advert ∧
      Shows (fun _ => quotedFeed) (ascii "test")
        ([publishing 1 "host"].foldl Board.step Board.initial) advert := by
  have digits : (decimal quotedFeed.port).length ≤ 4 :=
    (length_decimal_le (by decide)).mpr (by decide)
  have description : escapedSize quotedFeed.description = 17 := by decide
  have notice : noticeSize quotedFeed < 512 := by
    unfold noticeSize
    omega
  have name : escapedSize (ascii "host") = 4 := by decide
  have env : escapedSize (ascii "test") = 4 := by decide
  have size : mapSize (ascii "host") (ascii "test") [quotedFeed] < 8192 := by
    simp only [mapSize, List.map_cons, List.map_nil, List.sum_cons, List.sum_nil, List.length_cons,
      List.length_nil]
    omega
  apply advertisements_decode
  refine ⟨?_, fun _ _ _ => trivial⟩
  intro _ _
  refine ⟨notice, fun _ => ⟨by decide, ?_, ?_⟩⟩
  · rintro _ ⟨⟩
    refine ⟨by decide, by decide, ?_⟩
    exact size
  · rintro _ ⟨⟩
    exact ⟨⟨List.all_iff_forall_prop.mp (by decide), by decide⟩,
      List.all_iff_forall_prop.mp (by decide), by decide⟩

def slashFeed : Feed :=
  ⟨7, ascii "C:\\data", by decide, by decide, List.all_iff_forall_prop.mp (by decide)⟩

/-- A backslash is copied as it stands, and is read as the start of an escape. -/
theorem backslash_unreadable :
    ¬ ∃ advert, run (fun _ => slashFeed) (initial (some (ascii "test"))) [publishing 1 "host"] = some advert ∧
      Shows (fun _ => slashFeed) (ascii "test")
        ([publishing 1 "host"].foldl Board.step Board.initial) advert := by
  have port : decimal slashFeed.port = [55] := decimal_of_digit (by decide)
  have notice : noticeSize slashFeed < 512 := by
    unfold noticeSize
    rw [port]
    decide
  have size : mapSize (ascii "host") (ascii "test") [slashFeed] < 8192 := by
    simp only [mapSize, List.map_cons, List.map_nil, noticeSize, port]
    decide
  have texts : [(⟨1, noticeText slashFeed⟩ : Notice)].map (·.jsonDesc) =
    [slashFeed].map noticeText := rfl
  have name : escapedSize (ascii "host") < 256 := by decide
  have env : escapedSize (ascii "test") < 512 := by decide
  have made : makeJsonMap (ascii "host") ⟨ascii "test", [⟨1, noticeText slashFeed⟩], none⟩ =
      some (mapText (ascii "host") (ascii "test") [noticeText slashFeed]) :=
    @makeJsonMap_eq _ ⟨ascii "test", [⟨1, noticeText slashFeed⟩], none⟩ [slashFeed] texts name env size
  have unread : unmarshal (mapText (ascii "host") (ascii "test") [noticeText slashFeed]) = none := by
    simp only [mapText, noticeText, port, decimal_wireMajor, decimal_wireMinor]
    decide +kernel
  rintro ⟨advert, ran, shown⟩
  obtain ⟨msg, kept, disc, read, -⟩ := shown.message _ _ rfl
  simp only [run, request, publishing, advertPublish, initial, Option.getD_some, senders,
    List.map_nil, List.not_mem_nil, if_false, makeJsonNotice_eq notice, Option.bind_eq_bind,
    Option.bind_some, rebuild, made] at ran
  obtain rfl := Option.some.inj ran
  obtain rfl := Option.some.inj kept
  rw [unread] at read
  cases read

end Advert

end Lancaster
