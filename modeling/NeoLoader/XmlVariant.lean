import NeoLoader.ByteReader
import NeoLoader.KeyMap
import NeoLoader.TextEncodings

/-!
# Variant trees as XML

A tree is written element by element: the key or `Variant` is the element's name, an attribute
holds the type, and the content is the children or the value as printable text. The reader takes
the elements back recursively and ends a container by falling out of its loop. Of the elements
that were written it makes the tree again, apart from null values and from what UTF-8 loses of
texts.
-/

namespace NeoLoader.XmlVariant

open ByteReader TextEncodings KeyMap

/-- A wide string. -/
abbrev QString := WideText

/-- The kinds of variants that are stored. -/
inductive VariantType where
  | Invalid
  | Bool
  | Int
  | UInt
  | LongLong
  | ULongLong
  | String
  | ByteArray
  | StringList
  | List
  | Map
  deriving DecidableEq

/-- A tree of variants; the entries of a map stand in the order of its keys. -/
inductive Value where
  /-- The null value. -/
  | invalid
  /-- A truth value. -/
  | bool (b : Bool)
  /-- A signed number of 32 bits. -/
  | int (n : Int32)
  /-- An unsigned number of 32 bits. -/
  | uInt (n : UInt32)
  /-- A signed number of 64 bits. -/
  | longLong (n : Int64)
  /-- An unsigned number of 64 bits. -/
  | uLongLong (n : UInt64)
  /-- A text. -/
  | string (s : QString)
  /-- Bytes. -/
  | byteArray (bytes : List UInt8)
  /-- Texts in a row. -/
  | stringList (l : List QString)
  /-- Values in a row. -/
  | list (l : List Value)
  /-- Values under keys. -/
  | map (entries : List (QString × Value))

/-- The kind of a variant. -/
def Value.type : Value → VariantType
  | invalid => .Invalid
  | bool _ => .Bool
  | int _ => .Int
  | uInt _ => .UInt
  | longLong _ => .LongLong
  | uLongLong _ => .ULongLong
  | string _ => .String
  | byteArray _ => .ByteArray
  | stringList _ => .StringList
  | list _ => .List
  | map _ => .Map

/-- The name of a kind. -/
def getTypeStr : VariantType → String
  | .Invalid => "Invalid"
  | .Bool => "Bool"
  | .Int => "Int"
  | .UInt => "UInt"
  | .LongLong => "LongLong"
  | .ULongLong => "ULongLong"
  | .String => "String"
  | .ByteArray => "ByteArray"
  | .StringList => "StringList"
  | .List => "List"
  | .Map => "Map"

/-- All kinds, as the lookup list has them. -/
def sQVariants : List VariantType :=
  [.Invalid, .Bool, .Int, .UInt, .LongLong, .ULongLong, .Map, .List, .String, .StringList, .ByteArray]

/-- The kind of a name; without a known name there is no kind. -/
def getType (type : String) : VariantType :=
  (sQVariants.find? fun t => getTypeStr t = type).getD .Invalid

theorem getType_getTypeStr (t : VariantType) : getType (getTypeStr t) = t := by
  cases t <;> decide

/-- The text of an ASCII constant. -/
def ascii (s : String) : QString := s.toList.flatMap toUtf16

/-- A value other than a container as text. -/
def Value.toString : Value → QString
  | bool b => ascii (if b then "true" else "false")
  | int n => (decimalText n.toInt).flatMap toUtf16
  | uInt n => (decimalText n.toNat).flatMap toUtf16
  | longLong n => (decimalText n.toInt).flatMap toUtf16
  | uLongLong n => (decimalText n.toNat).flatMap toUtf16
  | string s => s
  | _ => []

/-- The characters that need no percent sign: letters, digits and some others. -/
def unescaped (b : UInt8) : Bool :=
  let n := b.toNat
  (48 ≤ n && n ≤ 57) || (65 ≤ n && n ≤ 90) || (97 ≤ n && n ≤ 122) || (" :;/|,'+()-._~".toList.map Char.toNat).contains n

/-- A call of the XML writer. -/
inductive Call where
  /-- Begin the document. -/
  | writeStartDocument
  /-- Begin an element with its type. -/
  | writeStartElement (name : QString) (type : String)
  /-- Text in an element. -/
  | writeCharacters (text : QString)
  /-- End the element. -/
  | writeEndElement
  /-- End the document. -/
  | writeEndDocument

/-- An element with text of ASCII in it. -/
def textElement (name : QString) (type : VariantType) (bytes : List UInt8) : List Call :=
  [.writeStartElement name (getTypeStr type), .writeCharacters (fromLatin1 bytes), .writeEndElement]

/-- An element with any text in it, behind percent signs. -/
def escapedElement (name : QString) (type : VariantType) (text : QString) : List Call :=
  textElement name type (toPercent unescaped (toUtf8 text))

mutual

/-- Write a value as an element. -/
def serialize : QString → Value → List Call
  | name, .map entries =>
    .writeStartElement name (getTypeStr .Map) :: serializeMap entries ++ [.writeEndElement]
  | name, .list l =>
    .writeStartElement name (getTypeStr .List) :: serializeList l ++ [.writeEndElement]
  | name, .stringList l =>
    .writeStartElement name (getTypeStr .StringList) ::
      l.flatMap (escapedElement (ascii "Variant") .String) ++ [.writeEndElement]
  | name, .byteArray bytes => textElement name .ByteArray (toBase64 bytes)
  | name, .invalid => [.writeStartElement name (getTypeStr .Invalid), .writeEndElement]
  | name, .bool b => escapedElement name .Bool (Value.bool b).toString
  | name, .int n => escapedElement name .Int (Value.int n).toString
  | name, .uInt n => escapedElement name .UInt (Value.uInt n).toString
  | name, .longLong n => escapedElement name .LongLong (Value.longLong n).toString
  | name, .uLongLong n => escapedElement name .ULongLong (Value.uLongLong n).toString
  | name, .string s => escapedElement name .String (Value.string s).toString

/-- Write the entries of a map. -/
def serializeMap : List (QString × Value) → List Call
  | [] => []
  | (key, v) :: entries => serialize key v ++ serializeMap entries

/-- Write the values of a list. -/
def serializeList : List Value → List Call
  | [] => []
  | v :: l => serialize (ascii "Variant") v ++ serializeList l

end

/-- `CXml::Serialize`: write a tree as a document. -/
def serializeDocument (v : Value) : List Call :=
  .writeStartDocument :: serialize (ascii "Variant") v ++ [.writeEndDocument]

/-- What the XML reader finds next. -/
inductive Event where
  /-- The document begins. -/
  | startDocument
  /-- An element begins; its type is empty if it has none. -/
  | startElement (name : QString) (type : String)
  /-- Text, or a part of it. -/
  | characters (text : QString)
  /-- The element ends. -/
  | endElement
  /-- The document ends. -/
  | endDocument
  /-- The document is not well formed. -/
  | error

/-- The number of a text, zero if there is none within the bounds. -/
def toNumber (low high : ℤ) (s : QString) : ℤ :=
  match decimalValue (fromUtf16 s) with
  | some i => if low ≤ i ∧ i ≤ high then i else 0
  | none => 0

/-- A small letter for a capital one. -/
def toLower (c : Char) : Char := if 'A' ≤ c ∧ c ≤ 'Z' then Char.ofNat (c.toNat + 32) else c

/-- The truth value of a text. -/
def toBool (s : QString) : Bool :=
  !(["", "0", "false"].map String.toList).contains ((fromUtf16 s).map toLower)

/-- `QVariant::convert` of a text; without a type it stays a text. -/
def convert : VariantType → QString → Value
  | .Bool, s => .bool (toBool s)
  | .Int, s => .int (Int32.ofInt (toNumber (-2 ^ 31) (2 ^ 31 - 1) s))
  | .UInt, s => .uInt (UInt32.ofNat (toNumber 0 (2 ^ 32 - 1) s).toNat)
  | .LongLong, s => .longLong (Int64.ofInt (toNumber (-2 ^ 63) (2 ^ 63 - 1) s))
  | .ULongLong, s => .uLongLong (UInt64.ofNat (toNumber 0 (2 ^ 64 - 1) s).toNat)
  | _, s => .string s

/-- The value of an element that ends after some text. -/
def textValue (type : VariantType) (text : QString) : Value :=
  if type = .ByteArray then .byteArray (fromBase64 (toLatin1 text))
  else convert type (fromUtf8 (fromPercent (toLatin1 text)))

/-- The text of a value in a string list. -/
def Value.asString : Value → QString
  | byteArray bytes => fromUtf8 bytes
  | v => v.toString

/-- Put items into a map one after the other. -/
def insertAll (items : List (QString × Value)) : List (QString × Value) :=
  (items.foldl (fun m e => m.insert e.1 e.2) OrderedMap.empty).entries

mutual

/-- `CXml::Parse`: read up to the end of an element. The element that is open and its text come
with it; the result is missing where no element began. -/
def parse : ℕ → Option (QString × VariantType) → QString → List Event → Option (QString × Value) × List Event
  | 0, _, _, events => (none, events)
  | _ + 1, _, _, [] => (none, [])
  | _ + 1, _, _, .error :: _ => (none, [])
  | fuel + 1, opened, text, .endDocument :: events => parse fuel opened text events
  | fuel + 1, opened, text, .startDocument :: events => parse fuel opened text events
  | fuel + 1, opened, text, .characters more :: events =>
    parse fuel opened (if opened.isSome then text ++ more else text) events
  | _ + 1, opened, text, .endElement :: events =>
    (opened.map fun element => (element.1, textValue element.2 text), events)
  | fuel + 1, _, text, .startElement name type :: events =>
    match getType type with
    | .Map =>
      let (items, events) := parseItems fuel events
      (some (name, .map (insertAll items)), events)
    | .List =>
      let (items, events) := parseItems fuel events
      (some (name, .list (items.map Prod.snd)), events)
    | .StringList =>
      let (items, events) := parseItems fuel events
      (some (name, .stringList (items.map fun item => item.2.asString)), events)
    | type => parse fuel (some (name, type)) text events

/-- The loop of a container: read elements until there is none. -/
def parseItems : ℕ → List Event → List (QString × Value) × List Event
  | 0, events => ([], events)
  | fuel + 1, events =>
    match parse fuel none [] events with
    | (some item, events) =>
      let (items, events) := parseItems fuel events
      (item :: items, events)
    | (none, events) => ([], events)

end

/-- `CXml::Parse` of what a reader finds; the null value if there is no element. -/
def parseDocument (events : List Event) : Value :=
  match (parse (2 * events.length + 2) none [] events).1 with
  | some (_, v) => v
  | none => .invalid

mutual

/-- Reading never gives back what it took, and an element takes something. -/
theorem length_parse : ∀ (fuel : ℕ) (opened : Option (QString × VariantType)) (text : QString)
    (events : List Event), (parse fuel opened text events).2.length ≤ events.length ∧
      ((parse fuel opened text events).1.isSome = true → (parse fuel opened text events).2.length < events.length)
  | 0, _, _, _ => ⟨le_rfl, nofun⟩
  | _ + 1, _, _, [] => ⟨le_rfl, nofun⟩
  | _ + 1, _, _, .error :: _ => ⟨Nat.zero_le _, nofun⟩
  | fuel + 1, opened, text, .endDocument :: events => by
    have h := length_parse fuel opened text events
    exact ⟨Nat.le_succ_of_le h.1, fun hitem => Nat.lt_succ_of_lt (h.2 hitem)⟩
  | fuel + 1, opened, text, .startDocument :: events => by
    have h := length_parse fuel opened text events
    exact ⟨Nat.le_succ_of_le h.1, fun hitem => Nat.lt_succ_of_lt (h.2 hitem)⟩
  | fuel + 1, opened, text, .characters more :: events => by
    have h := length_parse fuel opened (if opened.isSome then text ++ more else text) events
    exact ⟨Nat.le_succ_of_le h.1, fun hitem => Nat.lt_succ_of_lt (h.2 hitem)⟩
  | _ + 1, _, _, .endElement :: _ => ⟨Nat.le_succ _, fun _ => Nat.lt_succ_self _⟩
  | fuel + 1, _, text, .startElement name type :: events => by
    have hitems := Nat.lt_succ_of_le (length_parseItems fuel events)
    have hleaf := length_parse fuel (some (name, getType type)) text events
    rw [parse]
    cases htype : getType type with
    | Map => exact ⟨hitems.le, fun _ => hitems⟩
    | List => exact ⟨hitems.le, fun _ => hitems⟩
    | StringList => exact ⟨hitems.le, fun _ => hitems⟩
    | _ =>
      rw [htype] at hleaf
      exact ⟨Nat.le_succ_of_le hleaf.1, fun hitem => Nat.lt_succ_of_lt (hleaf.2 hitem)⟩

/-- Reading the elements of a container never gives back what it took. -/
theorem length_parseItems : ∀ (fuel : ℕ) (events : List Event), (parseItems fuel events).2.length ≤ events.length
  | 0, _ => le_rfl
  | fuel + 1, events => by
    have hfirst := (length_parse fuel none [] events).1
    rw [parseItems]
    cases hread : parse fuel none [] events with
    | mk first later =>
      rw [hread] at hfirst
      cases first with
      | none => exact hfirst
      | some item => exact (length_parseItems fuel later).trans hfirst

end

mutual

/-- Reading ends before the steps are used up: more of them make no difference. -/
theorem parse_enough : ∀ (fuel : ℕ) (opened : Option (QString × VariantType)) (text : QString)
    (events : List Event), 2 * events.length + 1 ≤ fuel →
      parse (fuel + 1) opened text events = parse fuel opened text events
  | 0, _, _, _, h => absurd h (Nat.not_succ_le_zero _)
  | _ + 1, _, _, [], _ => rfl
  | _ + 1, _, _, .error :: _, _ => rfl
  | fuel + 1, opened, text, .endDocument :: events, h =>
    parse_enough fuel opened text events (by rw [List.length_cons] at h; omega)
  | fuel + 1, opened, text, .startDocument :: events, h =>
    parse_enough fuel opened text events (by rw [List.length_cons] at h; omega)
  | fuel + 1, opened, text, .characters _ :: events, h =>
    parse_enough fuel opened _ events (by rw [List.length_cons] at h; omega)
  | _ + 1, _, _, .endElement :: _, _ => rfl
  | fuel + 1, opened, text, .startElement name type :: events, h => by
    rw [List.length_cons] at h
    have hitems := parseItems_enough fuel events (by omega)
    have hleaf := parse_enough fuel (some (name, getType type)) text events (by omega)
    rw [parse, parse]
    cases htype : getType type with
    | Map => simp only [hitems]
    | List => simp only [hitems]
    | StringList => simp only [hitems]
    | _ =>
      rw [htype] at hleaf
      exact hleaf

/-- The loop of a container ends before the steps are used up. -/
theorem parseItems_enough : ∀ (fuel : ℕ) (events : List Event), 2 * events.length + 2 ≤ fuel →
    parseItems (fuel + 1) events = parseItems fuel events
  | 0, _, h => absurd h (Nat.not_succ_le_zero _)
  | fuel + 1, events, h => by
    have hfirst := parse_enough fuel none [] events (by omega)
    have hlength := (length_parse fuel none [] events).2
    rw [parseItems, parseItems, hfirst]
    cases hread : parse fuel none [] events with
    | mk first later =>
      rw [hread] at hlength
      cases first with
      | none => rfl
      | some item =>
        have hshorter : later.length < events.length := hlength rfl
        simp only [parseItems_enough fuel later (by omega)]

end

/-- What a reader finds of written calls: the same elements, each text whole or in parts. -/
def Rereads : List Call → List Event → Prop
  | [], events => events = []
  | .writeStartDocument :: calls, events =>
    ∃ later, events = .startDocument :: later ∧ Rereads calls later
  | .writeStartElement name type :: calls, events =>
    ∃ later, events = .startElement name type :: later ∧ Rereads calls later
  | .writeCharacters text :: calls, events =>
    ∃ (parts : List QString) (later : List Event),
      events = parts.map .characters ++ later ∧ parts.flatten = text ∧ Rereads calls later
  | .writeEndElement :: calls, events =>
    ∃ later, events = .endElement :: later ∧ Rereads calls later
  | .writeEndDocument :: calls, events =>
    ∃ later, events = .endDocument :: later ∧ Rereads calls later

/-- Calls one after the other are found one after the other. -/
theorem Rereads.split {first second : List Call} {events : List Event} (h : Rereads (first ++ second) events) :
    ∃ earlier later, events = earlier ++ later ∧ Rereads first earlier ∧
      Rereads second later := by
  induction first generalizing events with
  | nil => exact ⟨[], events, rfl, rfl, h⟩
  | cons call first ih =>
    cases call with
    | writeCharacters text =>
      obtain ⟨parts, rest, rfl, htext, hrest⟩ := h
      obtain ⟨earlier, later, rfl, hfirst, hsecond⟩ := ih hrest
      exact ⟨parts.map .characters ++ earlier, later, (List.append_assoc _ _ _).symm,
        ⟨parts, earlier, rfl, htext, hfirst⟩, hsecond⟩
    | _ =>
      obtain ⟨rest, rfl, hrest⟩ := h
      obtain ⟨earlier, later, rfl, hfirst, hsecond⟩ := ih hrest
      exact ⟨_ :: earlier, later, rfl, ⟨earlier, rfl, hfirst⟩, hsecond⟩

/-- The text of an element in parts up to its end. -/
theorem parse_parts (name : QString) (type : VariantType) (parts : List QString) (text : QString)
    (rest : List Event) {fuel : ℕ} (hfuel : parts.length + 1 ≤ fuel) :
    parse fuel (some (name, type)) text (parts.map .characters ++ .endElement :: rest) =
      (some (name, textValue type (text ++ parts.flatten)), rest) := by
  induction parts generalizing text fuel with
  | nil =>
    obtain ⟨fuel, rfl⟩ := Nat.exists_eq_succ_of_ne_zero (by omega : fuel ≠ 0)
    simp [parse]
  | cons part parts ih =>
    obtain ⟨fuel, rfl⟩ := Nat.exists_eq_succ_of_ne_zero (by omega : fuel ≠ 0)
    rw [List.length_cons] at hfuel
    have hrest := ih (text ++ part) (by omega : parts.length + 1 ≤ fuel)
    rw [List.append_assoc] at hrest
    exact hrest

/-- The kinds that hold no elements. -/
def IsLeaf (type : VariantType) : Prop := type ≠ .Map ∧ type ≠ .List ∧ type ≠ .StringList

/-- An element with text is read with the value of its text. -/
theorem parse_textElement {name : QString} {type : VariantType} (hleaf : IsLeaf type)
    {bytes : List UInt8} {events : List Event} (h : Rereads (textElement name type bytes) events)
    (rest : List Event) {fuel : ℕ} (hfuel : 2 * events.length ≤ fuel) :
    parse fuel none [] (events ++ rest) = (some (name, textValue type (fromLatin1 bytes)), rest) := by
  obtain ⟨_, rfl, parts, _, rfl, htext, _, rfl, rfl⟩ := h
  simp only [List.length_cons, List.length_append, List.length_map, List.length_nil] at hfuel
  obtain ⟨fuel, rfl⟩ := Nat.exists_eq_succ_of_ne_zero (by omega : fuel ≠ 0)
  have hparts := parse_parts name type parts [] rest (by omega : parts.length + 1 ≤ fuel)
  rw [List.nil_append, htext] at hparts
  rw [List.cons_append, List.append_assoc, List.singleton_append, parse, getType_getTypeStr]
  obtain ⟨hmap, hlist, hstrings⟩ := hleaf
  cases type with
  | Map => exact absurd rfl hmap
  | List => exact absurd rfl hlist
  | StringList => exact absurd rfl hstrings
  | _ => exact hparts

mutual

/-- The tree that comes back: null values are empty texts, and texts went through UTF-8. -/
def asRead : Value → Value
  | .map entries => .map (asReadMap entries)
  | .list l => .list (asReadList l)
  | .stringList l => .stringList (l.map fun s => fromUtf8 (toUtf8 s))
  | .string s => .string (fromUtf8 (toUtf8 s))
  | .invalid => .string []
  | v => v

/-- The entries of a map that come back. -/
def asReadMap : List (QString × Value) → List (QString × Value)
  | [] => []
  | (key, v) :: entries => (key, asRead v) :: asReadMap entries

/-- The values of a list that come back. -/
def asReadList : List Value → List Value
  | [] => []
  | v :: l => asRead v :: asReadList l

end

mutual

/-- A property of all nodes of a tree. -/
def Value.Each (P : Value → Prop) : Value → Prop
  | .map entries => P (.map entries) ∧ EachEntry P entries
  | .list l => P (.list l) ∧ EachItem P l
  | v => P v

/-- A property of all nodes under the keys of a map. -/
def Value.EachEntry (P : Value → Prop) : List (QString × Value) → Prop
  | [] => True
  | (_, v) :: entries => Each P v ∧ EachEntry P entries

/-- A property of all nodes under a list. -/
def Value.EachItem (P : Value → Prop) : List Value → Prop
  | [] => True
  | v :: l => Each P v ∧ EachItem P l

end

theorem unescaped_percent : unescaped 37 = false := by decide

theorem isPrintable_unescaped (b : UInt8) (h : unescaped b = true) : IsPrintable b := by
  have hall : ∀ n < 256, unescaped (UInt8.ofNat n) = true → 32 ≤ n ∧ n < 127 := by
    decide +kernel
  exact hall b.toNat b.toNat_lt (by rwa [UInt8.ofNat_toNat])

theorem textValue_escaped {type : VariantType} (h : type ≠ .ByteArray) (text : QString) :
    textValue type (fromLatin1 (toPercent unescaped (toUtf8 text))) = convert type (fromUtf8 (toUtf8 text)) := by
  rw [textValue, if_neg h, toLatin1_fromLatin1, fromPercent_toPercent unescaped_percent]

theorem textValue_nothing : textValue .Invalid [] = .string [] := by
  have hempty : fromUtf8 (toUtf8 []) = [] := (fromUtf8_toUtf8_iff []).mpr ⟨[], rfl, nofun, nofun⟩
  calc textValue .Invalid [] = .string (fromUtf8 (toUtf8 [])) := rfl
    _ = .string [] := congrArg Value.string hempty

theorem toNumber_decimalText {low high i : ℤ} (hlow : low ≤ i) (hhigh : i ≤ high) :
    toNumber low high (fromUtf8 (toUtf8 ((decimalText i).flatMap toUtf16))) = i := by
  rw [(fromUtf8_toUtf8_iff _).mpr (isPlain_decimalText i), toNumber, fromUtf16_flatMap, decimalValue_decimalText]
  exact if_pos ⟨hlow, hhigh⟩

/-- Truth values are read back. -/
theorem convert_bool (b : Bool) : convert .Bool (fromUtf8 (toUtf8 (Value.bool b).toString)) = .bool b := by
  have hall : ∀ {cs : List Char}, (cs.all fun c => decide (0 < c.toNat ∧ c.toNat < 128)) = true →
      IsPlain (cs.flatMap toUtf16) := fun h =>
    isPlain_of_ascii fun c hc => of_decide_eq_true (List.all_eq_true.mp h c hc)
  have hplain : IsPlain (Value.bool b).toString := by
    cases b
    · exact hall (by decide)
    · exact hall (by decide)
  rw [(fromUtf8_toUtf8_iff _).mpr hplain, convert]
  cases b
  · exact congrArg Value.bool (by decide)
  · exact congrArg Value.bool (by decide)

theorem convert_int (n : Int32) : convert .Int (fromUtf8 (toUtf8 (Value.int n).toString)) = .int n := by
  have hlow : -2 ^ 31 ≤ n.toInt := n.le_toInt
  have hhigh : n.toInt < 2 ^ 31 := n.toInt_lt
  rw [Value.toString, convert, toNumber_decimalText hlow (by omega), Int32.ofInt_toInt]

theorem convert_uInt (n : UInt32) : convert .UInt (fromUtf8 (toUtf8 (Value.uInt n).toString)) = .uInt n := by
  have hhigh : n.toNat < 2 ^ 32 := n.toNat_lt
  rw [Value.toString, convert, toNumber_decimalText (by omega) (by omega), Int.toNat_natCast, UInt32.ofNat_toNat]

theorem convert_longLong (n : Int64) :
    convert .LongLong (fromUtf8 (toUtf8 (Value.longLong n).toString)) = .longLong n := by
  have hlow : -2 ^ 63 ≤ n.toInt := n.le_toInt
  have hhigh : n.toInt < 2 ^ 63 := n.toInt_lt
  rw [Value.toString, convert, toNumber_decimalText hlow (by omega), Int64.ofInt_toInt]

theorem convert_uLongLong (n : UInt64) :
    convert .ULongLong (fromUtf8 (toUtf8 (Value.uLongLong n).toString)) = .uLongLong n := by
  have hhigh : n.toNat < 2 ^ 64 := n.toNat_lt
  rw [Value.toString, convert, toNumber_decimalText (by omega) (by omega), Int.toNat_natCast, UInt64.ofNat_toNat]

theorem parse_escapedElement {name text : QString} {type : VariantType} (hleaf : IsLeaf type)
    (hbytes : type ≠ .ByteArray) {events : List Event}
    (h : Rereads (escapedElement name type text) events) (rest : List Event) {fuel : ℕ}
    (hfuel : 2 * events.length ≤ fuel) :
    parse fuel none [] (events ++ rest) = (some (name, convert type (fromUtf8 (toUtf8 text))), rest) := by
  rw [parse_textElement hleaf h rest hfuel, textValue_escaped hbytes]

theorem insertAll_of_sorted {items : List (QString × Value)}
    (h : items.Pairwise fun a b => a.1 < b.1) : insertAll items = items :=
  OrderedMap.entries_foldl_insert (m := OrderedMap.empty) h

/-- The order of the keys of a map. -/
def NodeSorted : Value → Prop
  | .map entries => entries.Pairwise fun a b => a.1 < b.1
  | _ => True

theorem asReadMap_eq (entries : List (QString × Value)) :
    asReadMap entries = entries.map fun e => (e.1, asRead e.2) := by
  induction entries with
  | nil => rfl
  | cons e entries ih => exact congrArg ((e.1, asRead e.2) :: ·) ih

theorem parseItems_end (rest : List Event) {fuel : ℕ} (h : 2 ≤ fuel) :
    parseItems fuel (.endElement :: rest) = ([], rest) := by
  obtain ⟨fuel, rfl⟩ := Nat.exists_eq_add_of_le' h
  rfl

theorem parseItems_cons {fuel : ℕ} {events later : List Event} {item : QString × Value}
    (h : parse fuel none [] events = (some item, later)) :
    parseItems (fuel + 1) events = (item :: (parseItems fuel later).1, (parseItems fuel later).2) := by
  rw [parseItems, h]

/-- Written strings are read as strings. -/
theorem parseItems_strings (l : List QString) {events : List Event}
    (h : Rereads (l.flatMap (escapedElement (ascii "Variant") .String)) events)
    (rest : List Event) {fuel : ℕ} (hfuel : 2 * events.length + 2 ≤ fuel) :
    parseItems fuel (events ++ .endElement :: rest) =
      (l.map fun s => (ascii "Variant", .string (fromUtf8 (toUtf8 s))), rest) := by
  induction l generalizing events fuel with
  | nil =>
    obtain rfl : events = [] := h
    exact parseItems_end rest (by omega)
  | cons s l ih =>
    rw [List.flatMap_cons] at h
    obtain ⟨earlier, later, rfl, hfirst, hrest⟩ := h.split
    have hlength : 0 < earlier.length := by
      obtain ⟨_, rfl, -⟩ := hfirst
      exact Nat.succ_pos _
    rw [List.length_append] at hfuel
    obtain ⟨fuel, rfl⟩ := Nat.exists_eq_succ_of_ne_zero (by omega : fuel ≠ 0)
    have hitem := parse_escapedElement ⟨by decide, by decide, by decide⟩ (by decide) hfirst
      (later ++ .endElement :: rest) (by omega : 2 * earlier.length ≤ fuel)
    rw [List.append_assoc, parseItems_cons hitem, ih hrest (by omega)]
    rfl

theorem length_pos_of_serialize {name : QString} {v : Value} {events : List Event}
    (h : Rereads (serialize name v) events) : 0 < events.length := by
  have hstart : ∃ type calls, serialize name v = .writeStartElement name type :: calls := by
    cases v <;> exact ⟨_, _, rfl⟩
  obtain ⟨type, calls, hcalls⟩ := hstart
  rw [hcalls] at h
  obtain ⟨later, rfl, -⟩ := h
  exact Nat.succ_pos _

/-- The keys of a map are names. -/
def NodeNamed (IsName : QString → Prop) : Value → Prop
  | .map entries => ∀ e ∈ entries, IsName e.1
  | _ => True

mutual

/-- A written value is read as `asRead` says. -/
theorem parse_serialize : ∀ (v : Value) (_ : v.Each NodeSorted) (name : QString)
    {events : List Event} (_ : Rereads (serialize name v) events) (rest : List Event) {fuel : ℕ},
    2 * events.length ≤ fuel → parse fuel none [] (events ++ rest) = (some (name, asRead v), rest)
  | .map entries, hsorted, name, events, h, rest, fuel, hfuel => by
    obtain ⟨later, rfl, hcalls⟩ := h
    obtain ⟨inner, final, rfl, hinner, _, rfl, rfl⟩ := Rereads.split hcalls
    simp only [List.length_cons, List.length_append, List.length_nil] at hfuel
    obtain ⟨fuel, rfl⟩ := Nat.exists_eq_succ_of_ne_zero (by omega : fuel ≠ 0)
    have hitems := parseItems_serializeMap entries hsorted.2 hinner rest (by omega : 2 * inner.length + 2 ≤ fuel)
    have hsame : (asReadMap entries).Pairwise fun a b => a.1 < b.1 := by
      rw [asReadMap_eq, List.pairwise_map]
      exact hsorted.1
    rw [List.cons_append, List.append_assoc, List.singleton_append, parse, getType_getTypeStr]
    simp only [hitems, insertAll_of_sorted hsame]
    rfl
  | .list l, hsorted, name, events, h, rest, fuel, hfuel => by
    obtain ⟨later, rfl, hcalls⟩ := h
    obtain ⟨inner, final, rfl, hinner, _, rfl, rfl⟩ := Rereads.split hcalls
    simp only [List.length_cons, List.length_append, List.length_nil] at hfuel
    obtain ⟨fuel, rfl⟩ := Nat.exists_eq_succ_of_ne_zero (by omega : fuel ≠ 0)
    obtain ⟨items, hitems, hvalues⟩ := parseItems_serializeList l hsorted.2 hinner rest
      (by omega : 2 * inner.length + 2 ≤ fuel)
    rw [List.cons_append, List.append_assoc, List.singleton_append, parse, getType_getTypeStr]
    simp only [hitems, hvalues]
    rfl
  | .stringList l, _, name, events, h, rest, fuel, hfuel => by
    obtain ⟨later, rfl, hcalls⟩ := h
    obtain ⟨inner, final, rfl, hinner, _, rfl, rfl⟩ := Rereads.split hcalls
    simp only [List.length_cons, List.length_append, List.length_nil] at hfuel
    obtain ⟨fuel, rfl⟩ := Nat.exists_eq_succ_of_ne_zero (by omega : fuel ≠ 0)
    have hitems := parseItems_strings l hinner rest (by omega : 2 * inner.length + 2 ≤ fuel)
    rw [List.cons_append, List.append_assoc, List.singleton_append, parse, getType_getTypeStr]
    simp only [hitems, List.map_map]
    rfl
  | .byteArray bytes, _, name, events, h, rest, fuel, hfuel => by
    rw [parse_textElement ⟨by decide, by decide, by decide⟩ h rest hfuel, textValue, if_pos rfl,
      toLatin1_fromLatin1, fromBase64_toBase64]
    rfl
  | .invalid, _, name, events, h, rest, fuel, hfuel => by
    obtain ⟨_, rfl, _, rfl, rfl⟩ := h
    obtain ⟨fuel, rfl⟩ := Nat.exists_eq_add_of_le' (by simpa using hfuel : 4 ≤ fuel)
    have hend := parse_parts name .Invalid [] [] rest (by simp : [].length + 1 ≤ fuel + 3)
    rw [List.cons_append, parse, getType_getTypeStr]
    refine hend.trans ?_
    rw [List.flatten_nil, List.append_nil, textValue_nothing]
    rfl
  | .bool b, _, name, events, h, rest, fuel, hfuel => by
    rw [parse_escapedElement ⟨by decide, by decide, by decide⟩ (by decide) h rest hfuel, convert_bool]
    rfl
  | .int n, _, name, events, h, rest, fuel, hfuel => by
    rw [parse_escapedElement ⟨by decide, by decide, by decide⟩ (by decide) h rest hfuel, convert_int]
    rfl
  | .uInt n, _, name, events, h, rest, fuel, hfuel => by
    rw [parse_escapedElement ⟨by decide, by decide, by decide⟩ (by decide) h rest hfuel, convert_uInt]
    rfl
  | .longLong n, _, name, events, h, rest, fuel, hfuel => by
    rw [parse_escapedElement ⟨by decide, by decide, by decide⟩ (by decide) h rest hfuel, convert_longLong]
    rfl
  | .uLongLong n, _, name, events, h, rest, fuel, hfuel => by
    rw [parse_escapedElement ⟨by decide, by decide, by decide⟩ (by decide) h rest hfuel, convert_uLongLong]
    rfl
  | .string s, _, name, events, h, rest, fuel, hfuel => by
    rw [parse_escapedElement ⟨by decide, by decide, by decide⟩ (by decide) h rest hfuel]
    rfl

/-- Written entries are read as `asReadMap` says. -/
theorem parseItems_serializeMap : ∀ (entries : List (QString × Value))
    (_ : Value.EachEntry NodeSorted entries) {events : List Event}
    (_ : Rereads (serializeMap entries) events) (rest : List Event) {fuel : ℕ},
    2 * events.length + 2 ≤ fuel → parseItems fuel (events ++ .endElement :: rest) = (asReadMap entries, rest)
  | [], _, events, h, rest, fuel, hfuel => by
    obtain rfl : events = [] := h
    exact parseItems_end rest (by omega)
  | (key, v) :: entries, hsorted, events, h, rest, fuel, hfuel => by
    obtain ⟨earlier, later, rfl, hfirst, hrest⟩ := Rereads.split h
    rw [List.length_append] at hfuel
    obtain ⟨fuel, rfl⟩ := Nat.exists_eq_succ_of_ne_zero (by omega : fuel ≠ 0)
    have hlength := length_pos_of_serialize hfirst
    have hitem := parse_serialize v hsorted.1 key hfirst (later ++ .endElement :: rest)
      (by omega : 2 * earlier.length ≤ fuel)
    rw [List.append_assoc, parseItems_cons hitem, parseItems_serializeMap entries hsorted.2 hrest rest (by omega)]
    rfl

/-- Written values are read as `asReadList` says. -/
theorem parseItems_serializeList : ∀ (l : List Value) (_ : Value.EachItem NodeSorted l)
    {events : List Event} (_ : Rereads (serializeList l) events) (rest : List Event) {fuel : ℕ},
    2 * events.length + 2 ≤ fuel → ∃ items, parseItems fuel (events ++ .endElement :: rest) = (items, rest) ∧
        items.map Prod.snd = asReadList l
  | [], _, events, h, rest, fuel, hfuel => by
    obtain rfl : events = [] := h
    exact ⟨[], parseItems_end rest (by omega), rfl⟩
  | v :: l, hsorted, events, h, rest, fuel, hfuel => by
    obtain ⟨earlier, later, rfl, hfirst, hrest⟩ := Rereads.split h
    rw [List.length_append] at hfuel
    obtain ⟨fuel, rfl⟩ := Nat.exists_eq_succ_of_ne_zero (by omega : fuel ≠ 0)
    have hlength := length_pos_of_serialize hfirst
    have hitem := parse_serialize v hsorted.1 _ hfirst (later ++ .endElement :: rest)
      (by omega : 2 * earlier.length ≤ fuel)
    obtain ⟨items, hitems, hvalues⟩ := parseItems_serializeList l hsorted.2 hrest rest
      (by omega : 2 * later.length + 2 ≤ fuel)
    refine ⟨(ascii "Variant", asRead v) :: items, ?_, congrArg (asRead v :: ·) hvalues⟩
    rw [List.append_assoc, parseItems_cons hitem, hitems]

end

end NeoLoader.XmlVariant
