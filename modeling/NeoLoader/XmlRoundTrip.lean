import NeoLoader.XmlVariant

/-!
# Which trees XML keeps

The XML writer and reader are a parameter: documents whose elements have names of XML are read
as they were written, and the reader reports no other names. Then a tree comes back exactly if
it has no null value, its keys are names and its strings are plain.
-/

namespace NeoLoader.XmlRoundTrip

open KeyMap TextEncodings XmlVariant

/-- A text of printable ASCII. -/
def IsAsciiText (text : QString) : Prop := ∀ u ∈ text, 32 ≤ u.toNat ∧ u.toNat < 127

/-- The content of an element: elements with names and types, or a text of ASCII. -/
inductive IsContent (IsName : QString → Prop) : List Call → Prop
  /-- No content. -/
  | empty : IsContent IsName []
  /-- A text. -/
  | text {text : QString} (h : IsAsciiText text) : IsContent IsName [.writeCharacters text]
  /-- An element before others. -/
  | element {name : QString} {type : String} {inner later : List Call} (hname : IsName name)
      (htype : ∀ c ∈ type.toList, c.isAlpha = true) (hinner : IsContent IsName inner)
      (hlater : IsContent IsName later) :
      IsContent IsName (.writeStartElement name type :: inner ++ .writeEndElement :: later)

/-- A document with one element in it. -/
def IsDocument (IsName : QString → Prop) (calls : List Call) : Prop :=
  ∃ (name : QString) (type : String) (inner : List Call), IsName name ∧
    (∀ c ∈ type.toList, c.isAlpha = true) ∧ IsContent IsName inner ∧
    calls = .writeStartDocument :: (.writeStartElement name type :: inner ++ [.writeEndElement]) ++ [.writeEndDocument]

/-- The XML writer and reader: what is found in the text of some calls. Documents whose elements
have names of XML are read as they were written, and nothing but such names is found. -/
structure QtXml where
  /-- The names of XML without a prefix. -/
  IsName : QString → Prop
  /-- What the reader finds in the text that the writer made of some calls. -/
  events : List Call → List Event
  /-- A document is read as it was written. -/
  rereads : ∀ calls, IsDocument IsName calls → Rereads calls (events calls)
  /-- An element that is found has a name of XML. -/
  named : ∀ calls name type, .startElement name type ∈ events calls → IsName name
  /-- Letters are a name. -/
  letters : ∀ cs : List Char, cs ≠ [] → (∀ c ∈ cs, c.isAlpha = true) → IsName (cs.flatMap toUtf16)

/-- `CXml::Parse` of `CXml::Serialize`. -/
def QtXml.reparse (qt : QtXml) (v : Value) : Value := parseDocument (qt.events (serializeDocument v))

/-- A value that XML keeps: it is not null, its strings are plain and its keys are names. -/
def NodeStorable (IsName : QString → Prop) : Value → Prop
  | .invalid => False
  | .string s => IsPlain s
  | .stringList l => ∀ s ∈ l, IsPlain s
  | .map entries => ∀ e ∈ entries, IsName e.1
  | _ => True

/-- A value that can be read: it is not null, and its keys are names. -/
def NodeRead (IsName : QString → Prop) : Value → Prop
  | .invalid => False
  | .map entries => ∀ e ∈ entries, IsName e.1
  | _ => True

mutual

/-- A property of all nodes gives a weaker one. -/
theorem each_imp {P Q : Value → Prop} (h : ∀ v, P v → Q v) : ∀ v : Value, v.Each P → v.Each Q
  | .map entries, hv => ⟨h _ hv.1, eachEntry_imp h entries hv.2⟩
  | .list l, hv => ⟨h _ hv.1, eachItem_imp h l hv.2⟩
  | .stringList _, hv => h _ hv
  | .byteArray _, hv => h _ hv
  | .invalid, hv => h _ hv
  | .bool _, hv => h _ hv
  | .int _, hv => h _ hv
  | .uInt _, hv => h _ hv
  | .longLong _, hv => h _ hv
  | .uLongLong _, hv => h _ hv
  | .string _, hv => h _ hv

theorem eachEntry_imp {P Q : Value → Prop} (h : ∀ v, P v → Q v) :
    ∀ entries : List (QString × Value), Value.EachEntry P entries → Value.EachEntry Q entries
  | [], _ => trivial
  | (_, v) :: entries, hv => ⟨each_imp h v hv.1, eachEntry_imp h entries hv.2⟩

theorem eachItem_imp {P Q : Value → Prop} (h : ∀ v, P v → Q v) :
    ∀ l : List Value, Value.EachItem P l → Value.EachItem Q l
  | [], _ => trivial
  | v :: l, hv => ⟨each_imp h v hv.1, eachItem_imp h l hv.2⟩

end

theorem isAlpha_getTypeStr (t : VariantType) : ∀ c ∈ (getTypeStr t).toList, c.isAlpha = true := by
  refine List.all_eq_true.mp ?_
  cases t <;> decide

theorem isAsciiText_fromLatin1 {bytes : List UInt8} (h : ∀ b ∈ bytes, IsPrintable b) :
    IsAsciiText (fromLatin1 bytes) := by
  intro u hu
  obtain ⟨b, hb, rfl⟩ := List.mem_map.mp hu
  have hunit : (UInt16.ofNat b.toNat).toNat = b.toNat := UInt16.toNat_ofNat_of_lt' (by
    have := b.toNat_lt
    show b.toNat < 65536
    omega)
  rw [hunit]
  exact h b hb

theorem isContent_textElement {IsName : QString → Prop} {name : QString} (hname : IsName name)
    (type : VariantType) {bytes : List UInt8} (h : ∀ b ∈ bytes, IsPrintable b) {later : List Call}
    (hlater : IsContent IsName later) :
    IsContent IsName (textElement name type bytes ++ later) :=
  .element hname (isAlpha_getTypeStr type) (.text (isAsciiText_fromLatin1 h)) hlater

theorem isContent_escapedElement {IsName : QString → Prop} {name : QString} (hname : IsName name)
    (type : VariantType) (text : QString) {later : List Call} (hlater : IsContent IsName later) :
    IsContent IsName (escapedElement name type text ++ later) :=
  isContent_textElement hname type (isPrintable_toPercent isPrintable_unescaped _) hlater

theorem isContent_strings {IsName : QString → Prop} (hvariant : IsName (ascii "Variant")) (l : List QString) :
    IsContent IsName (l.flatMap (escapedElement (ascii "Variant") .String)) := by
  induction l with
  | nil => exact .empty
  | cons s l ih => exact isContent_escapedElement hvariant .String s ih

theorem isContent_around {IsName : QString → Prop} {name : QString} (hname : IsName name)
    (type : VariantType) {inner later : List Call} (hinner : IsContent IsName inner)
    (hlater : IsContent IsName later) :
    IsContent IsName (.writeStartElement name (getTypeStr type) :: inner ++ [.writeEndElement] ++ later) := by
  rw [List.append_assoc]
  exact .element hname (isAlpha_getTypeStr type) hinner hlater

mutual

/-- A written value is content if its keys are names. -/
theorem isContent_serialize {IsName : QString → Prop} (hvariant : IsName (ascii "Variant")) :
    ∀ (v : Value) (_ : v.Each (NodeNamed IsName)) {name : QString} (_ : IsName name)
      {later : List Call}, IsContent IsName later → IsContent IsName (serialize name v ++ later)
  | .map entries, hv, _, hname, _, hlater =>
    isContent_around hname .Map (isContent_serializeMap hvariant entries hv.1 hv.2) hlater
  | .list l, hv, _, hname, _, hlater =>
    isContent_around hname .List (isContent_serializeList hvariant l hv.2) hlater
  | .stringList l, _, _, hname, _, hlater =>
    isContent_around hname .StringList (isContent_strings hvariant l) hlater
  | .byteArray bytes, _, _, hname, _, hlater =>
    isContent_textElement hname .ByteArray (isPrintable_toBase64 bytes) hlater
  | .invalid, _, _, hname, _, hlater => isContent_around hname .Invalid .empty hlater
  | .bool _, _, _, hname, _, hlater => isContent_escapedElement hname .Bool _ hlater
  | .int _, _, _, hname, _, hlater => isContent_escapedElement hname .Int _ hlater
  | .uInt _, _, _, hname, _, hlater => isContent_escapedElement hname .UInt _ hlater
  | .longLong _, _, _, hname, _, hlater => isContent_escapedElement hname .LongLong _ hlater
  | .uLongLong _, _, _, hname, _, hlater => isContent_escapedElement hname .ULongLong _ hlater
  | .string _, _, _, hname, _, hlater => isContent_escapedElement hname .String _ hlater

theorem isContent_serializeMap {IsName : QString → Prop} (hvariant : IsName (ascii "Variant")) :
    ∀ entries : List (QString × Value), (∀ e ∈ entries, IsName e.1) →
      Value.EachEntry (NodeNamed IsName) entries → IsContent IsName (serializeMap entries)
  | [], _, _ => .empty
  | (key, v) :: entries, hkeys, hentries =>
    isContent_serialize hvariant v hentries.1 (hkeys (key, v) List.mem_cons_self)
      (isContent_serializeMap hvariant entries (fun e he => hkeys e (List.mem_cons_of_mem _ he)) hentries.2)

theorem isContent_serializeList {IsName : QString → Prop} (hvariant : IsName (ascii "Variant")) :
    ∀ l : List Value, Value.EachItem (NodeNamed IsName) l → IsContent IsName (serializeList l)
  | [], _ => .empty
  | v :: l, hl =>
    isContent_serialize hvariant v hl.1 hvariant (isContent_serializeList hvariant l hl.2)

end

/-- What a value is written as begins and ends an element. -/
theorem serialize_shape {IsName : QString → Prop} (hvariant : IsName (ascii "Variant")) {v : Value}
    (hv : v.Each (NodeNamed IsName)) (name : QString) : ∃ (type : VariantType) (inner : List Call),
      IsContent IsName inner ∧ serialize name v = .writeStartElement name (getTypeStr type) :: inner ++
          [.writeEndElement] := by
  have hescaped : ∀ (type : VariantType) (text : QString), ∃ (type' : VariantType)
      (inner : List Call), IsContent IsName inner ∧ escapedElement name type text =
        .writeStartElement name (getTypeStr type') :: inner ++ [.writeEndElement] :=
    fun type text => ⟨type, _, .text (isAsciiText_fromLatin1 (isPrintable_toPercent isPrintable_unescaped _)), rfl⟩
  cases v with
  | map entries => exact ⟨.Map, _, isContent_serializeMap hvariant entries hv.1 hv.2, rfl⟩
  | list l => exact ⟨.List, _, isContent_serializeList hvariant l hv.2, rfl⟩
  | stringList l => exact ⟨.StringList, _, isContent_strings hvariant l, rfl⟩
  | byteArray bytes =>
    exact ⟨.ByteArray, _, .text (isAsciiText_fromLatin1 (isPrintable_toBase64 bytes)), rfl⟩
  | invalid => exact ⟨.Invalid, [], .empty, rfl⟩
  | _ => exact hescaped _ _

theorem QtXml.isName_variant (qt : QtXml) : qt.IsName (ascii "Variant") :=
  qt.letters "Variant".toList (by decide) (List.all_eq_true.mp (by decide))

/-- A tree whose keys are names comes back as `asRead` says. -/
theorem QtXml.reparse_eq (qt : QtXml) {v : Value} (hsorted : v.Each NodeSorted)
    (hnamed : v.Each (NodeNamed qt.IsName)) : qt.reparse v = asRead v := by
  have hdocument : IsDocument qt.IsName (serializeDocument v) := by
    obtain ⟨type, inner, hinner, hcalls⟩ :=
      serialize_shape qt.isName_variant hnamed (ascii "Variant")
    refine ⟨_, _, inner, qt.isName_variant, isAlpha_getTypeStr type, hinner, ?_⟩
    rw [serializeDocument, hcalls]
  have hfound := qt.rereads _ hdocument
  rw [QtXml.reparse]
  generalize qt.events (serializeDocument v) = events at hfound
  obtain ⟨later, rfl, hlater⟩ := hfound
  obtain ⟨inner, _, rfl, hinner, _, rfl, rfl⟩ := Rereads.split hlater
  have hread := parse_serialize v hsorted (ascii "Variant") hinner [.endDocument]
    (by simp only [List.length_append, List.length_cons, List.length_nil]; omega :
      2 * inner.length ≤ 2 * (inner ++ [Event.endDocument]).length + 3)
  rw [parseDocument, List.length_cons, Nat.mul_succ, parse, hread]

theorem nodeRead_textValue (IsName : QString → Prop) (type : VariantType) (text : QString) :
    (textValue type text).Each (NodeRead IsName) := by
  rw [textValue]
  split_ifs
  · exact trivial
  · cases type <;> exact trivial

/-- An entry of the map was put in. -/
theorem mem_of_mem_insertAll {items : List (QString × Value)} {e : QString × Value}
    (h : e ∈ insertAll items) : e ∈ items := by
  have hall : ∀ m : OrderedMap QString Value,
      e ∈ (items.foldl (fun m e => m.insert e.1 e.2) m).entries → e ∈ m.entries ∨ e ∈ items := by
    clear h
    induction items with
    | nil => exact fun m hm => Or.inl hm
    | cons a items ih =>
      intro m hm
      rcases ih _ hm with hm | hm
      · rcases OrderedMap.mem_insert.mp hm with rfl | hm
        · exact Or.inr List.mem_cons_self
        · exact Or.inl hm.1
      · exact Or.inr (List.mem_cons_of_mem _ hm)
  exact (hall _ h).resolve_left nofun

theorem eachEntry_of_forall {P : Value → Prop} {entries : List (QString × Value)}
    (h : ∀ e ∈ entries, e.2.Each P) : Value.EachEntry P entries := by
  induction entries with
  | nil => exact trivial
  | cons e entries ih =>
    exact ⟨h e List.mem_cons_self, ih fun a ha => h a (List.mem_cons_of_mem _ ha)⟩

theorem eachItem_of_forall {P : Value → Prop} {l : List Value} (h : ∀ v ∈ l, v.Each P) :
    Value.EachItem P l := by
  induction l with
  | nil => exact trivial
  | cons v l ih => exact ⟨h v List.mem_cons_self, ih fun a ha => h a (List.mem_cons_of_mem _ ha)⟩

/-- All elements that begin have names of XML. -/
def AllNamed (IsName : QString → Prop) (events : List Event) : Prop :=
  ∀ name type, .startElement name type ∈ events → IsName name

theorem AllNamed.tail {IsName : QString → Prop} {event : Event} {events : List Event}
    (h : AllNamed IsName (event :: events)) : AllNamed IsName events :=
  fun name type hmem => h name type (List.mem_cons_of_mem _ hmem)

/-- A key that is a name with a value that can be read. -/
def ItemRead (IsName : QString → Prop) (item : QString × Value) : Prop :=
  IsName item.1 ∧ item.2.Each (NodeRead IsName)

mutual

/-- What is read has names as keys and no null values. -/
theorem parse_read {IsName : QString → Prop} : ∀ (fuel : ℕ) (opened : Option (QString × VariantType))
    (text : QString) (events : List Event), AllNamed IsName events → (∀ element ∈ opened, IsName element.1) →
      (∀ item ∈ (parse fuel opened text events).1, ItemRead IsName item) ∧
        AllNamed IsName (parse fuel opened text events).2
  | 0, _, _, _, hnames, _ => ⟨nofun, hnames⟩
  | _ + 1, _, _, [], _, _ => ⟨nofun, nofun⟩
  | _ + 1, _, _, .error :: _, _, _ => ⟨nofun, nofun⟩
  | fuel + 1, opened, text, .endDocument :: events, hnames, hopened =>
    parse_read fuel opened text events hnames.tail hopened
  | fuel + 1, opened, text, .startDocument :: events, hnames, hopened =>
    parse_read fuel opened text events hnames.tail hopened
  | fuel + 1, opened, text, .characters _ :: events, hnames, hopened =>
    parse_read fuel opened _ events hnames.tail hopened
  | _ + 1, opened, text, .endElement :: events, hnames, hopened => by
    refine ⟨fun item hitem => ?_, hnames.tail⟩
    obtain ⟨element, helement, rfl⟩ := Option.map_eq_some_iff.mp hitem
    exact ⟨hopened element helement, nodeRead_textValue IsName _ _⟩
  | fuel + 1, opened, text, .startElement name type :: events, hnames, _ => by
    have hname : IsName name := hnames name type List.mem_cons_self
    obtain ⟨hitems, hlater⟩ := parseItems_read fuel events hnames.tail
    have hleaf := parse_read fuel (some (name, getType type)) text events hnames.tail
      (fun element helement => Option.some.inj helement ▸ hname)
    rw [parse]
    cases htype : getType type with
    | Map =>
      refine ⟨fun item hitem => ?_, hlater⟩
      obtain rfl := Option.some.inj hitem
      exact ⟨hname, fun e he => (hitems e (mem_of_mem_insertAll he)).1,
        eachEntry_of_forall fun e he => (hitems e (mem_of_mem_insertAll he)).2⟩
    | List =>
      refine ⟨fun item hitem => ?_, hlater⟩
      obtain rfl := Option.some.inj hitem
      refine ⟨hname, trivial, eachItem_of_forall fun v hv => ?_⟩
      obtain ⟨e, he, rfl⟩ := List.mem_map.mp hv
      exact (hitems e he).2
    | StringList =>
      refine ⟨fun item hitem => ?_, hlater⟩
      obtain rfl := Option.some.inj hitem
      exact ⟨hname, trivial⟩
    | _ =>
      rw [htype] at hleaf
      exact hleaf

/-- What a container reads has names as keys and no null values. -/
theorem parseItems_read {IsName : QString → Prop} : ∀ (fuel : ℕ) (events : List Event),
    AllNamed IsName events → (∀ item ∈ (parseItems fuel events).1, ItemRead IsName item) ∧
      AllNamed IsName (parseItems fuel events).2
  | 0, _, hnames => ⟨nofun, hnames⟩
  | fuel + 1, events, hnames => by
    obtain ⟨hitem, hlater⟩ := parse_read fuel none [] events hnames nofun
    rw [parseItems]
    cases hfirst : parse fuel none [] events with
    | mk first later =>
      rw [hfirst] at hitem hlater
      cases first with
      | none => exact ⟨nofun, hlater⟩
      | some item =>
        obtain ⟨hitems, hlast⟩ := parseItems_read fuel later hlater
        refine ⟨fun a ha => ?_, hlast⟩
        rcases List.mem_cons.mp ha with rfl | ha
        · exact hitem _ rfl
        · exact hitems a ha

end

theorem nodeNamed_of_storable {IsName : QString → Prop} {v : Value} (h : NodeStorable IsName v) :
    NodeNamed IsName v := by
  cases v with
  | map entries => exact h
  | _ => exact trivial

theorem nodeNamed_of_read {IsName : QString → Prop} {v : Value} (h : NodeRead IsName v) :
    NodeNamed IsName v := by
  cases v with
  | map entries => exact h
  | _ => exact trivial

mutual

/-- A tree that can be read and comes back as it is can be stored. -/
theorem storable_of_asRead {IsName : QString → Prop} :
    ∀ v : Value, v.Each (NodeRead IsName) → asRead v = v → v.Each (NodeStorable IsName)
  | .map entries, hv, h =>
    ⟨hv.1, storable_of_asReadMap entries hv.2 (Value.map.inj h)⟩
  | .list l, hv, h => ⟨trivial, storable_of_asReadList l hv.2 (Value.list.inj h)⟩
  | .stringList _, _, h => fun s hs =>
    (fromUtf8_toUtf8_iff s).mp (List.map_inj_left.mp ((Value.stringList.inj h).trans (List.map_id _).symm) s hs)
  | .string s, _, h => (fromUtf8_toUtf8_iff s).mp (Value.string.inj h)
  | .invalid, hv, _ => hv
  | .byteArray _, _, _ => trivial
  | .bool _, _, _ => trivial
  | .int _, _, _ => trivial
  | .uInt _, _, _ => trivial
  | .longLong _, _, _ => trivial
  | .uLongLong _, _, _ => trivial

theorem storable_of_asReadMap {IsName : QString → Prop} :
    ∀ entries : List (QString × Value), Value.EachEntry (NodeRead IsName) entries →
      asReadMap entries = entries → Value.EachEntry (NodeStorable IsName) entries
  | [], _, _ => trivial
  | (_, v) :: entries, hv, h =>
    ⟨storable_of_asRead v hv.1 (Prod.mk.inj (List.cons.inj h).1).2,
      storable_of_asReadMap entries hv.2 (List.cons.inj h).2⟩

theorem storable_of_asReadList {IsName : QString → Prop} : ∀ l : List Value, Value.EachItem (NodeRead IsName) l →
      asReadList l = l → Value.EachItem (NodeStorable IsName) l
  | [], _, _ => trivial
  | v :: l, hv, h =>
    ⟨storable_of_asRead v hv.1 (List.cons.inj h).1, storable_of_asReadList l hv.2 (List.cons.inj h).2⟩

end

mutual

/-- A tree that can be stored comes back as it is. -/
theorem asRead_of_storable {IsName : QString → Prop} : ∀ v : Value, v.Each (NodeStorable IsName) → asRead v = v
  | .map entries, hv => congrArg Value.map (asReadMap_of_storable entries hv.2)
  | .list l, hv => congrArg Value.list (asReadList_of_storable l hv.2)
  | .stringList _, hv => congrArg Value.stringList ((List.map_congr_left fun s hs =>
      (fromUtf8_toUtf8_iff s).mpr (hv s hs)).trans (List.map_id _))
  | .string s, hv => congrArg Value.string ((fromUtf8_toUtf8_iff s).mpr hv)
  | .invalid, hv => hv.elim
  | .byteArray _, _ => rfl
  | .bool _, _ => rfl
  | .int _, _ => rfl
  | .uInt _, _ => rfl
  | .longLong _, _ => rfl
  | .uLongLong _, _ => rfl

theorem asReadMap_of_storable {IsName : QString → Prop} :
    ∀ entries : List (QString × Value), Value.EachEntry (NodeStorable IsName) entries → asReadMap entries = entries
  | [], _ => rfl
  | (key, v) :: entries, hv =>
    congrArg₂ (fun v' rest => (key, v') :: rest) (asRead_of_storable v hv.1) (asReadMap_of_storable entries hv.2)

theorem asReadList_of_storable {IsName : QString → Prop} :
    ∀ l : List Value, Value.EachItem (NodeStorable IsName) l → asReadList l = l
  | [], _ => rfl
  | v :: l, hv => congrArg₂ (· :: ·) (asRead_of_storable v hv.1) (asReadList_of_storable l hv.2)

end

theorem QtXml.reparse_read (qt : QtXml) (v : Value) :
    qt.reparse v = .invalid ∨ (qt.reparse v).Each (NodeRead qt.IsName) := by
  have hread := (parse_read (2 * (qt.events (serializeDocument v)).length + 2) none []
    (qt.events (serializeDocument v)) (qt.named _) nofun).1
  rw [QtXml.reparse, parseDocument]
  cases hfirst : (parse (2 * (qt.events (serializeDocument v)).length + 2) none []
    (qt.events (serializeDocument v))).1 with
  | none => exact Or.inl rfl
  | some item => exact Or.inr (hread item hfirst).2

/-- Exactly the trees that can be stored come back as they were. -/
theorem QtXml.reparse_iff (qt : QtXml) {v : Value} (hsorted : v.Each NodeSorted) :
    qt.reparse v = v ↔ v.Each (NodeStorable qt.IsName) := by
  constructor
  · intro h
    rcases qt.reparse_read v with hnull | hread
    · rw [h] at hnull
      subst hnull
      exact Value.noConfusion ((qt.reparse_eq hsorted trivial).symm.trans h)
    · rw [h] at hread
      have hkeys := each_imp (fun _ => nodeNamed_of_read) v hread
      exact storable_of_asRead v hread ((qt.reparse_eq hsorted hkeys).symm.trans h)
  · intro h
    have hkeys := each_imp (fun _ => nodeNamed_of_storable) v h
    exact (qt.reparse_eq hsorted hkeys).trans (asRead_of_storable v h)

end NeoLoader.XmlRoundTrip
