import NeoLoader.ByteReader
import NeoLoader.KeyMap

/-!
# eMule tags

A list of tags is a map of names and values. A name that is a number of one byte has a
short form. Characters are of two bytes.
-/

namespace NeoLoader.MuleTags

open ByteReader KeyMap

/-- `QString`, and `wstring`. -/
abbrev QString := List UInt16

/-- `QString::number`. -/
def number (n : ℕ) : QString := (Nat.toDigits 10 n).map fun c => UInt16.ofNat c.toNat

abbrev CMuleHash := { m_Hash : List UInt8 // m_Hash.length = 16 }

/-- `QVariant`, as far as tags use it. Floating point numbers are their bits. -/
inductive QVariant where
  /-- `QVariant::Invalid`. -/
  | invalid
  /-- `QVariant::String`. -/
  | string (value : QString)
  /-- `QVariant::Int`, as its bits. -/
  | int (value : UInt32)
  /-- `QVariant::UInt`. -/
  | uInt (value : UInt32)
  /-- `QVariant::LongLong`, as its bits. -/
  | longLong (value : UInt64)
  /-- `QVariant::ULongLong`. -/
  | uLongLong (value : UInt64)
  /-- `QVariant::Double`. -/
  | double (value : UInt64)
  /-- `QVariant::Bool`. -/
  | bool (value : Bool)
  /-- `QVariant::ByteArray`. -/
  | byteArray (value : List UInt8)
  /-- `CMuleHash`. -/
  | muleHash (value : CMuleHash)
  deriving DecidableEq

abbrev QVariantMap := OrderedMap QString QVariant

section Strings

inductive EStrSet where
  | eAscii
  | eUtf8_BOM
  | eUtf8
  deriving DecidableEq

/-- The bytes of a byte order mark. -/
def bom : List UInt8 := [0xEF, 0xBB, 0xBF]

def wStrToAscii (src : QString) : List UInt8 :=
  src.map fun w => if w.toNat ≤ 0xff then UInt8.ofNat w.toNat else 63

def asciiToWStr (src : List UInt8) : QString := src.map fun c => UInt16.ofNat c.toNat

/-- What `WStrToUtf8` does with one character. -/
def charToUtf8 (w : ℕ) : List UInt8 :=
  if w ≤ 0x7f then [UInt8.ofNat w]
  else if w ≤ 0x7ff then
    [UInt8.ofNat (0xc0 ||| (w >>> 6 &&& 0x1f)), UInt8.ofNat (0x80 ||| (w &&& 0x3f))]
  else
    [UInt8.ofNat (0xe0 ||| (w >>> 12 &&& 0x0f)), UInt8.ofNat (0x80 ||| (w >>> 6 &&& 0x3f)),
      UInt8.ofNat (0x80 ||| (w &&& 0x3f))]

def wStrToUtf8 (src : QString) : List UInt8 := src.flatMap fun w => charToUtf8 w.toNat

/-- The character that stands for an error. -/
def err : UInt16 := 0xFFFD

/-- The loop of `Utf8ToWStr`. -/
def utf8ToWStrLoop (w bytes : ℕ) : List UInt8 → QString
  | [] => if bytes ≠ 0 then [err] else []
  | c :: src =>
    let c := c.toNat
    if c ≤ 0x7f then
      (if bytes ≠ 0 then [err] else []) ++ UInt16.ofNat c :: utf8ToWStrLoop w 0 src
    else if c ≤ 0xbf then
      if bytes ≠ 0 then
        let w := (w <<< 6 ||| (c &&& 0x3f)) % 2 ^ 16
        if bytes - 1 = 0 then UInt16.ofNat w :: utf8ToWStrLoop w (bytes - 1) src
        else utf8ToWStrLoop w (bytes - 1) src
      else err :: utf8ToWStrLoop w bytes src
    else if c ≤ 0xdf then utf8ToWStrLoop (c &&& 0x1f) 1 src
    else if c ≤ 0xef then utf8ToWStrLoop (c &&& 0x0f) 2 src
    else if c ≤ 0xf7 then utf8ToWStrLoop (c &&& 0x07) 3 src
    else err :: utf8ToWStrLoop w 0 src

def utf8ToWStr (src : List UInt8) : QString := utf8ToWStrLoop 0 0 src

/-- `CBuffer::WriteString`, with the bytes of the length. -/
def writeString (string : QString) (set : EStrSet) (len : ℕ) : List UInt8 :=
  let rawString := match set with
    | EStrSet.eAscii => wStrToAscii string
    | EStrSet.eUtf8_BOM => bom ++ wStrToUtf8 string
    | EStrSet.eUtf8 => wStrToUtf8 string
  littleEndian len rawString.length ++ rawString

/-- What `CBuffer::ReadString` makes of the bytes. -/
def decodeString (set : EStrSet) (rawString : List UInt8) : QString :=
  if rawString.take 3 = bom then utf8ToWStr (rawString.drop 3)
  else match set with
    | EStrSet.eAscii | EStrSet.eUtf8_BOM => asciiToWStr rawString
    | EStrSet.eUtf8 => utf8ToWStr rawString

/-- `CBuffer::ReadString` of so many bytes. -/
def readString (set : EStrSet) (uRawLength : ℕ) : Reader QString := do
  let rawString ← readBytes uRawLength
  return decodeString set rawString

end Strings

section Types

/-- `TAGTYPE_HASH16`. -/
@[match_pattern] abbrev TAGTYPE_HASH16 : ℕ := 0x01
/-- `TAGTYPE_STRING`. -/
@[match_pattern] abbrev TAGTYPE_STRING : ℕ := 0x02
/-- `TAGTYPE_UINT32`. -/
@[match_pattern] abbrev TAGTYPE_UINT32 : ℕ := 0x03
/-- `TAGTYPE_FLOAT32`. -/
@[match_pattern] abbrev TAGTYPE_FLOAT32 : ℕ := 0x04
/-- `TAGTYPE_BOOL`. -/
@[match_pattern] abbrev TAGTYPE_BOOL : ℕ := 0x05
/-- `TAGTYPE_BOOLARRAY`. -/
@[match_pattern] abbrev TAGTYPE_BOOLARRAY : ℕ := 0x06
/-- `TAGTYPE_BLOB`. -/
@[match_pattern] abbrev TAGTYPE_BLOB : ℕ := 0x07
/-- `TAGTYPE_UINT16`. -/
@[match_pattern] abbrev TAGTYPE_UINT16 : ℕ := 0x08
/-- `TAGTYPE_UINT8`. -/
@[match_pattern] abbrev TAGTYPE_UINT8 : ℕ := 0x09
/-- `TAGTYPE_UINT64`. -/
@[match_pattern] abbrev TAGTYPE_UINT64 : ℕ := 0x0B
abbrev TAGTYPE_STR1 : ℕ := 0x11
abbrev TAGTYPE_STR16 : ℕ := 0x20

end Types

section Reading

variable (toDouble : UInt32 → UInt64)

/-- Number of the bytes that are left. -/
def sizeLeft : Reader ℕ := fun s => some (s.length, s)

/-- `CBuffer::SetPosition` behind so many bytes, if there are so many. -/
def skipBytes (n : ℕ) : Reader Unit := fun s => some ((), if n ≤ s.length then s.drop n else s)

/-- The name of a tag, and its type without the flag of a short name. -/
def readName (uType : ℕ) : Reader (ℕ × QString) :=
  if uType &&& 0x80 ≠ 0 then do
    let uName ← readNumber 1
    return (uType &&& 0x7F, number uName)
  else do
    let uRawLength ← readNumber 2
    if uRawLength = 1 then
      let uName ← readNumber 1
      return (uType, number uName)
    else
      let name ← readString EStrSet.eAscii uRawLength
      return (uType, name)

/-- A `CMuleHash` made from bytes that are read. -/
def readHash : Reader CMuleHash := fun s =>
  if h : 16 ≤ s.length then some (⟨s.take 16, List.length_take_of_le h⟩, s.drop 16) else none

/-- The value of a tag of a type. -/
def readValue (uType : ℕ) : Reader QVariant :=
  match uType with
  | TAGTYPE_STRING => do
    let uRawLength ← readNumber 2
    let value ← readString EStrSet.eUtf8 uRawLength
    return QVariant.string value
  | TAGTYPE_UINT32 => do
    let value ← readNumber 4
    return QVariant.uInt (UInt32.ofNat value)
  | TAGTYPE_UINT64 => do
    let value ← readNumber 8
    return QVariant.uLongLong (UInt64.ofNat value)
  | TAGTYPE_UINT16 => do
    let value ← readNumber 2
    return QVariant.uInt (UInt32.ofNat value)
  | TAGTYPE_UINT8 => do
    let value ← readNumber 1
    return QVariant.uInt (UInt32.ofNat value)
  | TAGTYPE_FLOAT32 => do
    let value ← readNumber 4
    return QVariant.double (toDouble (UInt32.ofNat value))
  | TAGTYPE_HASH16 => do
    let hash ← readHash
    return QVariant.muleHash hash
  | TAGTYPE_BOOL => do
    let value ← readNumber 1
    return QVariant.bool (value != 0)
  | TAGTYPE_BOOLARRAY => do
    let uLen ← readNumber 2
    skipBytes (uLen / 8 + 1)
    return QVariant.invalid
  | TAGTYPE_BLOB => do
    let uSize ← readNumber 4
    let left ← sizeLeft
    if uSize > left then failure
    let value ← readBytes uSize
    return QVariant.byteArray value
  | uType =>
    if TAGTYPE_STR1 ≤ uType ∧ uType ≤ TAGTYPE_STR16 then do
      let value ← readString EStrSet.eUtf8 (uType - TAGTYPE_STR1 + 1)
      return QVariant.string value
    else failure

/-- One round of the loop of `ReadTags`. -/
def readTag (tags : QVariantMap) : Reader QVariantMap := do
  let uType ← readNumber 1
  let (uType, name) ← readName uType
  let value ← readValue toDouble uType
  return tags.insert name value

/-- `CMuleTags::ReadTags`. -/
def readTags (bShort : Bool) : Reader QVariantMap := do
  let uCount ← readNumber (if bShort then 1 else 4)
  readTimes (readTag toDouble) uCount OrderedMap.empty

end Reading

section Writing

/-- `CMuleTags::GetMuleTagType`. -/
def getMuleTagType : QVariant → ℕ
  | QVariant.string _ => TAGTYPE_STRING
  | QVariant.int _ | QVariant.uInt _ => TAGTYPE_UINT32
  | QVariant.longLong _ | QVariant.uLongLong _ => TAGTYPE_UINT64
  | QVariant.double _ => TAGTYPE_FLOAT32
  | QVariant.bool _ => TAGTYPE_BOOL
  | QVariant.byteArray _ => TAGTYPE_BLOB
  | QVariant.muleHash _ => TAGTYPE_HASH16
  | QVariant.invalid => 0

/-- `QVariant::toUInt` of an integer. -/
def QVariant.toUInt : QVariant → ℕ
  | QVariant.int value | QVariant.uInt value => value.toNat
  | _ => 0

/-- The type that `WriteTags` writes. -/
def writtenType (bAllowNew : Bool) (value : QVariant) : ℕ :=
  let uType := getMuleTagType value
  if bAllowNew ∧ uType = TAGTYPE_UINT32 then
    if value.toUInt ≤ 0xFF then TAGTYPE_UINT8
    else if value.toUInt ≤ 0xFFFF then TAGTYPE_UINT16
    else uType
  else uType

variable (toUInt : QString → Option ℕ) (toFloat : UInt64 → UInt32)

/-- The number that a name is, when it has one of a byte. -/
def nummeric (name : QString) : Option ℕ := (toUInt name).filter fun uName => !(uName > 0xFF)

/-- The type and the name that `WriteTags` writes. -/
def writeName (bAllowNew : Bool) (uType : ℕ) (name : QString) : List UInt8 :=
  match nummeric toUInt name with
  | some uName =>
    if bAllowNew then littleEndian 1 (uType ||| 0x80) ++ littleEndian 1 uName
    else littleEndian 1 uType ++ (littleEndian 2 1 ++ littleEndian 1 uName)
  | none => littleEndian 1 uType ++ writeString name EStrSet.eAscii 2

/-- The value that `WriteTags` writes for a type. There is no branch for
`TAGTYPE_BOOL`. -/
def writeValue (uType : ℕ) (value : QVariant) : List UInt8 :=
  match uType, value with
  | TAGTYPE_HASH16, QVariant.muleHash hash => hash.1
  | TAGTYPE_STRING, QVariant.string value => writeString value EStrSet.eUtf8 2
  | TAGTYPE_UINT64, QVariant.longLong value | TAGTYPE_UINT64, QVariant.uLongLong value =>
    littleEndian 8 value.toNat
  | TAGTYPE_UINT32, value => littleEndian 4 value.toUInt
  | TAGTYPE_FLOAT32, QVariant.double value => littleEndian 4 (toFloat value).toNat
  | TAGTYPE_UINT16, value => littleEndian 2 value.toUInt
  | TAGTYPE_UINT8, value => littleEndian 1 value.toUInt
  | TAGTYPE_BLOB, QVariant.byteArray blob => littleEndian 4 blob.length ++ blob
  | _, _ => []

/-- One round of the loop of `WriteTags`. -/
def writeTag (bAllowNew : Bool) (tag : QString × QVariant) : List UInt8 :=
  writeName toUInt bAllowNew (writtenType bAllowNew tag.2) tag.1 ++
    writeValue toFloat (writtenType bAllowNew tag.2) tag.2

/-- `CMuleTags::WriteTags`: the bytes that it writes. -/
def writeTags (tags : QVariantMap) (bAllowNew bShort : Bool) : List UInt8 :=
  littleEndian (if bShort then 1 else 4) tags.size ++ tags.entries.flatMap (writeTag toUInt toFloat bAllowNew)

end Writing

end NeoLoader.MuleTags
