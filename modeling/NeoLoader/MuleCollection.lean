import NeoLoader.KeyMapTotals
import NeoLoader.MuleTagsRoundTrip
import NeoLoader.PlaceMarkers
import NeoLoader.TextEncodings

/-!
# Collections of files

A collection is saved as tags for it and for each of its files, with a signature behind them if there is a key, or as a
text with a link for each file. The data that is read may be either. An index that lies outside of it ends in `none`.
-/

namespace NeoLoader.MuleCollection

open ByteReader KeyMap MuleTags PlaceMarkers TextEncodings

section Data

structure SFileInfo where
  FileName : QString
  /-- `FileSize`, as its bits. -/
  FileSize : UInt64
  HashEd2k : List UInt8
  /-- `HashAICH`, which is a text. -/
  HashAICH : List UInt8
  Properties : QVariantMap

/-- The constructor. -/
def SFileInfo.new : SFileInfo := ⟨[], 0, [], [], OrderedMap.empty⟩

structure CMuleCollection where
  m_CollectionName : QString
  m_Properties : QVariantMap
  m_Files : List SFileInfo
  m_CreatorKey : List UInt8

/-- The constructor. -/
def CMuleCollection.new : CMuleCollection := ⟨[], OrderedMap.empty, [], []⟩

structure CPrivateKey where
  /-- The algorithm is `eRSA`. -/
  isRSA : Bool
  publicKey : List UInt8
  sign : List UInt8 → List UInt8

/-- Conversions between values, and the check of signatures. -/
structure Conversions where
  /-- `QString::toUInt`. -/
  toUInt : QString → Option ℕ
  /-- A number in single precision. -/
  toFloat : UInt64 → UInt32
  /-- A number in double precision. -/
  toDouble : UInt32 → UInt64
  /-- `QVariant::toString`. -/
  toText : QVariant → QString
  /-- `QVariant::toULongLong`. -/
  toLong : QVariant → UInt64
  /-- `QVariant::toInt`, as its bits. -/
  toInt : QVariant → UInt32
  /-- `QVariant::toByteArray`. -/
  toBytes : QVariant → List UInt8
  /-- `QVariant::value<CMuleHash>`. -/
  toHash : QVariant → CMuleHash
  /-- `QByteArray::toULongLong`. -/
  toULongLong : List UInt8 → UInt64
  /-- The name of a file without its directory and what follows the first point. -/
  baseName : QString → QString
  /-- `SetKey` and `Verify` of a public key. -/
  verify : List UInt8 → List UInt8 → List UInt8 → Bool

/-- A text of ASCII. -/
def qstring (s : String) : QString := s.toList.map fun c => UInt16.ofNat c.toNat

/-- The bytes of a text of ASCII. -/
def ascii (s : String) : List UInt8 := s.toList.map fun c => UInt8.ofNat c.toNat

def PROP_DESCRIPTION : QString := qstring "Description"

def PROP_RATING : QString := qstring "Rating"

/-- `FT_FILENAME`. -/
@[match_pattern] abbrev FT_FILENAME : ℕ := 0x01
/-- `FT_FILESIZE`. -/
@[match_pattern] abbrev FT_FILESIZE : ℕ := 0x02
/-- `FT_AICH_HASH`. -/
@[match_pattern] abbrev FT_AICH_HASH : ℕ := 0x27
/-- `FT_FILEHASH`. -/
@[match_pattern] abbrev FT_FILEHASH : ℕ := 0x28
/-- `FT_COLLECTIONAUTHOR`. -/
@[match_pattern] abbrev FT_COLLECTIONAUTHOR : ℕ := 0x31
/-- `FT_COLLECTIONAUTHORKEY`. -/
@[match_pattern] abbrev FT_COLLECTIONAUTHORKEY : ℕ := 0x32
/-- `FT_FILECOMMENT`. -/
@[match_pattern] abbrev FT_FILECOMMENT : ℕ := 0xF6
/-- `FT_FILERATING`. -/
@[match_pattern] abbrev FT_FILERATING : ℕ := 0xF7

end Data

section Saving

variable (conv : Conversions)

/-- `CMuleHash`, of the first bytes of some data. -/
def muleHash (data : List UInt8) : CMuleHash := ⟨(data ++ List.replicate 16 0).take 16, by simp⟩

/-- A property that is taken out of the tags comes back under a number. -/
def takeTag (Tags : QVariantMap) (name : QString) (uTag : ℕ) (value : QVariant → QVariant) : QVariantMap :=
  match Tags.get name with
  | none => Tags
  | some v => (Tags.erase name).insert (number uTag) (value v)

/-- The tags of a collection. -/
def headerTags (c : CMuleCollection) (pPrivKey : Option CPrivateKey) : QVariantMap :=
  let HeaderTags := c.m_Properties.insert (number FT_FILENAME) (QVariant.string c.m_CollectionName)
  let HeaderTags := takeTag HeaderTags (qstring "Creator") FT_COLLECTIONAUTHOR fun v => QVariant.string (conv.toText v)
  match pPrivKey with
  | none => HeaderTags
  | some key => HeaderTags.insert (number FT_COLLECTIONAUTHORKEY) (QVariant.byteArray key.publicKey)

/-- The tags of a file, which begin with the properties of the collection. -/
def fileTags (c : CMuleCollection) (File : SFileInfo) : QVariantMap :=
  let Tags := c.m_Properties.insert (number FT_FILENAME) (QVariant.string File.FileName)
  let Tags := Tags.insert (number FT_FILESIZE) (QVariant.longLong File.FileSize)
  let Tags := Tags.insert (number FT_FILEHASH) (QVariant.muleHash (muleHash File.HashEd2k))
  let Tags :=
    if File.HashAICH = [] then Tags
    else Tags.insert (number FT_AICH_HASH) (QVariant.string (fromLatin1 File.HashAICH))
  let Tags := takeTag Tags PROP_DESCRIPTION FT_FILECOMMENT fun v => QVariant.string (conv.toText v)
  takeTag Tags PROP_RATING FT_FILERATING fun v => QVariant.int (conv.toInt v)

/-- What `SaveToData` writes before the signature. -/
def saveTags (c : CMuleCollection) (pPrivKey : Option CPrivateKey) : List UInt8 :=
  littleEndian 4 2 ++ writeTags conv.toUInt conv.toFloat (headerTags conv c pPrivKey) true false ++
    (littleEndian 4 c.m_Files.length ++
      c.m_Files.flatMap fun File => writeTags conv.toUInt conv.toFloat (fileTags conv c File) true false)

def saveToData (c : CMuleCollection) (pPrivKey : Option CPrivateKey) : List UInt8 :=
  match pPrivKey with
  | none => saveTags conv c none
  | some key =>
    if key.isRSA then saveTags conv c (some key) ++ key.sign (saveTags conv c (some key))
    else []

/-- The bytes that `toPercentEncoding` leaves as they are. -/
def unreserved (b : UInt8) : Bool :=
  (48 ≤ b.toNat ∧ b.toNat ≤ 57) ∨ (65 ≤ b.toNat ∧ b.toNat ≤ 90) ∨ (97 ≤ b.toNat ∧ b.toNat ≤ 122) ∨ b = 45 ∨ b = 46 ∨
    b = 95 ∨ b = 126

/-- The digits of a number. -/
def digits (n : ℕ) : List UInt8 := (Nat.toDigits 10 n).map fun c => UInt8.ofNat c.toNat

/-- The text of a number with a sign. -/
def sizeText (n : UInt64) : List UInt8 := if n.toNat < 2 ^ 63 then digits n.toNat else 45 :: digits (2 ^ 64 - n.toNat)

/-- A small digit of base 16. -/
def lowDigit (n : ℕ) : UInt8 := if n < 10 then UInt8.ofNat (48 + n) else UInt8.ofNat (87 + n)

/-- `QByteArray::toHex`. -/
def toHex (bytes : List UInt8) : List UInt8 := bytes.flatMap fun b => [lowDigit (b.toNat / 16), lowDigit (b.toNat % 16)]

/-- The link of a file before anything is filled in. -/
def linkTemplate : List UInt8 := ascii "ed2k://|file|%1|%2|%3|%4/\r\n"

/-- The text for `HashAICH`. -/
def aichText (File : SFileInfo) : List UInt8 := if File.HashAICH = [] then [] else arg File.HashAICH (ascii "h=%1|")

/-- The link of a file. -/
def link (File : SFileInfo) : List UInt8 :=
  arg (aichText File) (arg (toHex File.HashEd2k) (arg (sizeText File.FileSize)
    (arg (toPercent unreserved (toUtf8 File.FileName)) linkTemplate)))

def saveToSimpleFile (c : CMuleCollection) : List UInt8 :=
  ascii "# eMule collection (simple text format)\r\n" ++ c.m_Files.flatMap link

end Saving

section Loading

variable (conv : Conversions)

/-- A tag of the collection is taken. -/
def takeHeaderTag (c : CMuleCollection) (tag : QString × QVariant) : CMuleCollection :=
  match (conv.toUInt tag.1).getD 0 with
  | FT_FILENAME => { c with m_CollectionName := conv.toText tag.2 }
  | FT_COLLECTIONAUTHOR => { c with m_Properties := c.m_Properties.insert (qstring "Creator") tag.2 }
  | FT_COLLECTIONAUTHORKEY => { c with m_CreatorKey := conv.toBytes tag.2 }
  | _ => { c with m_Properties := c.m_Properties.insert tag.1 tag.2 }

/-- A tag of a file is taken. -/
def takeFileTag (File : SFileInfo) (tag : QString × QVariant) : SFileInfo :=
  match (conv.toUInt tag.1).getD 0 with
  | FT_FILENAME => { File with FileName := conv.toText tag.2 }
  | FT_FILESIZE => { File with FileSize := conv.toLong tag.2 }
  | FT_FILEHASH => { File with HashEd2k := (conv.toHash tag.2).1 }
  | FT_AICH_HASH => { File with HashAICH := toLatin1 (conv.toText tag.2) }
  | FT_FILECOMMENT => { File with Properties := File.Properties.insert PROP_DESCRIPTION tag.2 }
  | FT_FILERATING => { File with Properties := File.Properties.insert PROP_RATING tag.2 }
  | _ => { File with Properties := File.Properties.insert tag.1 tag.2 }

/-- A file is read. -/
def readFile : Reader SFileInfo := do
  let Tags ← readTags conv.toDouble false
  return Tags.entries.foldl (takeFileTag conv) SFileInfo.new

/-- A file is read and added. -/
def addFile (c : CMuleCollection) : Reader CMuleCollection := do
  let File ← readFile conv
  return { c with m_Files := c.m_Files ++ [File] }

/-- The collection is read. -/
def readCollection : Reader CMuleCollection := do
  let uVersion ← readNumber 4
  if uVersion ≠ 1 ∧ uVersion ≠ 2 then failure
  let HeaderTags ← readTags conv.toDouble false
  let uFileCount ← readNumber 4
  readTimes (addFile conv) uFileCount (HeaderTags.entries.foldl (takeHeaderTag conv) CMuleCollection.new)

/-- `LoadFromData` of tags. What was read before an error is left out. -/
def loadTags (Data : List UInt8) : Bool × CMuleCollection :=
  match readCollection conv Data with
  | none => (false, CMuleCollection.new)
  | some (c, rest) =>
    if c.m_CreatorKey = [] then (true, c)
    else (rest ≠ [] && conv.verify c.m_CreatorKey (Data.take (Data.length - rest.length)) rest, c)

/-- The value of a digit of base 16. -/
def digitValue (b : UInt8) : Option ℕ :=
  if 48 ≤ b.toNat ∧ b.toNat ≤ 57 then some (b.toNat - 48)
  else if 97 ≤ b.toNat ∧ b.toNat ≤ 102 then some (b.toNat - 87)
  else if 65 ≤ b.toNat ∧ b.toNat ≤ 70 then some (b.toNat - 55)
  else none

/-- The bytes of digits of base 16, the last one first. -/
def hexBytes : List ℕ → List UInt8
  | [] => []
  | [low] => [UInt8.ofNat low]
  | low :: high :: rest => UInt8.ofNat (16 * high + low) :: hexBytes rest

/-- `QByteArray::fromHex`, which skips what is no digit. -/
def fromHex (bytes : List UInt8) : List UInt8 := (hexBytes (bytes.filterMap digitValue).reverse).reverse

/-- `QByteArray::toLower`. -/
def toLower (bytes : List UInt8) : List UInt8 := bytes.map fun b => if 65 ≤ b.toNat ∧ b.toNat ≤ 90 then b + 32 else b

/-- A section of a link that may have the hash `HashAICH`. -/
def takeSection (HashAICH section' : List UInt8) : List UInt8 :=
  if section'.take 2 = ascii "h=" then section'.drop 2 else HashAICH

/-- A segment of a line. -/
def loadSegment (File : SFileInfo) (Segment : List UInt8) : Option SFileInfo :=
  let Sections := Segment.splitOn 124
  if 6 ≤ Sections.length then do
    let kind ← Sections[1]?
    if toLower kind = ascii "file" then
      let name ← Sections[2]?
      let size ← Sections[3]?
      let hash ← Sections[4]?
      return { File with
        FileName := fromUtf8 (fromPercent name)
        FileSize := conv.toULongLong size
        HashEd2k := fromHex hash
        HashAICH := (Sections.drop 5).foldl takeSection File.HashAICH }
    else return File
  else return File

/-- A line, which may be a comment. -/
def loadLine (Files : List SFileInfo) (Line : List UInt8) : Option (List SFileInfo) := do
  let first ← Line[0]?
  if first = 35 then return Files
  let File ← (Line.splitOn 47).foldlM (loadSegment conv) SFileInfo.new
  return Files ++ [File]

/-- The lines that `canReadLine` finds. -/
def lines (Data : List UInt8) : List (List UInt8) := (Data.splitOn 10).dropLast.map (· ++ [10])

/-- `LoadFromData`, into a new collection. -/
def loadFromData (Data : List UInt8) (FileName : QString) : Option (Bool × CMuleCollection) := do
  let first ← Data[0]?
  if first = 35 then
    let Files ← (lines Data).foldlM (loadLine conv) []
    return (true, { CMuleCollection.new with m_CollectionName := conv.baseName FileName, m_Files := Files })
  else return loadTags conv Data

end Loading

end NeoLoader.MuleCollection
