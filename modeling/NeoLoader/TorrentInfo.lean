import Mathlib.Algebra.BigOperators.Group.List.Basic
import Mathlib.Data.UInt
import NeoLoader.TorrentNames

/-!
# The metadata of a torrent

The dictionary of a torrent is read field by field into the object that keeps it, and checked in between. The
bencoding is a parameter. The pieces of a torrent are those of all its files together, and a torrent with a root hash
has none.
-/

namespace NeoLoader.TorrentInfo

open TextEncodings hiding fromUtf8 fromUtf8_toUtf8_iff
open TorrentNames

section Values

/-- A `QVariant` that was read, by what its conversions give. -/
inductive QVariant where
  /-- What `toByteArray`, `toULongLong`, `toInt`, `toList` and `toMap` give. -/
  | mk (toByteArray : List UInt8) (toULongLong : UInt64) (toInt : ℤ) (toList : List QVariant)
    (toMap : List (String × QVariant))

def QVariant.toByteArray : QVariant → List UInt8
  | mk toByteArray _ _ _ _ => toByteArray

def QVariant.toULongLong : QVariant → UInt64
  | mk _ toULongLong _ _ _ => toULongLong

def QVariant.toInt : QVariant → ℤ
  | mk _ _ toInt _ _ => toInt

def QVariant.toList : QVariant → List QVariant
  | mk _ _ _ toList _ => toList

def QVariant.toMap : QVariant → List (String × QVariant)
  | mk _ _ _ _ toMap => toMap

/-- `contains` of a map. -/
def contains (map : List (String × QVariant)) (key : String) : Bool := map.any fun e => e.1 = key

/-- The value of a map at a key, which is null if there is none. -/
def value (map : List (String × QVariant)) (key : String) : QVariant :=
  ((map.find? fun e => e.1 = key).map Prod.snd).getD (QVariant.mk [] 0 0 [] [])

/-- The conversions between the kinds of values. -/
structure Conversions where
  /-- The number that a byte array is taken for. -/
  toULongLong : List UInt8 → UInt64
  /-- The number of type `int` that a byte array is taken for. -/
  toInt : List UInt8 → ℤ
  /-- The text of a number. -/
  toByteArray : UInt64 → List UInt8

variable (convert : Conversions)

/-- A byte array. -/
def ofByteArray (bytes : List UInt8) : QVariant :=
  QVariant.mk bytes (convert.toULongLong bytes) (convert.toInt bytes) [] []

/-- A number. -/
def ofNumber (n : UInt64) : QVariant := QVariant.mk (convert.toByteArray n) n (n.toUInt32.toInt32).toInt [] []

/-- A list. -/
def ofList (l : List QVariant) : QVariant := QVariant.mk [] 0 0 l []

/-- A map. -/
def ofMap (map : List (String × QVariant)) : QVariant := QVariant.mk [] 0 0 [] map

end Values

section Metadata

/-- `CTorrentInfo::SFileInfo`. -/
@[ext]
structure SFileInfo where
  Length : Int64
  FilePath : List WideText
  FileName : WideText
  deriving DecidableEq

/-- `CTorrentInfo`. -/
@[ext]
structure CTorrentInfo where
  m_InfoHash : List UInt8
  m_TotalLength : UInt64
  m_TorrentName : WideText
  m_Files : List SFileInfo
  m_PieceHashes : List (List UInt8)
  m_RootHash : List UInt8
  m_PieceLength : UInt64
  m_Private : Bool
  m_Metadata : List UInt8
  deriving DecidableEq

/-- The constructor. -/
def CTorrentInfo.new : CTorrentInfo := ⟨[], 0, [], [], [], [], 0, false, []⟩

def divUp (Size Value : UInt64) : UInt64 := (Size + Value - 1) / Value

/-- The hashes of twenty bytes each, the last one of what is left. -/
def cutHashes (PieceHashes : List UInt8) : List (List UInt8) :=
  (List.range ((PieceHashes.length + 19) / 20)).map fun k => (PieceHashes.drop (k * 20)).take 20

variable (win32 : Bool)

/-- The path that a file has in the dictionary. -/
def filePath (File : List (String × QVariant)) : List QVariant :=
  if contains File "path.utf-8" then (value File "path.utf-8").toList else (value File "path").toList

/-- The text for a file without a path. -/
def unknown : WideText := "unknown".toList.flatMap toUtf16

/-- A file of the dictionary. -/
def readFile (File : QVariant) : SFileInfo where
  Length := (value File.toMap "length").toULongLong.toInt64
  FilePath := (filePath File.toMap).dropLast.map fun vName => fromUtf8 win32 vName.toByteArray true
  FileName := ((filePath File.toMap).getLast?.map fun vName =>
    fromUtf8 win32 vName.toByteArray true).getD unknown

/-- The name in the dictionary. -/
def torrentName (Info : List (String × QVariant)) : WideText :=
  fromUtf8 win32 (if contains Info "name.utf-8" then value Info "name.utf-8" else value Info "name").toByteArray true

/-- The files in the dictionary. -/
def newFiles (Info : List (String × QVariant)) : List SFileInfo :=
  (value Info "files").toList.map (readFile win32)

/-- The files are read, or the length, if there is either. -/
def readFiles (Info : List (String × QVariant)) (s : CTorrentInfo) : Option (CTorrentInfo × UInt64) :=
  if contains Info "files" then
    let m_Files := s.m_Files ++ newFiles win32 Info
    some ({ s with
      m_Files := m_Files
      m_TorrentName := if m_Files.length = 1 then (m_Files.head?.map SFileInfo.FileName).getD [] else s.m_TorrentName },
      ((newFiles win32 Info).map fun FileInfo => FileInfo.Length.toUInt64).sum)
  else if contains Info "length" then some (s, (value Info "length").toULongLong)
  else none

/-- The hashes are read, and whether the torrent is private. -/
def readHashes (Info : List (String × QVariant)) (s : CTorrentInfo) : CTorrentInfo :=
  { s with
    m_PieceHashes := if contains Info "pieces" then cutHashes (value Info "pieces").toByteArray else s.m_PieceHashes
    m_RootHash := if contains Info "root hash" then (value Info "root hash").toByteArray else s.m_RootHash
    m_Private := if contains Info "private" then (value Info "private").toInt ≠ 0 else s.m_Private }

/-- What is set in the end. -/
def finish (Metadata : List UInt8) (TotalLength PieceLength : UInt64) (s : CTorrentInfo) : CTorrentInfo :=
  { s with m_Metadata := Metadata, m_TotalLength := TotalLength, m_PieceLength := PieceLength }

/-- `CTorrentInfo::LoadMetadata`, which gives nothing where it divides by zero. -/
def loadMetadata (decode : List UInt8 → Option (List (String × QVariant))) (Metadata : List UInt8)
    (s : CTorrentInfo) : Option (Bool × CTorrentInfo) :=
  match decode Metadata with
  | none => some (false, s)
  | some Info =>
    let s := { s with m_TorrentName := torrentName win32 Info }
    match readFiles win32 Info s with
    | none => some (false, s)
    | some (s, TotalLength) =>
      let PieceLength := (value Info "piece length").toULongLong
      let s := readHashes Info s
      if s.m_RootHash = [] then
        if PieceLength = 0 then none
        else if (divUp TotalLength PieceLength).toNat ≠ s.m_PieceHashes.length then some (false, s)
        else some (true, finish Metadata TotalLength PieceLength s)
      else some (true, finish Metadata TotalLength PieceLength s)

variable (convert : Conversions)

/-- A file for the dictionary. -/
def fileMap (File : SFileInfo) : QVariant :=
  ofMap [("length", ofNumber convert File.Length.toUInt64),
    ("path", ofList ((File.FilePath ++ [File.FileName]).map fun name => ofByteArray convert (toUtf8 name)))]

/-- The dictionary that `MakeMetadata` makes. -/
def metadataInfo (FileList : List SFileInfo) (PieceLength : UInt64) (PieceHashes : List (List UInt8))
    (RootHash : List UInt8) (s : CTorrentInfo) : List (String × QVariant) :=
  (if FileList ≠ [] then [("files", ofList (FileList.map (fileMap convert)))]
    else [("length", ofNumber convert s.m_TotalLength)]) ++
  [("name", ofByteArray convert (toUtf8 s.m_TorrentName)), ("piece length", ofNumber convert PieceLength)] ++
  (if PieceHashes ≠ [] then [("pieces", ofByteArray convert PieceHashes.flatten)]
    else if RootHash ≠ [] then [("root hash", ofByteArray convert RootHash)]
    else []) ++
  if s.m_Private then [("private", ofNumber convert 1)] else []

/-- `CTorrentInfo::MakeMetadata`. -/
def makeMetadata (encode : List (String × QVariant) → List UInt8) (sha1 : List UInt8 → List UInt8)
    (FileList : List SFileInfo) (PieceLength : UInt64) (PieceHashes : List (List UInt8)) (RootHash : List UInt8)
    (s : CTorrentInfo) : CTorrentInfo :=
  let m_Metadata := encode (metadataInfo convert FileList PieceLength PieceHashes RootHash s)
  { s with
    m_Files := FileList
    m_PieceLength := PieceLength
    m_PieceHashes := PieceHashes
    m_RootHash := RootHash
    m_Metadata := m_Metadata
    m_InfoHash := sha1 m_Metadata }

end Metadata

section Loading

variable {win32 : Bool} {decode : List UInt8 → Option (List (String × QVariant))} {s : CTorrentInfo}

/-- The sum of the lengths of some files. -/
def lengths (Files : List SFileInfo) : ℤ := (Files.map fun File => File.Length.toInt).sum

/-- What is expected of a torrent that was read: its files sum to the total length, and if it has no root hash then
the number of its pieces is the total length divided by the piece length, rounded up. -/
def InfoRight (s : CTorrentInfo) : Prop :=
  (s.m_Files ≠ [] → lengths s.m_Files = s.m_TotalLength.toNat) ∧ (s.m_RootHash = [] →
      s.m_PieceHashes.length = (s.m_TotalLength.toNat + s.m_PieceLength.toNat - 1) / s.m_PieceLength.toNat)

/-- What is expected of the reading: it divides by no zero, and if it fails then the torrent stays as it was. -/
def LoadRight (win32 : Bool) (decode : List UInt8 → Option (List (String × QVariant))) (Metadata : List UInt8)
    (s : CTorrentInfo) : Prop :=
  match loadMetadata win32 decode Metadata s with
  | none => False
  | some (false, s') => s' = s
  | some (true, s') => InfoRight s'

variable {Info : List (String × QVariant)}

/-- The piece length in the dictionary. -/
def pieceLength (Info : List (String × QVariant)) : UInt64 := (value Info "piece length").toULongLong

/-- The root hash that there is once the dictionary was read. -/
def rootHash (Info : List (String × QVariant)) (s : CTorrentInfo) : List UInt8 :=
  if contains Info "root hash" then (value Info "root hash").toByteArray else s.m_RootHash

/-- The piece hashes that there are once the dictionary was read. -/
def pieceHashes (Info : List (String × QVariant)) (s : CTorrentInfo) : List (List UInt8) :=
  if contains Info "pieces" then cutHashes (value Info "pieces").toByteArray else s.m_PieceHashes

/-- The total length of the dictionary. -/
def totalLength (win32 : Bool) (Info : List (String × QVariant)) : UInt64 :=
  if contains Info "files" then ((newFiles win32 Info).map fun File => File.Length.toUInt64).sum
  else (value Info "length").toULongLong

/-- The dictionary has files or a length. -/
def HasLength (Info : List (String × QVariant)) : Prop := contains Info "files" = true ∨ contains Info "length" = true

/-- The torrent has a root hash, or as many pieces as its length asks for. -/
def CountFits (win32 : Bool) (Info : List (String × QVariant)) (s : CTorrentInfo) : Prop :=
  rootHash Info s = [] → (divUp (totalLength win32 Info) (pieceLength Info)).toNat = (pieceHashes Info s).length

instance (win32 : Bool) (Info : List (String × QVariant)) (s : CTorrentInfo) : Decidable (CountFits win32 Info s) :=
  inferInstanceAs (Decidable (_ → _))

/-- The dictionary says nothing that the torrent does not have. -/
structure NothingNew (win32 : Bool) (Info : List (String × QVariant)) (s : CTorrentInfo) : Prop where
  /-- There are no files. -/
  files : contains Info "files" = true → (value Info "files").toList = []
  /-- The name stays. -/
  name : (if contains Info "files" = true ∧ s.m_Files.length = 1 then (s.m_Files.head?.map SFileInfo.FileName).getD []
    else torrentName win32 Info) = s.m_TorrentName
  /-- The piece hashes stay. -/
  pieces : pieceHashes Info s = s.m_PieceHashes
  /-- The root hash stays. -/
  root : rootHash Info s = s.m_RootHash
  /-- The torrent is as private as before. -/
  priv : contains Info "private" = true → decide ((value Info "private").toInt ≠ 0) = s.m_Private

/-- The lengths of the files do not overflow, and the files that were there before have none. -/
def FilesFit (win32 : Bool) (Info : List (String × QVariant)) (s : CTorrentInfo) : Prop :=
  if contains Info "files" then
    s.m_Files ++ newFiles win32 Info ≠ [] →
      (2 ^ 64 : ℤ) ∣ lengths s.m_Files ∧ 0 ≤ lengths (s.m_Files ++ newFiles win32 Info) ∧
        lengths (s.m_Files ++ newFiles win32 Info) < 2 ^ 64
  else s.m_Files ≠ [] → lengths s.m_Files = (value Info "length").toULongLong.toNat

/-- The condition under which a dictionary is read as expected. -/
def LoadOk (win32 : Bool) (Info : List (String × QVariant)) (s : CTorrentInfo) : Prop :=
  (¬ HasLength Info → torrentName win32 Info = s.m_TorrentName) ∧ (HasLength Info →
      (rootHash Info s = [] → pieceLength Info ≠ 0) ∧ (¬ CountFits win32 Info s → NothingNew win32 Info s) ∧
          (CountFits win32 Info s → FilesFit win32 Info s ∧
            (rootHash Info s = [] → (totalLength win32 Info).toNat + (pieceLength Info).toNat ≤ 2 ^ 64)))

theorem toNat_toUInt64 (n : Int64) : (n.toUInt64.toNat : ℤ) = n.toInt % 2 ^ 64 := by
  have hcond : n.toInt = if 2 * n.toUInt64.toNat < 2 ^ 64 then (n.toUInt64.toNat : ℤ)
      else n.toUInt64.toNat - 2 ^ 64 := BitVec.toInt_eq_toNat_cond _
  have hlt := n.toUInt64.toNat_lt
  split_ifs at hcond
  · rw [hcond, Int.emod_eq_of_lt (by simp) (by exact_mod_cast hlt)]
  · rw [hcond, Int.sub_emod_right, Int.emod_eq_of_lt (by simp) (by exact_mod_cast hlt)]

theorem toNat_sum (Files : List SFileInfo) :
    (((Files.map fun File : SFileInfo => File.Length.toUInt64).sum).toNat : ℤ) = lengths Files % 2 ^ 64 := by
  induction Files with
  | nil => simp [lengths]
  | cons File Files ih =>
    rw [List.map_cons, List.sum_cons, UInt64.toNat_add, Int.natCast_emod, Nat.cast_add, ih, toNat_toUInt64]
    simp [lengths]

theorem lengths_append (Files Files' : List SFileInfo) :
    lengths (Files ++ Files') = lengths Files + lengths Files' := by
  simp [lengths]

/-- A quotient that wraps is smaller. -/
theorem wrapped_div_eq_iff {T P n : ℕ} (hP : 0 < P) (hT : T < n) (hlt : P < n) :
    (T + P + (n - 1)) % n / P = (T + P - 1) / P ↔ T + P ≤ n := by
  constructor
  · intro h
    by_contra hover
    have hmod : (T + P + (n - 1)) % n = T + P - 1 - n := by
      have hsum : T + P + (n - 1) = T + P - 1 - n + n * 2 := by omega
      rw [hsum, Nat.add_mul_mod_self_left, Nat.mod_eq_of_lt (by omega)]
    rw [hmod] at h
    have hle : (T + P - 1 - n) / P ≤ (T - 1) / P := Nat.div_le_div_right (by omega)
    have hsum : T + P - 1 = T - 1 + P := by omega
    rw [hsum, Nat.add_div_right _ hP] at h
    rw [hsum] at hle
    omega
  · intro h
    have hsum : T + P + (n - 1) = T + P - 1 + n := by omega
    rw [hsum, Nat.add_mod_right, Nat.mod_eq_of_lt (by omega)]

theorem divUp_eq_iff {T P : UInt64} (hP : P ≠ 0) :
    (divUp T P).toNat = (T.toNat + P.toNat - 1) / P.toNat ↔ T.toNat + P.toNat ≤ 2 ^ 64 := by
  have hpos : 0 < P.toNat := by
    rw [Nat.pos_iff_ne_zero]
    exact fun h => hP (UInt64.toNat_inj.mp h)
  have hdiv : (divUp T P).toNat = ((T.toNat + P.toNat + (2 ^ 64 - 1)) % 2 ^ 64) / P.toNat := by
    rw [divUp, UInt64.toNat_div, UInt64.toNat_sub, UInt64.toNat_add, Nat.add_mod_mod, add_comm]
    rfl
  rw [hdiv]
  exact wrapped_div_eq_iff hpos T.toNat_lt P.toNat_lt

/-- The torrent with the name and the files of the dictionary. -/
def readNames (win32 : Bool) (Info : List (String × QVariant)) (s : CTorrentInfo) : CTorrentInfo :=
  { s with
    m_TorrentName :=
      if contains Info "files" = true ∧ (s.m_Files ++ newFiles win32 Info).length = 1 then
        ((s.m_Files ++ newFiles win32 Info).head?.map SFileInfo.FileName).getD []
      else torrentName win32 Info
    m_Files := if contains Info "files" then s.m_Files ++ newFiles win32 Info else s.m_Files }

theorem readFiles_of (h : HasLength Info) : readFiles win32 Info { s with m_TorrentName := torrentName win32 Info } =
      some (readNames win32 Info s, totalLength win32 Info) := by
  by_cases hfiles : contains Info "files" = true
  · simp [readFiles, readNames, totalLength, hfiles]
  · have hlength : contains Info "length" = true := h.resolve_left hfiles
    simp [readFiles, readNames, totalLength, hfiles, hlength]

variable {Metadata : List UInt8}

theorem loadMetadata_of_not (hdecode : decode Metadata = some Info) (h : ¬ HasLength Info) :
    loadMetadata win32 decode Metadata s = some (false, { s with m_TorrentName := torrentName win32 Info }) := by
  simp only [HasLength, not_or] at h
  simp [loadMetadata, readFiles, hdecode, h.1, h.2]

/-- A dictionary with a length is read, and the pieces are counted. -/
theorem loadMetadata_of (hdecode : decode Metadata = some Info) (h : HasLength Info) :
    loadMetadata win32 decode Metadata s = if rootHash Info s = [] ∧ pieceLength Info = 0 then none
      else if CountFits win32 Info s then
        some (true, finish Metadata (totalLength win32 Info) (pieceLength Info)
          (readHashes Info (readNames win32 Info s)))
      else some (false, readHashes Info (readNames win32 Info s)) := by
  have hroot : (readHashes Info (readNames win32 Info s)).m_RootHash = rootHash Info s := rfl
  have hpieces : (readHashes Info (readNames win32 Info s)).m_PieceHashes = pieceHashes Info s := rfl
  have hpiece : (value Info "piece length").toULongLong = pieceLength Info := rfl
  simp only [loadMetadata, hdecode, readFiles_of h, hroot, hpieces, hpiece, CountFits]
  by_cases hempty : rootHash Info s = []
  · by_cases hzero : pieceLength Info = 0
    · simp [hempty, hzero]
    · by_cases hcount : (divUp (totalLength win32 Info) (pieceLength Info)).toNat = (pieceHashes Info s).length
      · simp [hempty, hzero, hcount]
      · simp [hempty, hzero, hcount]
  · simp [hempty]

/-- What is read leaves the torrent as it was if and only if it says nothing new. -/
theorem readHashes_eq_iff : readHashes Info (readNames win32 Info s) = s ↔ NothingNew win32 Info s := by
  have hfiles : (readHashes Info (readNames win32 Info s)).m_Files = s.m_Files ↔
      (contains Info "files" = true → (value Info "files").toList = []) := by
    by_cases hcontains : contains Info "files" = true
    · simp [readHashes, readNames, newFiles, hcontains]
    · simp [readHashes, readNames, hcontains]
  have hpriv : (readHashes Info (readNames win32 Info s)).m_Private = s.m_Private ↔
      (contains Info "private" = true → decide ((value Info "private").toInt ≠ 0) = s.m_Private) := by
    by_cases hcontains : contains Info "private" = true
    · simp [readHashes, readNames, hcontains]
    · simp [readHashes, readNames, hcontains]
  have hname : (contains Info "files" = true → (value Info "files").toList = []) →
      ((readHashes Info (readNames win32 Info s)).m_TorrentName =
        if contains Info "files" = true ∧ s.m_Files.length = 1 then (s.m_Files.head?.map SFileInfo.FileName).getD []
        else torrentName win32 Info) := by
    intro hempty
    by_cases hcontains : contains Info "files" = true
    · simp [readHashes, readNames, newFiles, hcontains, hempty hcontains]
    · simp [readHashes, readNames, hcontains]
  constructor
  · intro h
    have hnone := hfiles.mp (congrArg CTorrentInfo.m_Files h)
    exact ⟨hnone, (hname hnone).symm.trans (congrArg CTorrentInfo.m_TorrentName h),
      congrArg CTorrentInfo.m_PieceHashes h, congrArg CTorrentInfo.m_RootHash h,
      hpriv.mp (congrArg CTorrentInfo.m_Private h)⟩
  · intro h
    ext1
    · rfl
    · rfl
    · exact (hname h.files).trans h.name
    · exact hfiles.mpr h.files
    · exact h.pieces
    · exact h.root
    · rfl
    · exact hpriv.mpr h.priv
    · rfl

/-- The files that are read sum to the total length if and only if their lengths fit. -/
theorem lengths_readNames_iff : ((readNames win32 Info s).m_Files ≠ [] →
      lengths (readNames win32 Info s).m_Files = (totalLength win32 Info).toNat) ↔ FilesFit win32 Info s := by
  by_cases hcontains : contains Info "files" = true
  · simp only [readNames, totalLength, FilesFit, hcontains, if_true, toNat_sum, lengths_append]
    refine imp_congr_right fun _ => ?_
    constructor
    · intro h
      omega
    · rintro ⟨hdvd, hpos, hlt⟩
      omega
  · simp only [readNames, totalLength, FilesFit, hcontains, if_false, Bool.false_eq_true]

theorem infoRight_iff (hzero : rootHash Info s = [] → pieceLength Info ≠ 0) (hcount : CountFits win32 Info s) :
    InfoRight (finish Metadata (totalLength win32 Info) (pieceLength Info) (readHashes Info (readNames win32 Info s))) ↔
      FilesFit win32 Info s ∧
        (rootHash Info s = [] → (totalLength win32 Info).toNat + (pieceLength Info).toNat ≤ 2 ^ 64) := by
  refine and_congr lengths_readNames_iff (imp_congr_right fun hroot => ?_)
  rw [← divUp_eq_iff (hzero hroot), hcount hroot]
  rfl

/-- Reading goes right if and only if the dictionary meets the condition. -/
theorem loadRight_iff : LoadRight win32 decode Metadata s ↔ ∀ Info ∈ decode Metadata, LoadOk win32 Info s := by
  cases hdecode : decode Metadata with
  | none => simp [LoadRight, loadMetadata, hdecode]
  | some Info =>
    simp only [Option.mem_some_iff, forall_eq']
    by_cases h : HasLength Info
    · simp only [LoadRight, loadMetadata_of hdecode h, LoadOk, h]
      by_cases hzero : rootHash Info s = [] ∧ pieceLength Info = 0
      · simp [hzero]
      · have hdiv : rootHash Info s = [] → ¬ pieceLength Info = 0 := fun hroot hpiece => hzero ⟨hroot, hpiece⟩
        have htrue : (rootHash Info s = [] → ¬ pieceLength Info = 0) ↔ True := iff_of_true hdiv trivial
        by_cases hcount : CountFits win32 Info s
        · simpa [hzero, hcount, htrue] using @infoRight_iff win32 s Info Metadata hdiv hcount
        · simpa [hzero, hcount, htrue] using @readHashes_eq_iff win32 s Info
    · simp only [LoadRight, loadMetadata_of_not hdecode h, LoadOk, h]
      simp [CTorrentInfo.ext_iff]

end Loading

section Making

variable {win32 : Bool} {decode : List UInt8 → Option (List (String × QVariant))}
  {encode : List (String × QVariant) → List UInt8} {sha1 : List UInt8 → List UInt8} {convert : Conversions}
  {FileList : List SFileInfo} {PieceLength : UInt64} {PieceHashes : List (List UInt8)} {RootHash : List UInt8}
  {s : CTorrentInfo}

/-- Hashes of twenty bytes each, of which the last one may be shorter, but not empty. -/
def IsCut : List (List UInt8) → Prop
  | [] => True
  | [h] => 0 < h.length ∧ h.length ≤ 20
  | h :: h' :: hs => h.length = 20 ∧ IsCut (h' :: hs)

/-- The first hash is cut off. -/
theorem cutHashes_append {h : List UInt8} (hh : h.length = 20) (rest : List UInt8) :
    cutHashes (h ++ rest) = h :: cutHashes rest := by
  have hcount : ((h ++ rest).length + 19) / 20 = (rest.length + 19) / 20 + 1 := by
    rw [List.length_append, hh]
    omega
  have hdrop : ∀ k, (h ++ rest).drop ((k + 1) * 20) = rest.drop (k * 20) := by
    intro k
    rw [List.drop_append, List.drop_eq_nil_of_le (by omega), List.nil_append, hh]
    congr 1
    omega
  rw [cutHashes, hcount, List.range_succ_eq_map, List.map_cons, List.map_map]
  congr 1
  · rw [Nat.zero_mul, List.drop_zero, List.take_append_of_le_length (by omega), List.take_of_length_le (by omega)]
  · refine List.map_congr_left fun k _ => ?_
    rw [Function.comp_apply, hdrop]

theorem cutHashes_single_iff (h : List UInt8) : cutHashes h = [h] ↔ 0 < h.length ∧ h.length ≤ 20 := by
  constructor
  · intro hcut
    have hlength := congrArg List.length hcut
    simp only [cutHashes, List.length_map, List.length_range, List.length_singleton] at hlength
    omega
  · intro hlength
    have hcount : (h.length + 19) / 20 = 1 := by omega
    rw [cutHashes, hcount, List.range_one, List.map_singleton, Nat.zero_mul, List.drop_zero,
      List.take_of_length_le hlength.2]

/-- Exactly such hashes are cut as they were. -/
theorem cutHashes_flatten_iff (hashes : List (List UInt8)) : cutHashes hashes.flatten = hashes ↔ IsCut hashes := by
  induction hashes using IsCut.induct with
  | case1 => simp [IsCut, cutHashes]
  | case2 h => simpa [IsCut] using cutHashes_single_iff h
  | case3 h h' hs ih =>
    rw [IsCut, ← ih, List.flatten_cons]
    constructor
    · intro hcut
      have hlength := congrArg List.length hcut
      have hfirst := congrArg List.head? hcut
      simp only [cutHashes, List.length_map, List.length_range, List.length_cons] at hlength
      have htwo : ((h ++ (h' :: hs).flatten).length + 19) / 20 = hs.length + 1 + 1 := hlength
      rw [cutHashes, htwo, List.range_succ_eq_map, List.map_cons, List.head?_cons, List.head?_cons, Option.some.injEq,
        Nat.zero_mul, List.drop_zero] at hfirst
      have htwenty : h.length = 20 := by
        rw [← hfirst, List.length_take]
        omega
      rw [cutHashes_append htwenty, List.cons.injEq] at hcut
      exact ⟨htwenty, hcut.2⟩
    · rintro ⟨htwenty, hcut⟩
      rw [cutHashes_append htwenty, hcut]

/-- What is expected of the dictionary that is made: what is read from it has the same files, lengths and hashes. -/
def ReadBack (win32 : Bool) (decode : List UInt8 → Option (List (String × QVariant))) (made : CTorrentInfo) : Prop :=
  ∃ s, loadMetadata win32 decode made.m_Metadata CTorrentInfo.new = some (true, s) ∧ s.m_Files = made.m_Files ∧
    s.m_TotalLength = made.m_TotalLength ∧ s.m_PieceLength = made.m_PieceLength ∧ s.m_PieceHashes = made.m_PieceHashes

/-- The condition under which what is made is read back. -/
structure MakeOk (win32 : Bool) (FileList : List SFileInfo) (PieceLength : UInt64) (PieceHashes : List (List UInt8))
    (RootHash : List UInt8) (s : CTorrentInfo) : Prop where
  /-- All names are ones that torrents may have. -/
  names : ∀ File ∈ FileList, ∀ name ∈ File.FileName :: File.FilePath, IsName win32 name
  /-- The files sum to the total length. -/
  total : FileList ≠ [] → (FileList.map fun File => File.Length.toUInt64).sum = s.m_TotalLength
  /-- The hashes have twenty bytes. -/
  hashes : IsCut PieceHashes
  /-- There is a root hash without pieces, or there are as many pieces as are asked for. -/
  count : PieceHashes = [] ∧ RootHash ≠ [] ∨
    PieceLength ≠ 0 ∧ (divUp s.m_TotalLength PieceLength).toNat = PieceHashes.length

theorem readFile_fileMap (File : SFileInfo) : readFile win32 (fileMap convert File) =
    ⟨File.Length, File.FilePath.map fun name => fromUtf8 win32 (toUtf8 name) true,
      fromUtf8 win32 (toUtf8 File.FileName) true⟩ := by
  have hpath : filePath (fileMap convert File).toMap =
      (File.FilePath ++ [File.FileName]).map fun name => ofByteArray convert (toUtf8 name) := rfl
  rw [readFile, hpath, List.map_append, List.map_singleton, List.dropLast_concat, List.getLast?_concat, List.map_map]
  rfl

theorem map_eq_self_iff {α : Type} (f : α → α) (l : List α) : l.map f = l ↔ ∀ a ∈ l, f a = a := by
  simpa using @List.map_inj_left _ _ l f id

/-- The files are read back if and only if all names are ones that torrents may have. -/
theorem map_readFile_iff : (FileList.map (fileMap convert)).map (readFile win32) = FileList ↔
    ∀ File ∈ FileList, ∀ name ∈ File.FileName :: File.FilePath, IsName win32 name := by
  have hfile : ∀ File : SFileInfo, readFile win32 (fileMap convert File) = File ↔
      ∀ name ∈ File.FileName :: File.FilePath, IsName win32 name := by
    intro File
    rw [readFile_fileMap, SFileInfo.ext_iff, List.forall_mem_cons, ← fromUtf8_toUtf8_iff]
    have hpath : (File.FilePath.map fun name => fromUtf8 win32 (toUtf8 name) true) = File.FilePath ↔
        ∀ name ∈ File.FilePath, IsName win32 name := by
      simp only [← fromUtf8_toUtf8_iff]
      exact map_eq_self_iff _ _
    rw [← hpath]
    simp [and_comm]
  simp only [← hfile, List.map_map]
  exact map_eq_self_iff _ _

theorem contains_metadataInfo (key : String) :
    contains (metadataInfo convert FileList PieceLength PieceHashes RootHash s) key =
      (decide (key = "files" ∧ FileList ≠ [] ∨ key = "length" ∧ FileList = [] ∨ key = "name" ∨ key = "piece length" ∨
        key = "pieces" ∧ PieceHashes ≠ [] ∨ key = "root hash" ∧ PieceHashes = [] ∧ RootHash ≠ [] ∨
          key = "private" ∧ s.m_Private = true)) := by
  by_cases hfiles : FileList = [] <;> by_cases hpieces : PieceHashes = [] <;> by_cases hroot : RootHash = [] <;>
    cases hpriv : s.m_Private <;>
    simp [contains, metadataInfo, hfiles, hpieces, hroot, hpriv, eq_comm]

theorem hasLength_metadataInfo : HasLength (metadataInfo convert FileList PieceLength PieceHashes RootHash s) := by
  simp only [HasLength, contains_metadataInfo]
  by_cases hfiles : FileList = []
  · exact Or.inr (by simp [hfiles])
  · exact Or.inl (by simp [hfiles])

theorem pieceLength_metadataInfo :
    pieceLength (metadataInfo convert FileList PieceLength PieceHashes RootHash s) = PieceLength := by
  by_cases hfiles : FileList = [] <;> simp [pieceLength, value, metadataInfo, hfiles, ofNumber, QVariant.toULongLong]

theorem rootHash_metadataInfo : rootHash (metadataInfo convert FileList PieceLength PieceHashes RootHash s)
    CTorrentInfo.new = if PieceHashes = [] then RootHash else [] := by
  rw [rootHash, contains_metadataInfo]
  by_cases hfiles : FileList = [] <;> by_cases hpieces : PieceHashes = [] <;> by_cases hroot : RootHash = [] <;>
    simp [value, metadataInfo, hfiles, hpieces, hroot, ofByteArray, QVariant.toByteArray, CTorrentInfo.new]

theorem pieceHashes_metadataInfo : pieceHashes (metadataInfo convert FileList PieceLength PieceHashes RootHash s)
    CTorrentInfo.new = cutHashes PieceHashes.flatten := by
  rw [pieceHashes, contains_metadataInfo]
  by_cases hfiles : FileList = [] <;> by_cases hpieces : PieceHashes = [] <;>
    simp [value, metadataInfo, hfiles, hpieces, ofByteArray, QVariant.toByteArray, CTorrentInfo.new, cutHashes]

theorem newFiles_metadataInfo (h : FileList ≠ []) :
    newFiles win32 (metadataInfo convert FileList PieceLength PieceHashes RootHash s) =
      (FileList.map (fileMap convert)).map (readFile win32) := by
  simp [newFiles, value, metadataInfo, h, ofList, QVariant.toList]

theorem totalLength_metadataInfo :
    totalLength win32 (metadataInfo convert FileList PieceLength PieceHashes RootHash s) =
      if FileList = [] then s.m_TotalLength else (FileList.map fun File => File.Length.toUInt64).sum := by
  rw [totalLength, contains_metadataInfo]
  by_cases hfiles : FileList = []
  · simp [hfiles, value, metadataInfo, ofNumber, QVariant.toULongLong]
  · have hlengths : (((FileList.map (fileMap convert)).map (readFile win32)).map fun File => File.Length.toUInt64) =
        FileList.map fun File => File.Length.toUInt64 := by
      simp [readFile_fileMap]
    rw [if_pos (by simp [hfiles]), if_neg hfiles, newFiles_metadataInfo hfiles, hlengths]

theorem files_metadataInfo_iff :
    (readNames win32 (metadataInfo convert FileList PieceLength PieceHashes RootHash s) CTorrentInfo.new).m_Files =
      FileList ↔ ∀ File ∈ FileList, ∀ name ∈ File.FileName :: File.FilePath, IsName win32 name := by
  rw [← @map_readFile_iff win32 convert FileList, readNames]
  by_cases hfiles : FileList = []
  · simp [contains_metadataInfo, hfiles, CTorrentInfo.new]
  · simp [contains_metadataInfo, hfiles, newFiles_metadataInfo, CTorrentInfo.new]

/-- A dictionary with a length is read back if it is accepted and everything is the same. -/
theorem readBack_iff_fields {made : CTorrentInfo} {Info : List (String × QVariant)}
    (hdecode : decode made.m_Metadata = some Info) (h : HasLength Info) : ReadBack win32 decode made ↔
      (¬ (rootHash Info CTorrentInfo.new = [] ∧ pieceLength Info = 0) ∧ CountFits win32 Info CTorrentInfo.new) ∧
        (readNames win32 Info CTorrentInfo.new).m_Files = made.m_Files ∧
          totalLength win32 Info = made.m_TotalLength ∧ pieceLength Info = made.m_PieceLength ∧
            pieceHashes Info CTorrentInfo.new = made.m_PieceHashes := by
  have hload := @loadMetadata_of win32 decode CTorrentInfo.new Info _ hdecode h
  rw [ReadBack, hload]
  split_ifs with hzero hcount
  · simp [hzero]
  · simp only [Option.some.injEq, Prod.mk.injEq, true_and, hzero, hcount, not_false_eq_true, exists_eq_left']
    rfl
  · simp [hcount]

/-- What is made is read back if and only if the condition is met. -/
theorem readBack_iff (hdecode : decode (encode (metadataInfo convert FileList PieceLength PieceHashes RootHash s)) =
      some (metadataInfo convert FileList PieceLength PieceHashes RootHash s)) :
    ReadBack win32 decode (makeMetadata convert encode sha1 FileList PieceLength PieceHashes RootHash s) ↔
      MakeOk win32 FileList PieceLength PieceHashes RootHash s := by
  have hfields := @readBack_iff_fields win32 decode
    (makeMetadata convert encode sha1 FileList PieceLength PieceHashes RootHash s) _ hdecode hasLength_metadataInfo
  simp only [makeMetadata, files_metadataInfo_iff, totalLength_metadataInfo, pieceLength_metadataInfo,
    pieceHashes_metadataInfo, rootHash_metadataInfo, CountFits, cutHashes_flatten_iff] at hfields
  simp only [makeMetadata]
  rw [hfields]
  have htotal : ((if FileList = [] then s.m_TotalLength else (FileList.map fun File => File.Length.toUInt64).sum) =
      s.m_TotalLength) ↔ (FileList ≠ [] → (FileList.map fun File => File.Length.toUInt64).sum = s.m_TotalLength) := by
    by_cases hfiles : FileList = []
    · simp [hfiles]
    · simp [hfiles]
  constructor
  · rintro ⟨⟨hzero, hcount⟩, hnames, hsum, -, hhashes⟩
    refine ⟨hnames, htotal.mp hsum, hhashes, ?_⟩
    rw [hsum, (cutHashes_flatten_iff _).mpr hhashes] at hcount
    by_cases hempty : PieceHashes = [] ∧ RootHash ≠ []
    · exact Or.inl hempty
    · have hroot : (if PieceHashes = [] then RootHash else []) = [] := by
        by_cases hpieces : PieceHashes = []
        · simpa [hpieces] using hempty
        · simp [hpieces]
      exact Or.inr ⟨fun hlength => hzero ⟨hroot, hlength⟩, hcount hroot⟩
  · rintro ⟨hnames, hsum, hhashes, hcount⟩
    rw [htotal.mpr hsum, (cutHashes_flatten_iff _).mpr hhashes]
    refine ⟨?_, hnames, rfl, trivial, hhashes⟩
    rcases hcount with ⟨hpieces, hroot⟩ | ⟨hlength, hcount⟩
    · simp [hpieces, hroot]
    · exact ⟨fun hboth => hlength hboth.2, fun _ => hcount⟩

/-- Conversions for small numbers. -/
def smallConversions : Conversions := ⟨fun _ => 0, fun _ => 0, fun n => [UInt8.ofNat (48 + n.toNat % 10)]⟩

/-- The torrent `a` of one byte with a root hash. -/
def smallTorrent : CTorrentInfo := { CTorrentInfo.new with m_TotalLength := 1, m_TorrentName := [97] }

/-- Its dictionary. -/
def smallInfo : List (String × QVariant) := metadataInfo smallConversions [] 1 [] [120] smallTorrent

/-- Its dictionary as bytes. -/
def smallText : List UInt8 := "d6:lengthi1e4:name1:a12:piece lengthi1e9:root hash1:xe".toUTF8.data.toList

/-- A dictionary with a length alone. -/
def lengthOnly : List (String × QVariant) :=
  [("length", ofNumber smallConversions 1), ("name", ofByteArray smallConversions [97])]

/-- A dictionary with a file and a piece length, but without pieces. -/
def noPieces : List (String × QVariant) :=
  [("files", ofList [fileMap smallConversions ⟨1, [], [98]⟩]), ("name", ofByteArray smallConversions [97]),
    ("piece length", ofNumber smallConversions 1)]

/-- The same dictionary with a piece. -/
def onePiece : List (String × QVariant) :=
  noPieces ++ [("pieces", ofByteArray smallConversions (List.replicate 20 120))]

/-- What the bytes of the three dictionaries are read as. -/
def decodeThree (bytes : List UInt8) : Option (List (String × QVariant)) :=
  if bytes = "d6:lengthi1e4:name1:ae".toUTF8.data.toList then some lengthOnly
  else if bytes = "d5:filesld6:lengthi1e4:pathl1:beee4:name1:a12:piece lengthi1ee".toUTF8.data.toList then
    some noPieces
  else if bytes = ("d5:filesld6:lengthi1e4:pathl1:beee4:name1:a12:piece lengthi1e6:pieces" ++
      "20:xxxxxxxxxxxxxxxxxxxxe").toUTF8.data.toList then
    some onePiece
  else none

/-- What the rejected dictionary leaves behind. -/
def leftBehind : CTorrentInfo := { CTorrentInfo.new with m_TorrentName := [98], m_Files := [⟨1, [], [98]⟩] }

end Making

end NeoLoader.TorrentInfo
