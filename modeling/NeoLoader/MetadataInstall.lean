import Mathlib.Data.List.Lex
import NeoLoader.ByteReader
import NeoLoader.KeyMapTotals
import NeoLoader.Tiling

/-!
# Installing the metadata of a multi-file

A multi-file is put together from sub-files. For each of them the list of files is searched, a new file is made if none
is found, and the file and its sub-file are linked to each other. What cannot be followed, since there is no file, ends
in `none`.
-/

namespace NeoLoader.MetadataInstall

open KeyMap Tiling

section Data

inductive EFileHashType where
  | HashNone
  | HashNeo
  | HashXNeo
  | HashTorrent
  | HashEd2k
  | HashArchive
  | HashMule
  | HashEdPr
  | HashTigerTree
  | HashMD5
  | HashSHA1
  | HashSHA2
  | HashSingle
  | HashMulti
  | HashUnknown
  deriving DecidableEq

inductive EStatus where
  | eNone
  | eDuplicate
  | eComplete
  | eIncomplete
  | ePending
  | eRemoved
  deriving DecidableEq

inductive EState where
  | eStarted
  | ePaused
  | eStopped
  | eUnknown
  deriving DecidableEq

open EFileHashType EStatus EState

structure CFileHash where
  m_eType : EFileHashType
  m_Hash : List UInt8
  deriving DecidableEq

structure SPartMapLink where
  /-- The file at the other end. -/
  ID : ℕ
  /-- Where the sub-file begins. -/
  uShareBegin : ℕ
  /-- Where the sub-file ends. -/
  uShareEnd : ℕ
  deriving DecidableEq

/-- `CPartMap`, without the states of the parts. -/
inductive CPartMap where
  /-- `CSynced<CPartMap>`. -/
  | synced
  /-- `CSharedPartMap`. -/
  | shared (m_Links : OrderedMap ℕ SPartMapLink)
  /-- `CJoinedPartMap`. -/
  | joined (m_Links m_Joints : OrderedMap ℕ SPartMapLink)

structure SSubFile where
  FileName : String
  FileSize : ℕ
  FileDirectory : String
  FileHashes : List CFileHash

structure CFile where
  m_FileName : String
  m_FileDir : String
  m_FileSize : ℕ
  /-- The property `Temp`. -/
  Temp : Bool
  m_Status : EStatus
  m_State : EState
  /-- An error, or that the file is halted. -/
  Stuck : Bool
  m_HashMap : EFileHashType → Option (List UInt8)
  m_Torrents : OrderedMap (List UInt8) Unit
  m_pMasterHash : Option CFileHash
  /-- `m_IndexSource` of `m_Inspector`. -/
  m_Inspector : Option EFileHashType
  m_Parts : Option CPartMap

end Data

section Links

def ULLONG_MAX : ℕ := 2 ^ 64 - 1

/-- `SetupLink`. A shared map is searched by the file, and a joined one also by where the sub-file begins, from the end
on. -/
def CPartMap.setupLink (uShareBegin uShareEnd ID : ℕ) : CPartMap → CPartMap
  | synced => synced
  | shared m_Links => shared (m_Links.insert ID ⟨ID, uShareBegin, uShareEnd⟩)
  | joined m_Links m_Joints =>
    joined (if ID ≠ 0 then m_Links.insert ID ⟨ID, uShareBegin, uShareEnd⟩ else m_Links)
      (m_Joints.insert (ULLONG_MAX - uShareBegin) ⟨ID, uShareBegin, uShareEnd⟩)

/-- `GetJoints`, read from the end as all that go through them do. -/
def getJoints (m_Joints : OrderedMap ℕ SPartMapLink) : List SPartMapLink := (m_Joints.entries.map Prod.snd).reverse

/-- The links of `BadMetaData`, of which only those of the joined map are broken: a link is cleared before the map at
its other end is looked up. -/
def CPartMap.breakLinks : CPartMap → CPartMap
  | joined m_Links m_Joints =>
    joined OrderedMap.empty
      (m_Joints.mapValues fun pLink => if (m_Links.get pLink.ID).isSome then { pLink with ID := 0 } else pLink)
  | parts => parts

end Links

section Files

open EFileHashType EStatus EState

namespace CFile

/-- The constructor. -/
def new : CFile :=
  ⟨"", "", 0, false, eNone, eStopped, false, fun _ => none, OrderedMap.empty, none, none, none⟩

def isMultiFile (f : CFile) : Bool :=
  match f.m_Parts with
  | some (CPartMap.joined _ _) => true
  | some _ => false
  | none => (f.m_HashMap HashXNeo).isSome

def getParentFiles (f : CFile) : List ℕ :=
  match f.m_Parts with
  | some (CPartMap.shared m_Links) => m_Links.entries.map fun e => e.2.ID
  | _ => []

def isStarted (f : CFile) : Bool := !f.Stuck && f.m_Status ≠ eRemoved && f.m_State ≠ eStopped

def compareHash (f : CFile) (pFileHash : CFileHash) : Bool :=
  if pFileHash.m_eType = HashTorrent then (f.m_Torrents.get pFileHash.m_Hash).isSome
  else f.m_HashMap pFileHash.m_eType = some pFileHash.m_Hash

def getHashPtr (f : CFile) (eType : EFileHashType) : Option CFileHash := (f.m_HashMap eType).map (CFileHash.mk eType)

def addHash (f : CFile) (pFileHash : CFileHash) : CFile :=
  if pFileHash.m_eType = HashTorrent then { f with m_Torrents := f.m_Torrents.insert pFileHash.m_Hash () }
  else { f with m_HashMap := Function.update f.m_HashMap pFileHash.m_eType (some pFileHash.m_Hash) }

def delHash (f : CFile) (pFileHash : CFileHash) : CFile :=
  if pFileHash.m_eType = HashTorrent then { f with m_Torrents := f.m_Torrents.erase pFileHash.m_Hash }
  else { f with m_HashMap := Function.update f.m_HashMap pFileHash.m_eType none }

/-- `GetTopTorrent`, of a file without peers. -/
def getTopTorrent (f : CFile) : Option CFileHash := f.m_Torrents.entries.head?.map fun e => ⟨HashTorrent, e.1⟩

/-- The master hash that `AddEmpty` takes, and `SelectMasterHash` for a file that has a size. -/
def masterHash (f : CFile) : EFileHashType → Option CFileHash
  | HashArchive => none
  | HashTorrent => f.getTopTorrent
  | HashUnknown =>
    (((f.getHashPtr HashNeo).or (f.getHashPtr HashXNeo)).or (f.getHashPtr HashEd2k)).or f.getTopTorrent
  | MasterHash => f.getHashPtr MasterHash

/-- `AddEmpty`, where a master hash that is not known has no bytes. -/
def addEmpty (f : CFile) (MasterHash : EFileHashType) (FileName : String) (uFileSize : ℕ) (bPending : Bool) : CFile :=
  let m_pMasterHash := (f.masterHash MasterHash).getD ⟨MasterHash, []⟩
  { f with
    m_FileName := FileName
    m_FileSize := uFileSize
    m_pMasterHash := some m_pMasterHash
    m_Parts :=
      if m_pMasterHash.m_eType ≠ HashTorrent ∧ f.m_HashMap HashXNeo = none ∧ uFileSize ≠ 0 then some CPartMap.synced
      else f.m_Parts
    m_Status := if bPending then ePending else eIncomplete
    m_Inspector := some HashNone }

/-- `SharePartMap`, and `none` if there is no such map. -/
def sharePartMap (f : CFile) : Option CFile :=
  match f.m_Parts with
  | some (CPartMap.joined _ _) => none
  | some (CPartMap.shared _) => if f.m_FileSize = 0 then none else some f
  | _ => if f.m_FileSize = 0 then none else some { f with m_Parts := some (CPartMap.shared OrderedMap.empty) }

/-- `UnRemove`, and the directory that is set before. -/
def unRemove (f : CFile) (Dir : String) (pFileHash : Option CFileHash) : CFile :=
  { f with
    m_FileDir := Dir
    m_pMasterHash := pFileHash
    m_Status := if pFileHash.isSome then eComplete else eIncomplete }

/-- `AddAuxHashes`, apart from the hashes. -/
def addAuxHashes (f : CFile) : CFile :=
  if f.m_pMasterHash.isSome ∧ f.m_Parts.isNone ∧ f.m_HashMap HashXNeo = none ∧ f.m_FileSize ≠ 0 then
    { f with m_Parts := some CPartMap.synced }
  else f

/-- A link to a file that this one is part of. -/
def setupLink (f : CFile) (uShareBegin uShareEnd ID : ℕ) : CFile :=
  { f with m_Parts := f.m_Parts.map (CPartMap.setupLink uShareBegin uShareEnd ID) }

/-- The file is paused or started as the file that it is part of. -/
def follow (f pFile : CFile) : CFile :=
  if pFile.m_State = ePaused then { f with m_State := ePaused }
  else if pFile.isStarted then { f with m_State := eStarted }
  else f

end CFile

/-- `CFileList`: the files by their identifiers, all of which are in use. -/
structure CFileList where
  m_FileMap : OrderedMap ℕ CFile
  m_FileIDs : List ℕ
  /-- The identifiers of the files are in use. -/
  used : ∀ ID, m_FileMap.HasKey ID → ID ∈ m_FileIDs

/-- The loop of `AllocID`, which draws numbers until one is not 0 and not in use. -/
structure Allocator where
  /-- The number at which the loop ends. -/
  allocID : List ℕ → ℕ
  /-- It is not in use. -/
  fresh : ∀ m_FileIDs, allocID m_FileIDs ∉ m_FileIDs
  /-- It is not 0. -/
  ne_zero : ∀ m_FileIDs, allocID m_FileIDs ≠ 0

namespace CFileList

def getFileByID (pList : CFileList) (FileID : ℕ) : Option CFile := pList.m_FileMap.get FileID

/-- A file is changed. -/
def change (pList : CFileList) (FileID : ℕ) (f : CFile → CFile) : CFileList :=
  ⟨pList.m_FileMap.modify FileID f, pList.m_FileIDs, fun ID h => pList.used ID (by
    rw [OrderedMap.hasKey_iff_get, ← Option.isSome_iff_exists] at h ⊢
    rwa [← OrderedMap.isSome_get_modify])⟩

/-- A new file takes its identifier and is listed. -/
def addFile (alloc : Allocator) (pList : CFileList) (f : CFile) : CFileList :=
  ⟨pList.m_FileMap.insert (alloc.allocID pList.m_FileIDs) f, alloc.allocID pList.m_FileIDs :: pList.m_FileIDs,
    fun ID h => by
      rcases OrderedMap.hasKey_insert.mp h with rfl | h
      · exact List.mem_cons_self
      · exact List.mem_cons_of_mem _ (pList.used ID h)⟩

/-- A file that `GetFilesByHash` finds: real duplicates stand at the top. -/
def foundFile (Hashes : List CFileHash) (uFileSize : ℕ) (bNoDuplicates : Bool) (Files : List (ℕ × CFile))
    (pCurFile : ℕ × CFile) : List (ℕ × CFile) :=
  if pCurFile.2.m_FileSize ≠ 0 ∧ uFileSize ≠ 0 ∧ pCurFile.2.m_FileSize ≠ uFileSize then Files
  else if bNoDuplicates ∧ pCurFile.2.m_Status = eDuplicate then Files
  else if Hashes.any pCurFile.2.compareHash then
    if pCurFile.2.m_Status = eDuplicate then Files ++ [pCurFile] else pCurFile :: Files
  else Files

def getFilesByHash (pList : CFileList) (Hashes : List CFileHash) (uFileSize : ℕ) (bNoDuplicates : Bool) :
    List (ℕ × CFile) :=
  pList.m_FileMap.entries.foldl (foundFile Hashes uFileSize bNoDuplicates) []

end CFileList

end Files

section Install

open EFileHashType EStatus

variable (alloc : Allocator) (pFileID : ℕ) (pFile : CFile)

/-- The loop of `CompareSubFiles`. -/
def compareJoints : ℕ → List SPartMapLink → List SSubFile → Bool
  | Offset, pLink :: Links, File :: SubFiles =>
    pLink.uShareBegin = Offset && pLink.uShareEnd = (Offset + File.FileSize) % 2 ^ 64 &&
      compareJoints ((Offset + File.FileSize) % 2 ^ 64) Links SubFiles
  | _, _, _ => true

def compareSubFiles (m_Joints : OrderedMap ℕ SPartMapLink) (SubFiles : List SSubFile) : Bool :=
  SubFiles.length = m_Joints.size && compareJoints 0 (getJoints m_Joints) SubFiles

/-- `BadMetaData`: the file afterwards, and whether its metadata is dropped. -/
def badMetaData (pFileHash : CFileHash) : CFile × Bool :=
  if pFile.m_pMasterHash = some pFileHash then
    let BadSource := pFile.m_Inspector.getD HashNone
    let f :=
      match (if BadSource ≠ HashNone ∧ BadSource ≠ HashXNeo then pFile.getHashPtr BadSource else none) with
      | some pBadHash => pFile.delHash pBadHash
      | none => pFile
    ({ f with m_Parts := f.m_Parts.map CPartMap.breakLinks }, true)
  else (pFile.delHash pFileHash, false)

/-- The variables of the loop over the sub-files. -/
structure Install where
  /-- The list of files. -/
  pList : CFileList
  /-- The new part map. -/
  pParts : CPartMap
  Offset : ℕ

/-- `Dir`. -/
def subDir (File : SSubFile) : String :=
  pFile.m_FileDir ++ pFile.m_FileName ++ "/" ++ if File.FileDirectory = "" then "" else File.FileDirectory ++ "/"

/-- The search among the files that were found. Whether `pSubFile` is a multi-file is asked before it is set. -/
def findSubFile (Dir : String) (pList : CFileList) (pSubFile : Option (ℕ × CFile)) :
    List (ℕ × CFile) → Option (CFileList × Option (ℕ × CFile))
  | [] => some (pList, pSubFile)
  | pFoundFile :: Files =>
    if pFileID ∈ pFoundFile.2.getParentFiles then findSubFile Dir pList pSubFile Files
    else
      match pSubFile with
      | none => none
      | some pSub =>
        if pSub.2.isMultiFile then findSubFile Dir pList pSubFile Files
        else if pFoundFile.2.m_Status = eRemoved then
          some (pList.change pFoundFile.1 fun f => f.unRemove Dir pFile.m_pMasterHash, some pFoundFile)
        else some (pList, some pFoundFile)

/-- A new sub-file. -/
def newSubFile (pMasterHash : CFileHash) (File : SSubFile) : CFile :=
  (File.FileHashes.foldl CFile.addHash
    { CFile.new with
      Temp := pFile.Temp
      m_FileDir := subDir pFile File }).addEmpty pMasterHash.m_eType File.FileName File.FileSize
        (pFile.m_Status = ePending)

/-- The sub-file that was found, or a new one. -/
def takeSubFile (File : SSubFile) (pList : CFileList) : Option (ℕ × CFile) → Option (CFileList × ℕ)
  | none => pFile.m_pMasterHash.map fun pMasterHash =>
    (pList.addFile alloc (newSubFile pFile pMasterHash File), alloc.allocID pList.m_FileIDs)
  | some pSubFile => some (pList.change pSubFile.1 CFile.addAuxHashes, pSubFile.1)

/-- The sub-file is linked. -/
def linkSubFile (s : Install) (File : SSubFile) (pList : CFileList) (pSubFile : ℕ) : Option Install :=
  ((pList.getFileByID pSubFile).bind CFile.sharePartMap).map fun f =>
    { pList := pList.change pSubFile fun _ =>
        (f.setupLink s.Offset ((s.Offset + File.FileSize) % 2 ^ 64) pFileID).follow pFile
      pParts := s.pParts.setupLink s.Offset ((s.Offset + File.FileSize) % 2 ^ 64) pSubFile
      Offset := (s.Offset + File.FileSize) % 2 ^ 64 }

/-- The body of the loop. The value `true` that is meant for `bNoDuplicates` is given for the size. -/
def installSubFile (s : Install) (File : SSubFile) : Option Install :=
  (findSubFile pFileID pFile (subDir pFile File) s.pList none (s.pList.getFilesByHash File.FileHashes 1 false)).bind
    fun found => (takeSubFile alloc pFile File found.1 found.2).bind fun taken =>
      linkSubFile pFileID pFile s File taken.1 taken.2

/-- The loop over the sub-files. -/
def installSubFiles : Install → List SSubFile → Option Install
  | s, [] => some s
  | s, File :: SubFiles =>
    (installSubFile alloc pFileID pFile s File).bind fun s' => installSubFiles s' SubFiles

/-- A new part map is set up: the list and the file in it. -/
def beginInstall (pList : CFileList) (uFileSize : ℕ) (f : CFile) : CFileList × CFile :=
  (pList.change pFileID fun _ => { f with m_Inspector := some HashXNeo, m_FileSize := uFileSize },
    { f with m_Inspector := some HashXNeo, m_FileSize := uFileSize })

/-- The part map of the file does not fit. -/
def replaceMetaData (pList : CFileList) (uFileSize : ℕ) (pHash : CFileHash) : CFileList ⊕ CFileList × CFile :=
  if (badMetaData pFile pHash).2 then Sum.inr (beginInstall pFileID pList uFileSize (badMetaData pFile pHash).1)
  else Sum.inl (pList.change pFileID fun _ => (badMetaData pFile pHash).1)

/-- The sub-files of a part map that fits. -/
def keepMetaData (pList : CFileList) (m_Joints : OrderedMap ℕ SPartMapLink) : CFileList :=
  (getJoints m_Joints).foldl (fun l pLink => l.change pLink.ID CFile.addAuxHashes)
    (pList.change pFileID fun _ => { pFile with m_Inspector := some HashXNeo })

/-- What `InstallMetaData` does before it sets up a new part map: it ends with a list, or goes on with a list and the
file in it. -/
def prepare (pList : CFileList) (uFileSize : ℕ) (SubFiles : List SSubFile) : CFileList ⊕ CFileList × CFile :=
  match pFile.m_Inspector, pFile.getHashPtr HashXNeo with
  | some m_IndexSource, some pHash =>
    if m_IndexSource = HashXNeo then Sum.inl pList
    else
      match pFile.m_Parts with
      | none => Sum.inr (beginInstall pFileID pList uFileSize pFile)
      | some (CPartMap.joined _ m_Joints) =>
        if compareSubFiles m_Joints SubFiles then Sum.inl (keepMetaData pFileID pFile pList m_Joints)
        else replaceMetaData pFileID pFile pList uFileSize pHash
      | some _ => replaceMetaData pFileID pFile pList uFileSize pHash
  | _, _ => Sum.inl pList

def installMetaData (pList : CFileList) (uFileSize : ℕ) (SubFiles : List SSubFile) : Option CFileList :=
  match prepare pFileID pFile pList uFileSize SubFiles with
  | Sum.inl pList => some pList
  | Sum.inr (pList, pFile) =>
    (installSubFiles alloc pFileID pFile ⟨pList, CPartMap.joined OrderedMap.empty OrderedMap.empty, 0⟩ SubFiles).map
      fun s => s.pList.change pFileID fun f => { f with m_Parts := some s.pParts }

end Install

section Statement

/-- Where a joint lies. -/
def SPartMapLink.span (pLink : SPartMapLink) : Span SPartMapLink := ⟨pLink.uShareBegin, pLink.uShareEnd, pLink⟩

/-- A joint is right for a sub-file: it has its size, and links to a single file with one of its hashes, whose own map
has exactly one link back. -/
def JointRight (pFileID : ℕ) (pList : CFileList) (pLink : SPartMapLink) (File : SSubFile) : Prop :=
  pLink.uShareEnd = pLink.uShareBegin + File.FileSize ∧
    ∃ f, pList.getFileByID pLink.ID = some f ∧ f.isMultiFile = false ∧ File.FileHashes.any f.compareHash = true ∧
      ∃ m_Links, f.m_Parts = some (CPartMap.shared m_Links) ∧
        (m_Links.entries.map Prod.snd).filter (fun back => back.ID = pFileID) =
          [⟨pFileID, pLink.uShareBegin, pLink.uShareEnd⟩]

/-- What is expected of the new part map: the joints tile the file, each is right for its sub-file, and no file is
linked at two of them. -/
def MapRight (pFileID uFileSize : ℕ) (SubFiles : List SSubFile) (pList : CFileList) : Prop :=
  ∃ f m_Links m_Joints, pList.getFileByID pFileID = some f ∧ f.m_Parts = some (CPartMap.joined m_Links m_Joints) ∧
    Tiles 0 uFileSize ((getJoints m_Joints).map SPartMapLink.span) ∧
      List.Forall₂ (JointRight pFileID pList) (getJoints m_Joints) SubFiles ∧
        ((getJoints m_Joints).map SPartMapLink.ID).Nodup

/-- The condition on a sub-file: it has a hash, the file has a master hash, and the files that are found are part of the
file already. -/
def SubFileOk (pFileID : ℕ) (pList : CFileList) (pFile : CFile) (File : SSubFile) : Prop :=
  File.FileHashes ≠ [] ∧ pFile.m_pMasterHash ≠ none ∧
    ∀ pFoundFile ∈ pList.getFilesByHash File.FileHashes 1 false, pFileID ∈ pFoundFile.2.getParentFiles

end Statement

section Files

variable {pList : CFileList}

theorem getFileByID_change_of_ne {FileID ID : ℕ} (f : CFile → CFile) (h : ID ≠ FileID) :
    (pList.change FileID f).getFileByID ID = pList.getFileByID ID :=
  OrderedMap.get_modify_of_ne _ f h

theorem getFileByID_change_self (FileID : ℕ) (f : CFile → CFile) :
    (pList.change FileID f).getFileByID FileID = (pList.getFileByID FileID).map f :=
  OrderedMap.get_modify_self _ FileID f

theorem getFileByID_addFile_self (alloc : Allocator) (f : CFile) :
    (pList.addFile alloc f).getFileByID (alloc.allocID pList.m_FileIDs) = some f :=
  OrderedMap.get_insert_self _ _ _

theorem getFileByID_addFile_of_ne (alloc : Allocator) (f : CFile) {ID : ℕ} (h : ID ≠ alloc.allocID pList.m_FileIDs) :
    (pList.addFile alloc f).getFileByID ID = pList.getFileByID ID :=
  OrderedMap.get_insert_of_ne _ _ h

theorem mem_fileIDs {ID : ℕ} {f : CFile} (h : pList.getFileByID ID = some f) : ID ∈ pList.m_FileIDs :=
  pList.used ID (OrderedMap.hasKey_iff_get.mpr ⟨f, h⟩)

/-- The files that are found: those of the right size with one of the hashes. -/
theorem mem_getFilesByHash {Hashes : List CFileHash} {uFileSize : ℕ} {e : ℕ × CFile} :
    e ∈ pList.getFilesByHash Hashes uFileSize false ↔ pList.getFileByID e.1 = some e.2 ∧
        ¬ (e.2.m_FileSize ≠ 0 ∧ uFileSize ≠ 0 ∧ e.2.m_FileSize ≠ uFileSize) ∧ Hashes.any e.2.compareHash = true := by
  have hfold : ∀ (entries Files : List (ℕ × CFile)),
      e ∈ entries.foldl (CFileList.foundFile Hashes uFileSize false) Files ↔ e ∈ Files ∨ e ∈ entries ∧
          ¬ (e.2.m_FileSize ≠ 0 ∧ uFileSize ≠ 0 ∧ e.2.m_FileSize ≠ uFileSize) ∧ Hashes.any e.2.compareHash = true := by
    intro entries
    induction entries with
    | nil => simp
    | cons a entries ih =>
      intro Files
      rw [List.foldl_cons, ih, List.mem_cons]
      have hstep : e ∈ CFileList.foundFile Hashes uFileSize false Files a ↔
          e ∈ Files ∨ e = a ∧ ¬ (e.2.m_FileSize ≠ 0 ∧ uFileSize ≠ 0 ∧ e.2.m_FileSize ≠ uFileSize) ∧
            Hashes.any e.2.compareHash = true := by
        rw [CFileList.foundFile]
        split_ifs with hsize hnone hhash hdup
        · constructor
          · exact Or.inl
          · rintro (h | ⟨rfl, h, -⟩)
            · exact h
            · exact absurd hsize h
        · simp at hnone
        · rw [List.mem_append, List.mem_singleton]
          exact or_congr_right ⟨fun h => ⟨h, h ▸ hsize, h ▸ hhash⟩, And.left⟩
        · rw [List.mem_cons, or_comm]
          exact or_congr_right ⟨fun h => ⟨h, h ▸ hsize, h ▸ hhash⟩, And.left⟩
        · constructor
          · exact Or.inl
          · rintro (h | ⟨rfl, -, h⟩)
            · exact h
            · exact absurd h hhash
      rw [hstep, or_and_right, or_assoc]
  rw [CFileList.getFilesByHash, hfold, CFileList.getFileByID, OrderedMap.get_eq_some]
  simp

theorem compareHash_addHash_self (f : CFile) (h : CFileHash) : (f.addHash h).compareHash h = true := by
  rw [CFile.addHash, CFile.compareHash]
  split_ifs <;> simp

theorem any_foldl_addHash (f : CFile) {Hashes : List CFileHash} (h : Hashes ≠ []) :
    Hashes.any (Hashes.foldl CFile.addHash f).compareHash = true := by
  have hlast := List.dropLast_append_getLast h
  rw [← hlast, List.foldl_append, List.any_append]
  simp [compareHash_addHash_self]

theorem foldl_addHash_parts (f : CFile) (Hashes : List CFileHash) :
    (Hashes.foldl CFile.addHash f).m_Parts = f.m_Parts := by
  induction Hashes generalizing f with
  | nil => rfl
  | cons h Hashes ih =>
    rw [List.foldl_cons, ih, CFile.addHash]
    split_ifs <;> rfl

end Files

section Steps

variable {alloc : Allocator} {pFileID : ℕ} {pFile : CFile} {s : Install} {File : SSubFile}

theorem findSubFile_eq (Dir : String) (pList : CFileList) (Files : List (ℕ × CFile)) :
    findSubFile pFileID pFile Dir pList none Files =
      if ∀ e ∈ Files, pFileID ∈ e.2.getParentFiles then some (pList, none) else none := by
  induction Files with
  | nil => simp [findSubFile]
  | cons e Files ih =>
    rw [findSubFile, ih]
    by_cases hpart : pFileID ∈ e.2.getParentFiles
    · simp only [List.forall_mem_cons, hpart, true_and, if_true]
    · simp only [List.forall_mem_cons, hpart, false_and, if_false]

/-- The sub-file that is made, with its link back. -/
def madeFile (pFileID : ℕ) (pFile : CFile) (pMasterHash : CFileHash) (s : Install) (File : SSubFile) : CFile :=
  ({ newSubFile pFile pMasterHash File with m_Parts := some (CPartMap.shared OrderedMap.empty) }.setupLink s.Offset
    ((s.Offset + File.FileSize) % 2 ^ 64) pFileID).follow pFile

/-- The variables of the loop after a sub-file was made. -/
def madeInstall (alloc : Allocator) (pFileID : ℕ) (pFile : CFile) (pMasterHash : CFileHash) (s : Install)
    (File : SSubFile) : Install where
  pList := (s.pList.addFile alloc (newSubFile pFile pMasterHash File)).change (alloc.allocID s.pList.m_FileIDs)
    fun _ => madeFile pFileID pFile pMasterHash s File
  pParts := s.pParts.setupLink s.Offset ((s.Offset + File.FileSize) % 2 ^ 64) (alloc.allocID s.pList.m_FileIDs)
  Offset := (s.Offset + File.FileSize) % 2 ^ 64

variable (pMasterHash : CFileHash)

/-- A new sub-file gets a shared map. -/
theorem sharePartMap_newSubFile (hsize : File.FileSize ≠ 0) : (newSubFile pFile pMasterHash File).sharePartMap =
      some { newSubFile pFile pMasterHash File with m_Parts := some (CPartMap.shared OrderedMap.empty) } := by
  have hsame : (newSubFile pFile pMasterHash File).m_FileSize = File.FileSize := rfl
  have hparts : (newSubFile pFile pMasterHash File).m_Parts = some CPartMap.synced ∨
      (newSubFile pFile pMasterHash File).m_Parts = none := by
    rw [newSubFile, CFile.addEmpty]
    dsimp only
    split_ifs
    · exact Or.inl rfl
    · exact Or.inr (foldl_addHash_parts _ _)
  rcases hparts with hparts | hparts
  · simp only [CFile.sharePartMap, hparts, hsame, hsize, if_false]
  · simp only [CFile.sharePartMap, hparts, hsame, hsize, if_false]

/-- The body of the loop goes through exactly if there is a master hash and all files that are found are part of the
file, and makes the sub-file then. -/
theorem installSubFile_eq_some (hsize : File.FileSize ≠ 0) {s' : Install} :
    installSubFile alloc pFileID pFile s File = some s' ↔
      (∀ e ∈ s.pList.getFilesByHash File.FileHashes 1 false, pFileID ∈ e.2.getParentFiles) ∧
        ∃ pMasterHash, pFile.m_pMasterHash = some pMasterHash ∧
          madeInstall alloc pFileID pFile pMasterHash s File = s' := by
  have htaken : ∀ pMasterHash, linkSubFile pFileID pFile s File
      (s.pList.addFile alloc (newSubFile pFile pMasterHash File)) (alloc.allocID s.pList.m_FileIDs) =
        some (madeInstall alloc pFileID pFile pMasterHash s File) := by
    intro pMasterHash
    rw [linkSubFile, getFileByID_addFile_self, Option.bind_some, sharePartMap_newSubFile _ hsize]
    rfl
  rw [installSubFile, findSubFile_eq]
  by_cases hparts : ∀ e ∈ s.pList.getFilesByHash File.FileHashes 1 false, pFileID ∈ e.2.getParentFiles
  · rw [if_pos hparts, Option.bind_some, takeSubFile]
    cases pFile.m_pMasterHash with
    | none => simp
    | some pMasterHash =>
      simp only [Option.map_some, Option.bind_some, htaken, Option.some.injEq, exists_eq_left', and_iff_right hparts]
  · rw [if_neg hparts]
    simp only [Option.bind_none, reduceCtorEq, hparts, false_and]

theorem follow_frame (f : CFile) :
    (f.follow pFile).m_Parts = f.m_Parts ∧ (f.follow pFile).compareHash = f.compareHash := by
  rw [CFile.follow]
  split_ifs <;> exact ⟨rfl, rfl⟩

theorem madeFile_parts :
    ∃ m_Links, (madeFile pFileID pFile pMasterHash s File).m_Parts = some (CPartMap.shared m_Links) ∧
      m_Links.entries = [(pFileID, ⟨pFileID, s.Offset, (s.Offset + File.FileSize) % 2 ^ 64⟩)] := by
  rw [madeFile, (follow_frame _).1]
  exact ⟨_, rfl, rfl⟩

theorem any_compareHash_madeFile (h : File.FileHashes ≠ []) :
    File.FileHashes.any (madeFile pFileID pFile pMasterHash s File).compareHash = true := by
  rw [madeFile, (follow_frame _).2]
  exact any_foldl_addHash { CFile.new with Temp := pFile.Temp, m_FileDir := subDir pFile File } h

end Steps

section Runs

variable {alloc : Allocator} {pFileID : ℕ} {pFile : CFile} {pList₀ : CFileList} {s : Install}

/-- A joint was made for a sub-file. -/
def Made (pFileID : ℕ) (pList : CFileList) (pLink : SPartMapLink) (File : SSubFile) : Prop :=
  pLink.uShareEnd = pLink.uShareBegin + File.FileSize ∧
    ∃ f m_Links, pList.getFileByID pLink.ID = some f ∧ f.m_Parts = some (CPartMap.shared m_Links) ∧
      m_Links.entries = [(pFileID, ⟨pFileID, pLink.uShareBegin, pLink.uShareEnd⟩)] ∧
        (File.FileHashes ≠ [] → File.FileHashes.any f.compareHash = true)

/-- What holds in the loop, after some sub-files. -/
structure Installing (pFileID : ℕ) (pList₀ : CFileList) (s : Install) (SubFiles : List SSubFile)
    (m_Joints : OrderedMap ℕ SPartMapLink) : Prop where
  /-- The new part map. -/
  parts : ∃ m_Links, s.pParts = CPartMap.joined m_Links m_Joints
  /-- Each joint stands where it begins. -/
  keys : ∀ e ∈ m_Joints.entries, e.1 = ULLONG_MAX - e.2.uShareBegin
  /-- The joints tile what was added up. -/
  tiles : Tiles 0 s.Offset ((getJoints m_Joints).map SPartMapLink.span)
  /-- The joints were made. -/
  made : List.Forall₂ (Made pFileID s.pList) (getJoints m_Joints) SubFiles
  /-- No file is linked twice. -/
  nodup : ((getJoints m_Joints).map SPartMapLink.ID).Nodup
  /-- The sub-files are new. -/
  fresh : ∀ pLink ∈ getJoints m_Joints, pLink.ID ∉ pList₀.m_FileIDs ∧ pLink.ID ∈ s.pList.m_FileIDs
  /-- The other files are as they were. -/
  old : ∀ ID ∈ pList₀.m_FileIDs, ID ∈ s.pList.m_FileIDs ∧ s.pList.getFileByID ID = pList₀.getFileByID ID
  /-- A new file is part of the file. -/
  part : ∀ ID f, ID ∉ pList₀.m_FileIDs → s.pList.getFileByID ID = some f → pFileID ∈ f.getParentFiles

variable {m_Joints : OrderedMap ℕ SPartMapLink}

/-- A joint that begins behind all others stands at the end. -/
theorem entries_insert_joint {Offset : ℕ} (hmax : Offset ≤ ULLONG_MAX)
    (hkeys : ∀ e ∈ m_Joints.entries, e.1 = ULLONG_MAX - e.2.uShareBegin ∧ e.2.uShareBegin < Offset)
    (pLink : SPartMapLink) :
    (m_Joints.insert (ULLONG_MAX - Offset) pLink).entries = (ULLONG_MAX - Offset, pLink) :: m_Joints.entries := by
  have hinsert : (m_Joints.insert (ULLONG_MAX - Offset) pLink).entries =
      insertEntry (ULLONG_MAX - Offset) pLink m_Joints.entries := rfl
  rw [hinsert]
  cases hentries : m_Joints.entries with
  | nil => rfl
  | cons e entries =>
    obtain ⟨hkey, hbegin⟩ := hkeys e (by simp [hentries])
    have hlt : ULLONG_MAX - Offset < e.1 := by omega
    simp [insertEntry, hlt]

/-- The joint of a sub-file that is made. -/
def madeJoint (alloc : Allocator) (s : Install) (File : SSubFile) : SPartMapLink :=
  ⟨alloc.allocID s.pList.m_FileIDs, s.Offset, s.Offset + File.FileSize⟩

variable (pMasterHash : CFileHash)

theorem getFileByID_madeInstall_of_mem (File : SSubFile) {ID : ℕ} (hID : ID ∈ s.pList.m_FileIDs) :
    (madeInstall alloc pFileID pFile pMasterHash s File).pList.getFileByID ID = s.pList.getFileByID ID := by
  have hne : ID ≠ alloc.allocID s.pList.m_FileIDs := fun hsame => alloc.fresh s.pList.m_FileIDs (hsame ▸ hID)
  rw [madeInstall, getFileByID_change_of_ne _ hne, getFileByID_addFile_of_ne _ _ hne]

theorem getFileByID_madeInstall_self (File : SSubFile) :
    (madeInstall alloc pFileID pFile pMasterHash s File).pList.getFileByID (alloc.allocID s.pList.m_FileIDs) =
      some (madeFile pFileID pFile pMasterHash s File) := by
  rw [madeInstall, getFileByID_change_self, getFileByID_addFile_self]
  rfl

theorem Made.keep {pLink : SPartMapLink} {File : SSubFile} (h : Made pFileID s.pList pLink File)
    (pMasterHash : CFileHash) (next : SSubFile) :
    Made pFileID (madeInstall alloc pFileID pFile pMasterHash s next).pList pLink File := by
  obtain ⟨hsize, f, m_Links, hfile, hright⟩ := h
  refine ⟨hsize, f, m_Links, ?_, hright⟩
  rw [getFileByID_madeInstall_of_mem _ _ (mem_fileIDs hfile)]
  exact hfile

theorem made_madeJoint {File : SSubFile} (hmax : s.Offset + File.FileSize < 2 ^ 64) :
    Made pFileID (madeInstall alloc pFileID pFile pMasterHash s File).pList (madeJoint alloc s File) File := by
  obtain ⟨m_Links, hparts, hentries⟩ :=
    @madeFile_parts pFileID pFile s File pMasterHash
  rw [Nat.mod_eq_of_lt hmax] at hentries
  exact ⟨rfl, _, m_Links, getFileByID_madeInstall_self _ _, hparts, hentries, any_compareHash_madeFile pMasterHash⟩

section

variable {SubFiles : List SSubFile} (h : Installing pFileID pList₀ s SubFiles m_Joints)

include h

/-- A sub-file that is made keeps what holds in the loop. -/
theorem Installing.step (pMasterHash : CFileHash) {File : SSubFile}
    (hsize : File.FileSize ≠ 0) (hmax : s.Offset + File.FileSize < 2 ^ 64) :
    ∃ m_Joints', Installing pFileID pList₀ (madeInstall alloc pFileID pFile pMasterHash s File)
      (SubFiles ++ [File]) m_Joints' := by
  have hnew : alloc.allocID s.pList.m_FileIDs ∉ s.pList.m_FileIDs := alloc.fresh _
  have hoffset : (s.Offset + File.FileSize) % 2 ^ 64 = s.Offset + File.FileSize := Nat.mod_eq_of_lt hmax
  have hplace : ∀ e ∈ m_Joints.entries, e.1 = ULLONG_MAX - e.2.uShareBegin ∧ e.2.uShareBegin < s.Offset := by
    intro e he
    have hspan : e.2.span ∈ (getJoints m_Joints).map SPartMapLink.span :=
      List.mem_map_of_mem (List.mem_reverse.mpr (List.mem_map_of_mem he))
    obtain ⟨-, hlt, hle⟩ := h.tiles.bounds hspan
    exact ⟨h.keys e he, lt_of_lt_of_le hlt hle⟩
  have hentries := @entries_insert_joint m_Joints s.Offset (by rw [ULLONG_MAX]; omega) hplace (madeJoint alloc s File)
  have hjoints : getJoints (m_Joints.insert (ULLONG_MAX - s.Offset) (madeJoint alloc s File)) =
      getJoints m_Joints ++ [madeJoint alloc s File] := by
    simp [getJoints, hentries]
  refine ⟨m_Joints.insert (ULLONG_MAX - s.Offset) (madeJoint alloc s File), ?_, ?_, ?_, ?_, ?_, ?_, ?_, ?_⟩
  · obtain ⟨m_Links, hparts⟩ := h.parts
    rw [madeInstall, hparts, hoffset]
    exact ⟨_, rfl⟩
  · rw [hentries]
    exact List.forall_mem_cons.mpr ⟨rfl, h.keys⟩
  · rw [hjoints, List.map_append, tiles_append]
    refine ⟨s.Offset, h.tiles, rfl, ?_, ?_⟩
    · simp only [madeJoint, SPartMapLink.span]
      omega
    · simp only [madeInstall, hoffset]
      rfl
  · rw [hjoints]
    refine List.rel_append ?_ (List.Forall₂.cons (made_madeJoint _ hmax) List.Forall₂.nil)
    exact h.made.imp fun _ _ hmade => hmade.keep pMasterHash File
  · rw [hjoints, List.map_append, List.nodup_append]
    refine ⟨h.nodup, List.nodup_singleton _, fun ID hID ID' hID' => ?_⟩
    obtain ⟨pLink, hlink, rfl⟩ := List.mem_map.mp hID
    obtain rfl := List.mem_singleton.mp hID'
    intro hsame
    have hold : alloc.allocID s.pList.m_FileIDs = pLink.ID := hsame.symm
    rw [hold] at hnew
    exact hnew (h.fresh pLink hlink).2
  · rw [hjoints]
    intro pLink hlink
    rcases List.mem_append.mp hlink with hlink | hlink
    · exact ⟨(h.fresh pLink hlink).1, List.mem_cons_of_mem _ (h.fresh pLink hlink).2⟩
    · obtain rfl := List.mem_singleton.mp hlink
      exact ⟨fun hold => hnew (h.old _ hold).1, List.mem_cons_self⟩
  · intro ID hID
    obtain ⟨hmem, hsame⟩ := h.old ID hID
    exact ⟨List.mem_cons_of_mem _ hmem, (getFileByID_madeInstall_of_mem _ _ hmem).trans hsame⟩
  · intro ID f hID hfile
    by_cases hmem : ID ∈ s.pList.m_FileIDs
    · rw [getFileByID_madeInstall_of_mem _ _ hmem] at hfile
      exact h.part ID f hID hfile
    · have hself : ID = alloc.allocID s.pList.m_FileIDs :=
        (List.mem_cons.mp (mem_fileIDs hfile)).resolve_right hmem
      rw [hself, getFileByID_madeInstall_self] at hfile
      obtain rfl := Option.some.inj hfile
      obtain ⟨m_Links, hparts, hlinks⟩ :=
        @madeFile_parts pFileID pFile s File pMasterHash
      simp [CFile.getParentFiles, hparts, hlinks]

/-- In the loop the files that are found are part of the file if those were that are found before. -/
theorem Installing.found_iff (Hashes : List CFileHash) (uFileSize : ℕ) :
    (∀ e ∈ s.pList.getFilesByHash Hashes uFileSize false, pFileID ∈ e.2.getParentFiles) ↔
      ∀ e ∈ pList₀.getFilesByHash Hashes uFileSize false, pFileID ∈ e.2.getParentFiles := by
  constructor
  · intro hparts e he
    obtain ⟨hfile, hright⟩ := mem_getFilesByHash.mp he
    refine hparts e (mem_getFilesByHash.mpr ⟨?_, hright⟩)
    rw [(h.old _ (mem_fileIDs hfile)).2]
    exact hfile
  · intro hparts e he
    obtain ⟨hfile, hright⟩ := mem_getFilesByHash.mp he
    by_cases hmem : e.1 ∈ pList₀.m_FileIDs
    · refine hparts e (mem_getFilesByHash.mpr ⟨?_, hright⟩)
      rw [← (h.old _ hmem).2]
      exact hfile
    · exact h.part e.1 e.2 hmem hfile

end

/-- If the loop goes through then there is a master hash and all files that are found are part of the file. -/
theorem Installing.run {done SubFiles : List SSubFile} {s' : Install}
    (h : Installing pFileID pList₀ s done m_Joints) (hsizes : ∀ File ∈ SubFiles, File.FileSize ≠ 0)
    (hmax : s.Offset + (SubFiles.map SSubFile.FileSize).sum < 2 ^ 64)
    (hrun : installSubFiles alloc pFileID pFile s SubFiles = some s') : (∀ File ∈ SubFiles, pFile.m_pMasterHash ≠ none ∧
        ∀ e ∈ pList₀.getFilesByHash File.FileHashes 1 false, pFileID ∈ e.2.getParentFiles) ∧
      s'.Offset = s.Offset + (SubFiles.map SSubFile.FileSize).sum ∧
        ∃ m_Joints', Installing pFileID pList₀ s' (done ++ SubFiles) m_Joints' := by
  induction SubFiles generalizing s done m_Joints with
  | nil =>
    obtain rfl := Option.some.inj hrun
    exact ⟨by simp, by simp, m_Joints, by simpa using h⟩
  | cons File SubFiles ih =>
    obtain ⟨hsize, hrest⟩ := List.forall_mem_cons.mp hsizes
    simp only [List.map_cons, List.sum_cons] at hmax ⊢
    rw [installSubFiles, Option.bind_eq_some_iff] at hrun
    obtain ⟨next, hstep, hrun⟩ := hrun
    obtain ⟨hparts, pMasterHash, hmaster, rfl⟩ := (installSubFile_eq_some hsize).mp hstep
    have hoffset : (madeInstall alloc pFileID pFile pMasterHash s File).Offset = s.Offset + File.FileSize :=
      Nat.mod_eq_of_lt (by omega)
    have hfits : s.Offset + File.FileSize < 2 ^ 64 := by omega
    obtain ⟨m_Joints', hnext⟩ := @Installing.step alloc pFileID pFile pList₀ s _ _ h pMasterHash File hsize hfits
    obtain ⟨hright, hend, hinstalled⟩ := ih hnext hrest (by omega) hrun
    refine ⟨List.forall_mem_cons.mpr ⟨⟨by simp [hmaster], (h.found_iff _ _).mp hparts⟩, hright⟩, by omega, ?_⟩
    rwa [List.append_cons]

/-- If there is a master hash and all files that are found are part of the file then the loop goes through. -/
theorem Installing.goes {done SubFiles : List SSubFile}
    (h : Installing pFileID pList₀ s done m_Joints) (hsizes : ∀ File ∈ SubFiles, File.FileSize ≠ 0)
    (hmax : s.Offset + (SubFiles.map SSubFile.FileSize).sum < 2 ^ 64)
    (hright : ∀ File ∈ SubFiles, pFile.m_pMasterHash ≠ none ∧
      ∀ e ∈ pList₀.getFilesByHash File.FileHashes 1 false, pFileID ∈ e.2.getParentFiles) :
    ∃ s', installSubFiles alloc pFileID pFile s SubFiles = some s' := by
  induction SubFiles generalizing s done m_Joints with
  | nil => exact ⟨s, rfl⟩
  | cons File SubFiles ih =>
    obtain ⟨hsize, hrest⟩ := List.forall_mem_cons.mp hsizes
    obtain ⟨⟨hmaster, hparts⟩, hrights⟩ := List.forall_mem_cons.mp hright
    obtain ⟨pMasterHash, hmaster⟩ := Option.ne_none_iff_exists'.mp hmaster
    simp only [List.map_cons, List.sum_cons] at hmax
    have hoffset : (madeInstall alloc pFileID pFile pMasterHash s File).Offset = s.Offset + File.FileSize :=
      Nat.mod_eq_of_lt (by omega)
    have hfits : s.Offset + File.FileSize < 2 ^ 64 := by omega
    obtain ⟨m_Joints', hnext⟩ := @Installing.step alloc pFileID pFile pList₀ s _ _ h pMasterHash File hsize hfits
    obtain ⟨s', hrun⟩ := ih hnext hrest (by omega) hrights
    refine ⟨s', ?_⟩
    rw [installSubFiles, (installSubFile_eq_some hsize).mpr ⟨(h.found_iff _ _).mpr hparts, pMasterHash, hmaster, rfl⟩]
    exact hrun

theorem installing_nil (pFileID : ℕ) (pList : CFileList) :
    Installing pFileID pList ⟨pList, CPartMap.joined OrderedMap.empty OrderedMap.empty, 0⟩ [] OrderedMap.empty where
  parts := ⟨_, rfl⟩
  keys := by simp [OrderedMap.empty]
  tiles := rfl
  made := List.Forall₂.nil
  nodup := List.nodup_nil
  fresh := by simp [getJoints, OrderedMap.empty]
  old ID hID := ⟨hID, rfl⟩
  part ID f hID hfile := absurd (mem_fileIDs hfile) hID

theorem Made.right {pList : CFileList} {pLink : SPartMapLink} {File : SSubFile} (h : Made pFileID pList pLink File)
    (hhash : File.FileHashes ≠ []) : JointRight pFileID pList pLink File := by
  obtain ⟨hsize, f, m_Links, hfile, hparts, hlinks, hany⟩ := h
  refine ⟨hsize, f, hfile, by simp [CFile.isMultiFile, hparts], hany hhash, m_Links, hparts, ?_⟩
  simp [hlinks]

end Runs

section Results

variable {alloc : Allocator} {pFileID uFileSize : ℕ} {pFile : CFile} {pList : CFileList} {SubFiles : List SSubFile}

/-- The file is in the list with which the new part map is set up. -/
theorem getFileByID_of_prepare {begun : CFileList × CFile} (hfile : pList.getFileByID pFileID = some pFile)
    (h : prepare pFileID pFile pList uFileSize SubFiles = Sum.inr begun) :
    begun.1.getFileByID pFileID = some begun.2 := by
  have hbegin : ∀ f : CFile, (beginInstall pFileID pList uFileSize f).1.getFileByID pFileID =
      some (beginInstall pFileID pList uFileSize f).2 := by
    intro f
    rw [beginInstall, getFileByID_change_self, hfile]
    rfl
  have hreplace : ∀ pHash, replaceMetaData pFileID pFile pList uFileSize pHash = Sum.inr begun →
      begun.1.getFileByID pFileID = some begun.2 := by
    intro pHash h
    rw [replaceMetaData] at h
    split_ifs at h
    obtain rfl := Sum.inr.inj h
    exact hbegin _
  rw [prepare] at h
  split at h
  · split_ifs at h
    split at h
    · obtain rfl := Sum.inr.inj h
      exact hbegin _
    · split_ifs at h
      exact hreplace _ h
    · exact hreplace _ h
  · cases h

theorem forall_of_forall₂ {α β : Type*} {R : α → β → Prop} {p : β → Prop} {l : List α} {l' : List β}
    (h : List.Forall₂ R l l') (hp : ∀ a b, R a b → p b) : ∀ b ∈ l', p b := by
  induction h with
  | nil => simp
  | cons hab _ ih => exact List.forall_mem_cons.mpr ⟨hp _ _ hab, ih⟩

/-- The joints that were made are right, once the file has its part map. -/
theorem Installing.right {s : Install} {m_Joints : OrderedMap ℕ SPartMapLink}
    (h : Installing pFileID pList s SubFiles m_Joints) (hfile : pFileID ∈ pList.m_FileIDs)
    (hhashes : ∀ File ∈ SubFiles, File.FileHashes ≠ []) (f : CFile → CFile) :
    List.Forall₂ (JointRight pFileID (s.pList.change pFileID f)) (getJoints m_Joints) SubFiles := by
  have hmade : ∀ pLink File, Made pFileID s.pList pLink File → pLink.ID ≠ pFileID →
      Made pFileID (s.pList.change pFileID f) pLink File := by
    rintro pLink File ⟨hsize, made, m_Links, hget, hright⟩ hne
    exact ⟨hsize, made, m_Links, (getFileByID_change_of_ne f hne).trans hget, hright⟩
  have hfresh : ∀ pLink ∈ getJoints m_Joints, pLink.ID ≠ pFileID := fun pLink hlink hsame =>
    (h.fresh pLink hlink).1 (hsame ▸ hfile)
  have hlinks := (List.forall₂_and_left _ _).mpr ⟨hfresh, h.made⟩
  have hboth := (List.forall₂_and_left _ _).mpr ⟨hhashes, hlinks.flip⟩
  exact (hboth.imp fun File pLink hright => (hmade pLink File hright.2.2 hright.2.1).right hright.1).flip

/-- A part map is set up right exactly if each sub-file has a hash, the file has a master hash, and the files of size 0
or 1 with one of the hashes are part of the file already. -/
theorem installMetaData_right_iff (hfile : pList.getFileByID pFileID = some pFile)
    (hsizes : ∀ File ∈ SubFiles, File.FileSize ≠ 0) (hsum : (SubFiles.map SSubFile.FileSize).sum = uFileSize)
    (hmax : uFileSize < 2 ^ 64) :
    (∃ pList', installMetaData alloc pFileID pFile pList uFileSize SubFiles = some pList' ∧
        ∀ begun, prepare pFileID pFile pList uFileSize SubFiles = Sum.inr begun →
          MapRight pFileID uFileSize SubFiles pList') ↔
      ∀ begun, prepare pFileID pFile pList uFileSize SubFiles = Sum.inr begun →
        ∀ File ∈ SubFiles, SubFileOk pFileID begun.1 begun.2 File := by
  cases hprepare : prepare pFileID pFile pList uFileSize SubFiles with
  | inl ended => simp [installMetaData, hprepare]
  | inr begun =>
    have hmax' : 0 + (SubFiles.map SSubFile.FileSize).sum < 2 ^ 64 := by omega
    have hstart := installing_nil pFileID begun.1
    simp only [installMetaData, hprepare, Sum.inr.injEq, forall_eq']
    constructor
    · rintro ⟨pList', hinstall, -, -, m_Joints, -, -, -, hjoints, -⟩
      obtain ⟨s, hrun, -⟩ := Option.map_eq_some_iff.mp hinstall
      obtain ⟨hright, -⟩ := hstart.run hsizes hmax' hrun
      intro File hmem
      refine ⟨?_, hright File hmem⟩
      refine forall_of_forall₂ (p := fun File => File.FileHashes ≠ []) hjoints (fun pLink File' hjoint => ?_) File hmem
      obtain ⟨-, sub, -, -, hany, -⟩ := hjoint
      intro hnil
      simp [hnil] at hany
    · intro hok
      obtain ⟨s, hrun⟩ := @Installing.goes alloc pFileID begun.2 begun.1 _ _ _ _ hstart hsizes hmax' fun File hmem =>
        (hok File hmem).2
      obtain ⟨-, hoffset, m_Joints, hinstalled⟩ := hstart.run hsizes hmax' hrun
      have hbegun := getFileByID_of_prepare hfile hprepare
      obtain ⟨m_Links, hparts⟩ := hinstalled.parts
      refine ⟨_, Option.map_eq_some_iff.mpr ⟨s, hrun, rfl⟩, { begun.2 with m_Parts := some s.pParts }, m_Links,
        m_Joints, ?_, congrArg some hparts, ?_, ?_, hinstalled.nodup⟩
      · rw [getFileByID_change_self, (hinstalled.old _ (mem_fileIDs hbegun)).2, hbegun]
        rfl
      · have hend : s.Offset = uFileSize := by rw [hoffset, ← hsum, Nat.zero_add]
        rw [← hend]
        exact hinstalled.tiles
      · exact hinstalled.right (mem_fileIDs hbegun) (fun File hmem => (hok File hmem).1) _

/-- The next number is taken. -/
def nextAllocator : Allocator where
  allocID m_FileIDs := m_FileIDs.foldr max 0 + 1
  fresh m_FileIDs hmem := by
    have hle : ∀ l : List ℕ, ∀ ID ∈ l, ID ≤ l.foldr max 0 := by
      intro l
      induction l with
      | nil => simp
      | cons a l ih => exact List.forall_mem_cons.mpr ⟨le_max_left _ _, fun ID h => (ih ID h).trans (le_max_right _ _)⟩
    exact absurd (hle m_FileIDs _ hmem) (by omega)
  ne_zero m_FileIDs := Nat.succ_ne_zero _

/-- A file without metadata. -/
def emptyFile : CFile :=
  { CFile.new.addHash ⟨EFileHashType.HashXNeo, [7]⟩ with
    m_pMasterHash := some ⟨EFileHashType.HashXNeo, [7]⟩
    m_Inspector := some EFileHashType.HashNone }

/-- A file that is known. -/
def knownFile (uFileSize : ℕ) : CFile :=
  { CFile.new.addHash ⟨EFileHashType.HashNeo, [9]⟩ with
    m_FileSize := uFileSize
    m_Parts := some CPartMap.synced }

/-- The list of the file without metadata and a file that is known. -/
def twoFiles (uFileSize : ℕ) : CFileList :=
  ((⟨OrderedMap.empty, [], by simp [OrderedMap.HasKey, OrderedMap.empty]⟩ : CFileList).addFile nextAllocator
    emptyFile).addFile nextAllocator (knownFile uFileSize)

/-- A sub-file with the hash of the file that is known. -/
def knownSubFile (uFileSize : ℕ) : SSubFile := ⟨"a", uFileSize, "", [⟨EFileHashType.HashNeo, [9]⟩]⟩

/-- Two sub-files with the hash of a file that is known, which is not found since it does not have the size 1. -/
theorem installMetaData_right_two :
    ∃ pList', installMetaData nextAllocator 1 emptyFile (twoFiles 5) 10 [knownSubFile 5, knownSubFile 5] = some pList' ∧
      ∀ begun, prepare 1 emptyFile (twoFiles 5) 10 [knownSubFile 5, knownSubFile 5] = Sum.inr begun →
        MapRight 1 10 [knownSubFile 5, knownSubFile 5] pList' := by
  have hfile : (twoFiles 5).getFileByID 1 = some emptyFile := rfl
  have hsizes : ∀ File ∈ [knownSubFile 5, knownSubFile 5], File.FileSize ≠ 0 := by simp [knownSubFile]
  refine (installMetaData_right_iff hfile hsizes rfl (by simp [knownSubFile])).mpr fun begun hbegun File hFile => ?_
  obtain rfl : beginInstall 1 (twoFiles 5) 10 emptyFile = begun := Sum.inr.inj hbegun
  obtain rfl : File = knownSubFile 5 := by simpa using hFile
  have hnone : ((beginInstall 1 (twoFiles 5) 10 emptyFile).1.getFilesByHash (knownSubFile 5).FileHashes 1
      false).isEmpty = true := by
    decide
  refine ⟨by simp [knownSubFile], by simp [beginInstall, emptyFile], ?_⟩
  rw [List.isEmpty_iff.mp hnone]
  simp

/-- A sub-file of size 1 with the hash of a file of this size that is known: the sub-file is asked whether it is a
multi-file before it is there. -/
theorem installMetaData_missing :
    (twoFiles 1).getFileByID 1 = some emptyFile ∧ (∀ File ∈ [knownSubFile 1], File.FileSize ≠ 0) ∧
      ([knownSubFile 1].map SSubFile.FileSize).sum = 1 ∧
        installMetaData nextAllocator 1 emptyFile (twoFiles 1) 1 [knownSubFile 1] = none :=
  ⟨rfl, by simp [knownSubFile], rfl, Option.isNone_iff_eq_none.mp (by decide)⟩

end Results

end NeoLoader.MetadataInstall
