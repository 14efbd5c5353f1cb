import NeoLoader.HashEncodings
import NeoLoader.BitArrays

/-!
# Stored results of hash checks

An inspector stores what is known of each hash of a file, under the type of the hash and its value as a text, and looks
these hashes up again when it is loaded.
-/

namespace NeoLoader.InspectorStore

open HashEncodings HashEncodings.EFileHashType MuleCollection BitArrays

/-- A text. -/
abbrev QString := List Char

/-- The types of a `CFileHashEx`. -/
def hasStatus : EFileHashType → Bool
  | HashNeo | HashXNeo | HashTorrent | HashEd2k | HashMule | HashTigerTree => true
  | _ => false

def hashType2Str : EFileHashType → QString
  | HashNeo => ['n', 'e', 'o']
  | HashXNeo => ['n', 'e', 'o', 'x']
  | HashArchive => ['a', 'r', 'c', 'h']
  | HashMD5 => ['m', 'd', '5']
  | HashEd2k => ['e', 'd', '2', 'k']
  | HashSHA1 => ['s', 'h', 'a', '1']
  | HashSHA2 => ['s', 'h', 'a', '2']
  | HashTorrent => ['b', 't', 'i', 'h']
  | HashMule => ['a', 'i', 'c', 'h']
  | HashTigerTree => ['t', 'i', 'g', 'e', 'r', 't', 'r', 'e', 'e']
  | _ => ['U', 'n', 'k', 'n', 'o', 'w', 'n']

/-- A comparison that does not look at upper and lower case. -/
def sameText (s t : QString) : Bool := s.map Char.toLower = t.map Char.toLower

def str2HashType (type : QString) : EFileHashType :=
  let is (name : String) : Bool := sameText type name.toList
  if is "neo" ∨ is "tree:sha2/256k" then HashNeo
  else if is "neox" ∨ is "x-tree:sha2/256k" then HashXNeo
  else if is "arch" then HashArchive
  else if is "md5" then HashMD5
  else if is "ed2k" ∨ is "ed2khash" then HashEd2k
  else if is "sha1" then HashSHA1
  else if is "sha2" then HashSHA2
  else if is "btih" then HashTorrent
  else if is "aich" then HashMule
  else if is "tigertree" ∨ is "tree:tiger/1024" then HashTigerTree
  else if is "Unknown" then HashUnknown
  else HashNone

/-- The part of `CFileHashEx` with the status of the parts or blocks. -/
structure SStatus where
  /-- `GetStatusCount`. -/
  statusCount : ℕ
  statusMap : List Bool

def SStatus.getStatusMap (s : SStatus) : List Bool :=
  if s.statusMap.isEmpty then List.replicate s.statusCount false else s.statusMap

/-- `CFileHash`, with the status if it is a `CFileHashEx`. -/
structure CFileHash where
  eType : EFileHashType
  hash : List UInt8
  /-- The part of `CFileHashEx`. -/
  status : Option SStatus
  /-- `m_Hash` has `m_uSize` bytes. -/
  size : hash.length = getSize eType
  /-- Only some types have a status. -/
  typed : status.isSome → hasStatus eType

def CFileHash.setStatus (h : CFileHash) (statusMap : List Bool) : CFileHash where
  eType := h.eType
  hash := h.hash
  status := h.status.map fun s => { s with statusMap }
  size := h.size
  typed hs := h.typed (by simpa using hs)

structure CTorrent where
  /-- `GetInfoHash`, which is empty while the torrent is made. -/
  infoHash : List UInt8
  /-- `m_pHash`. -/
  hash : CFileHash
  /-- An info hash is that of SHA1. -/
  size : infoHash = [] ∨ infoHash.length = 20

/-- The hashes of a `CFile`. -/
structure CFile where
  /-- `m_HashMap`, with each hash under its type. -/
  hashMap : List CFileHash
  torrents : List (List UInt8 × Option CTorrent)
  archives : List CFileHash

/-- A torrent that is not being made. -/
def allocated (t : Option CTorrent) : Option CTorrent := t.filter fun t => !t.infoHash.isEmpty

def CFile.getAllHashes (file : CFile) : List CFileHash :=
  file.hashMap ++ file.torrents.filterMap fun t => (allocated t.2).map (·.hash)

/-- Where a file has a hash. -/
inductive Place where
  /-- In `m_HashMap`. -/
  | hashMap (i : ℕ)
  /-- In `m_Torrents`. -/
  | torrents (i : ℕ)
  /-- In `m_Archives`. -/
  | archives (i : ℕ)

def CFile.getHashPtrEx (file : CFile) (type : EFileHashType) (hash : List UInt8) : Option Place :=
  if type = HashTorrent then
    (file.torrents.findIdx? fun t => t.2.any fun t => hash.isEmpty || t.infoHash = hash).map Place.torrents
  else if type = HashArchive then
    (file.archives.findIdx? fun h => hash.isEmpty || h.hash = hash).map Place.archives
  else (file.hashMap.findIdx? (·.eType = type)).bind fun i =>
    if file.hashMap[i]?.any fun h => hash.isEmpty || h.hash = hash then some (Place.hashMap i) else none

/-- The hash at a place. -/
def CFile.hashAt (file : CFile) : Place → Option CFileHash
  | .hashMap i => file.hashMap[i]?
  | .torrents i => file.torrents[i]?.bind fun t => t.2.map (·.hash)
  | .archives i => file.archives[i]?

/-- `SetStatus` of the hash at a place. -/
def CFile.setStatus (file : CFile) (statusMap : List Bool) : Place → CFile
  | .hashMap i => { file with hashMap := file.hashMap.modify i (·.setStatus statusMap) }
  | .torrents i =>
    { file with
      torrents := file.torrents.modify i fun t =>
        (t.1, t.2.map fun x => { x with hash := x.hash.setStatus statusMap }) }
  | .archives i => { file with archives := file.archives.modify i (·.setStatus statusMap) }

/-- `CHashInspector`, as far as it is stored. -/
structure CHashInspector where
  indexSource : EFileHashType
  /-- `GetFile`. -/
  file : CFile

/-- An entry of `HashMap` in the stored map. -/
structure SHashEntry where
  type : QString
  value : List UInt8
  verifyed : List UInt8

/-- The stored map. -/
structure SData where
  indexSource : Option QString
  hashMap : List SHashEntry

/-- The entry for a hash, if it is a `CFileHashEx`. -/
def storeEntry (h : CFileHash) : Option SHashEntry :=
  h.status.map fun s =>
    { type := hashType2Str h.eType
      value := encodeHash h.eType h.hash 0
      verifyed := toHex ((bits2Bytes s.getStatusMap false).map UInt8.ofBitVec) }

def CHashInspector.store (x : CHashInspector) : SData where
  indexSource := if x.indexSource ≠ HashNone then some (hashType2Str x.indexSource) else none
  hashMap := x.file.getAllHashes.filterMap storeEntry

/-- The loop of `CHashInspector::Load`. The value is decoded, but the hash is looked up by the text. -/
def loadEntry (file : CFile) (entry : SHashEntry) : CFile :=
  let type := str2HashType entry.type
  let _hashValue := decodeHash type entry.value
  match file.getHashPtrEx type entry.value with
  | none => file
  | some place =>
    match (file.hashAt place).bind (·.status) with
    | none => file
    | some s =>
      file.setStatus (bytes2Bits ((fromHex entry.verifyed).map UInt8.toBitVec) s.statusCount false) place

def CHashInspector.load (x : CHashInspector) (data : SData) : CHashInspector where
  indexSource := str2HashType (data.indexSource.getD [])
  file := data.hashMap.foldl loadEntry x.file

/-- What is known of the hashes that are stored. -/
def CFile.statuses (file : CFile) : List (Option (List Bool)) :=
  file.getAllHashes.map fun h => h.status.map SStatus.getStatusMap

/-- The hashes that are not stored. -/
def CFile.others (file : CFile) : List (List UInt8 × Option CTorrent) × List CFileHash :=
  (file.torrents.filter fun t => (allocated t.2).isNone, file.archives)

/-- The index source and the statuses are those that were stored, and nothing else is changed. -/
structure Restored (stored before after : CHashInspector) : Prop where
  /-- The index source. -/
  indexSource : after.indexSource = stored.indexSource
  /-- The status of each stored hash. -/
  statuses : after.file.statuses = stored.file.statuses
  /-- The other hashes. -/
  others : after.file.others = before.file.others

/-- A source that can be read from its name. -/
def Named (type : EFileHashType) : Prop := type ≠ HashEdPr ∧ type ≠ HashSingle ∧ type ≠ HashMulti

theorem str2HashType_hashType2Str {type : EFileHashType} (h : hasStatus type) :
    str2HashType (hashType2Str type) = type := by
  cases type <;> first | rfl | exact absurd h (by simp [hasStatus])

theorem indexSource_load_iff (x x' : CHashInspector) :
    (x'.load x.store).indexSource = x.indexSource ↔ Named x.indexSource := by
  have hall : ∀ type : EFileHashType,
      str2HashType ((if type ≠ HashNone then some (hashType2Str type) else none).getD []) = type ↔ Named type := by
    intro type
    cases type <;> simp only [Named] <;> decide
  exact hall x.indexSource

/-- A text is no hash of its type. -/
theorem length_encodeHash_ne {h : CFileHash} (htyped : hasStatus h.eType) :
    (encodeHash h.eType h.hash 0).length ≠ getSize h.eType ∧ encodeHash h.eType h.hash 0 ≠ [] := by
  have h16 := length_toHex h.hash
  have h32 := length_encode32 (show 0 < 8 by omega) h.hash
  have h64 := length_toLink h.hash
  rw [h.size] at h16 h32 h64
  have hsize := getSize_mem h.eType
  simp only [List.mem_cons, List.not_mem_nil, or_false] at hsize
  have hbase : getBase h.eType = 16 ∨ getBase h.eType = 32 ∨ getBase h.eType = 64 := by
    cases htype : h.eType <;> simp [htype, hasStatus, getBase] at htyped ⊢
  have hlength : getSize h.eType < (encodeHash h.eType h.hash 0).length := by
    rcases hbase with hbase | hbase | hbase <;> simp [encodeHash, hbase] <;> omega
  exact ⟨hlength.ne', fun hnil => by simp [hnil] at hlength⟩

/-- A text is looked up, so that no hash is found. -/
theorem getHashPtrEx_text (file : CFile) {h : CFileHash} (htyped : hasStatus h.eType) :
    file.getHashPtrEx h.eType (encodeHash h.eType h.hash 0) = none := by
  obtain ⟨hlength, hne⟩ := length_encodeHash_ne htyped
  unfold CFile.getHashPtrEx
  split_ifs with htorrent harchive
  · have hsize : getSize h.eType = 20 := by rw [htorrent]; rfl
    simp only [Option.map_eq_none_iff, List.findIdx?_eq_none_iff, Option.any_eq_false]
    intro t _ x _
    have hinfo : x.infoHash ≠ encodeHash h.eType h.hash 0 := by
      intro heq
      rcases x.size with hnil | htwenty
      · exact hne (heq ▸ hnil)
      · exact hlength (by rw [← heq, htwenty, hsize])
    simp [hne, hinfo]
  · rw [harchive] at htyped
    exact absurd htyped (by simp [hasStatus])
  · simp only [Option.bind_eq_none_iff]
    intro i hi
    obtain ⟨hlt, htype, -⟩ := List.findIdx?_eq_some_iff_getElem.mp hi
    have hother : (file.hashMap[i]).hash ≠ encodeHash h.eType h.hash 0 := by
      intro heq
      have hsize := (file.hashMap[i]).size
      rw [heq, of_decide_eq_true htype] at hsize
      exact hlength hsize
    simp [hlt, hne, hother]

theorem loadEntry_storeEntry (file : CFile) {h : CFileHash} {entry : SHashEntry} (he : storeEntry h = some entry) :
    loadEntry file entry = file := by
  obtain ⟨s, hs, rfl⟩ := Option.map_eq_some_iff.mp he
  have htyped := h.typed (by simp [hs])
  simp only [loadEntry, str2HashType_hashType2Str htyped, getHashPtrEx_text file htyped]

/-- No status is loaded. -/
theorem file_load_store (x x' : CHashInspector) : (x'.load x.store).file = x'.file := by
  have hkeep : ∀ (hs : List CFileHash) (file : CFile), (hs.filterMap storeEntry).foldl loadEntry file = file := by
    intro hs
    induction hs with
    | nil => exact fun _ => rfl
    | cons h hs ih =>
      intro file
      cases he : storeEntry h with
      | none => simpa [he] using ih file
      | some entry => simpa [he, loadEntry_storeEntry file he] using ih file
  exact hkeep x.file.getAllHashes x'.file

/-- What is stored is restored exactly if the index source has a name, and each hash already has the status that was
stored. -/
theorem load_store_iff (x x' : CHashInspector) :
    Restored x x' (x'.load x.store) ↔ Named x.indexSource ∧ x'.file.statuses = x.file.statuses := by
  have hfile := file_load_store x x'
  constructor
  · intro h
    exact ⟨(indexSource_load_iff x x').mp h.indexSource, hfile ▸ h.statuses⟩
  · rintro ⟨hnamed, hsame⟩
    exact ⟨(indexSource_load_iff x x').mpr hnamed, hfile ▸ hsame, by rw [hfile]⟩

/-- An inspector of a file of eD2k with one part. -/
def onePart (statusMap : List Bool) : CHashInspector where
  indexSource := HashNone
  file :=
    { hashMap := [⟨HashEd2k, List.replicate 16 7, some ⟨1, statusMap⟩, List.length_replicate, fun _ => rfl⟩]
      torrents := []
      archives := [] }

/-- A verified part is not verified after the restart, although the file has the same hash. -/
theorem load_store_lost : ¬Restored (onePart [true]) (onePart []) ((onePart []).load (onePart [true]).store) := by
  intro h
  have hlost := h.statuses
  rw [file_load_store] at hlost
  simp [CFile.statuses, CFile.getAllHashes, onePart, SStatus.getStatusMap] at hlost

end NeoLoader.InspectorStore
