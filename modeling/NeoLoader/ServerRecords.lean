import NeoLoader.CollectionTags

/-!
# Files in the lists of a server

A record of a file has its hash, an address that is no longer used, and a map of tags with the name, the size in two
halves and the details of the media.
-/

namespace NeoLoader.ServerRecords

open KeyMap ByteReader MuleTags MuleTagsRoundTrip MuleCollection CollectionTags

abbrev FT_FILESIZE_HI : ℕ := 0x3A

abbrev FT_SOURCES : ℕ := 0x15

def OLD_MAX_EMULE_FILE_SIZE : ℕ := 4290048000

/-- The details of media. -/
inductive EMedia where
  | Title
  | Artist
  | Album
  | Length
  | Bitrate
  | Codec
  deriving DecidableEq

/-- `FT_MEDIA_ARTIST` and the numbers behind it. -/
def EMedia.tag : EMedia → ℕ
  | Artist => 0xD0
  | Album => 0xD1
  | Title => 0xD2
  | Length => 0xD3
  | Bitrate => 0xD4
  | Codec => 0xD5

/-- `CFile`, as far as it is sent to a server. -/
structure CFile where
  /-- The hash of type `HashEd2k`. -/
  hash : CMuleHash
  /-- `IsIncomplete`. -/
  incomplete : Bool
  /-- `GetFileName`. -/
  fileName : QString
  /-- `GetFileSize`. -/
  fileSize : UInt64
  /-- The property `Rating` as a number. -/
  rating : UInt32
  /-- The other properties, texts and the numbers `Length` and `Bitrate`. -/
  property : EMedia → Option QVariant
  /-- They are texts and numbers. -/
  typed : ∀ m v, property m = some v → (∃ s, v = .string s) ∨ ∃ i, v = .int i

/-- The tags of `WriteFile`, and whether they are set. -/
def tagList (file : CFile) : List (ℕ × Option QVariant) :=
  let large := OLD_MAX_EMULE_FILE_SIZE < file.fileSize.toNat
  [(FT_FILENAME, some (.string file.fileName)), (FT_FILESIZE, some (.uInt file.fileSize.toUInt32)),
    (FT_FILESIZE_HI, if large then some (.uInt (file.fileSize >>> 32).toUInt32) else none),
    (FT_FILERATING, if file.rating ≠ 0 then some (.int file.rating) else none)] ++
    [EMedia.Title, .Artist, .Album, .Length, .Bitrate, .Codec].map fun m => (m.tag, file.property m)

/-- The map of tags that are set one after the other. -/
def putTags (l : List (ℕ × Option QVariant)) : QVariantMap :=
  l.foldl (fun Tags t => t.2.elim Tags fun v => Tags.insert (number t.1) v) OrderedMap.empty

variable (conv : Conversions)

/-- `CEd2kServer::WriteFile`, for a server with and without compression and new tags. -/
def writeFile (file : CFile) (SupportsCompression SupportsNewTags : Bool) : List UInt8 :=
  let nClientID := if SupportsCompression then if file.incomplete then 0xFCFCFCFC else 0xFBFBFBFB else 0
  let nClientPort := if SupportsCompression then if file.incomplete then 0xFCFC else 0xFBFB else 0
  file.hash.1 ++ (littleEndian 4 nClientID ++ (littleEndian 2 nClientPort ++
    writeTags conv.toUInt conv.toFloat (putTags (tagList file)) SupportsNewTags false))

/-- `Details`. -/
structure SDetails where
  rating : Option ℕ
  availability : Option QVariant
  /-- The details of media. -/
  media : EMedia → Option QVariant

/-- The file that `ReadFile` makes. -/
structure SFoundFile where
  /-- The hash. -/
  hash : List UInt8
  fileName : QString
  /-- `uFileSize`. -/
  fileSize : UInt64
  details : SDetails

/-- The detail with a tag. -/
def mediaOf : ℕ → Option EMedia
  | 0xD0 => some .Artist
  | 0xD1 => some .Album
  | 0xD2 => some .Title
  | 0xD3 => some .Length
  | 0xD4 => some .Bitrate
  | 0xD5 => some .Codec
  | _ => none

/-- The loop of `ReadFile` over the tags that are left. -/
def takeDetail (d : SDetails) (tag : QString × QVariant) : SDetails :=
  let key := (conv.toUInt tag.1).getD 0
  if key = FT_FILERATING then { d with rating := some ((conv.toInt tag.2).toNat % 256 / 51) }
  else if key = FT_SOURCES then { d with availability := some tag.2 }
  else (mediaOf key).elim d fun m => { d with media := Function.update d.media m (some tag.2) }

/-- `QVariantMap::take`, as a number. -/
def takeUInt (Tags : QVariantMap) (tag : ℕ) : UInt64 × QVariantMap :=
  (((Tags.get (number tag)).elim 0 fun v => (conv.toInt v).toUInt64), Tags.erase (number tag))

/-- `ReadFile` behind the tags. Both halves of the size are taken from `FT_FILESIZE`. -/
def makeFile (hash : List UInt8) (Tags : QVariantMap) : Option SFoundFile :=
  let fileName := ((Tags.get (number FT_FILENAME)).elim [] conv.toText)
  let low := takeUInt conv (Tags.erase (number FT_FILENAME)) FT_FILESIZE
  let high := takeUInt conv low.2 FT_FILESIZE
  let fileSize := low.1 ||| (high.1 <<< 32)
  if fileSize = 0 then none
  else
    some
      { hash
        fileName
        fileSize
        details := high.2.entries.foldl (takeDetail conv) ⟨none, none, fun _ => none⟩ }

/-- `CEd2kServer::ReadFile`. -/
def readFile : Reader (Option SFoundFile) := do
  let hash ← readBytes 16
  let _ ← readNumber 4
  let _ ← readNumber 2
  let Tags ← readTags conv.toDouble false
  return makeFile conv hash Tags

/-- What is read back: the record is taken exactly, and it is the same file with the same details. -/
def RecordRight (file : CFile) (SupportsCompression SupportsNewTags : Bool) : Prop :=
  ∃ found, Reads (readFile conv) (writeFile conv file SupportsCompression SupportsNewTags) (some found) ∧
    found.hash = file.hash.1 ∧ found.fileName = file.fileName ∧ found.fileSize = file.fileSize ∧
    ∀ m, found.details.media m = (file.property m).map (asRead conv.toFloat conv.toDouble)

/-- Texts with a length of two bytes that do not begin with a byte order mark. -/
def TextsOk (file : CFile) : Prop :=
  ValueOk (.string file.fileName) ∧ ∀ m v, file.property m = some v → ValueOk v

variable {conv}

theorem mediaOf_eq (key : ℕ) (m : EMedia) : mediaOf key = some m ↔ key = m.tag := by
  unfold mediaOf
  split <;> cases m <;> simp_all [EMedia.tag]

theorem get_put_other (hconv : ConversionsOk conv) {n : ℕ} (hn : n ≤ 255) {l : List (ℕ × Option QVariant)}
    (hle : ∀ t ∈ l, t.1 ≤ 255) (hother : ∀ t ∈ l, t.1 ≠ n) (Tags : QVariantMap) :
    (l.foldl (fun Tags t => t.2.elim Tags fun v => Tags.insert (number t.1) v) Tags).get (number n) =
      Tags.get (number n) := by
  induction l generalizing Tags with
  | nil => rfl
  | cons t l ih =>
    rw [List.forall_mem_cons] at hle hother
    rw [List.foldl_cons, ih hle.2 hother.2]
    cases ht : t.2 with
    | none => rfl
    | some v =>
      refine OrderedMap.get_insert_of_ne _ _ fun heq => hother.1 ?_
      have hsame := (hconv.toUInt n hn).symm.trans ((congrArg conv.toUInt heq).trans (hconv.toUInt t.1 hle.1))
      exact (Option.some.inj hsame).symm

/-- A tag is as it was set. -/
theorem get_putTags (hconv : ConversionsOk conv) {l : List (ℕ × Option QVariant)} (hle : ∀ t ∈ l, t.1 ≤ 255)
    (hnodup : (l.map Prod.fst).Nodup) {n : ℕ} {v : Option QVariant} (hmem : (n, v) ∈ l) :
    (putTags l).get (number n) = v := by
  obtain ⟨l₁, l₂, rfl⟩ := List.append_of_mem hmem
  simp only [List.map_append, List.map_cons, List.nodup_append, List.nodup_cons, List.mem_map] at hnodup
  simp only [List.forall_mem_append, List.forall_mem_cons] at hle
  rw [putTags, List.foldl_append, List.foldl_cons, get_put_other hconv hle.2.1 hle.2.2 fun t ht heq =>
    hnodup.2.1.1 ⟨t, ht, heq⟩]
  have hbefore := get_put_other hconv hle.2.1 hle.1 (fun t ht heq => hnodup.2.2 t.1 ⟨t, ht, rfl⟩ n (by simp) heq)
    OrderedMap.empty
  cases v with
  | none => exact hbefore
  | some v => exact OrderedMap.get_insert_self _ _ _

/-- The tags that are set, and how many. -/
theorem mem_putTags (l : List (ℕ × Option QVariant)) : (putTags l).size ≤ l.length ∧
    ∀ e ∈ (putTags l).entries, ∃ n, (n, some e.2) ∈ l ∧ e.1 = number n := by
  induction l using List.reverseRecOn with
  | nil => simp [putTags, OrderedMap.empty, OrderedMap.size]
  | append_singleton l t ih =>
    rw [putTags, List.foldl_append, ← putTags, List.foldl_cons, List.foldl_nil]
    obtain ⟨n, v⟩ := t
    cases v with
    | none =>
      refine ⟨ih.1.trans (by simp), fun e he => ?_⟩
      obtain ⟨m, hm, hname⟩ := ih.2 e he
      exact ⟨m, List.mem_append_left _ hm, hname⟩
    | some v =>
      refine ⟨(OrderedMap.size_insert_le _ _ _).trans (by simpa using ih.1), fun e he => ?_⟩
      rcases OrderedMap.mem_insert.mp he with rfl | ⟨he, -⟩
      · exact ⟨n, by simp, rfl⟩
      · obtain ⟨m, hm, hname⟩ := ih.2 e he
        exact ⟨m, List.mem_append_left _ hm, hname⟩

theorem tagList_le (file : CFile) : ∀ t ∈ tagList file, t.1 ≤ 255 := by
  have hall : ∀ n ∈ (tagList file).map Prod.fst, n ≤ 255 := by
    change ∀ n ∈ [0x01, 0x02, 0x3A, 0xF7, 0xD2, 0xD0, 0xD1, 0xD3, 0xD4, 0xD5], n ≤ 255
    decide
  exact fun t ht => hall t.1 (List.mem_map_of_mem ht)

theorem tagList_nodup (file : CFile) : ((tagList file).map Prod.fst).Nodup := by
  change [0x01, 0x02, 0x3A, 0xF7, 0xD2, 0xD0, 0xD1, 0xD3, 0xD4, 0xD5].Nodup
  decide

/-- The tags of a file can be read. -/
theorem tagsOk {file : CFile} (htexts : TextsOk file) : TagsOk conv.toUInt false (putTags (tagList file)) := by
  obtain ⟨hsize, hmem⟩ := mem_putTags (tagList file)
  refine ⟨hsize.trans_lt (by simp [tagList]), fun tag htag => ?_, fun tag htag => ?_⟩
  · obtain ⟨n, hn, hname⟩ := hmem tag htag
    exact Or.inl ⟨n, tagList_le file _ hn, hname⟩
  · obtain ⟨n, hn, -⟩ := hmem tag htag
    simp only [tagList, List.mem_append, List.mem_cons, Prod.mk.injEq, List.not_mem_nil, or_false, List.mem_map] at hn
    rcases hn with (⟨-, hv⟩ | ⟨-, hv⟩ | ⟨-, hv⟩ | ⟨-, hv⟩) | ⟨m, -, -, hv⟩
    · exact Option.some.inj hv ▸ htexts.1
    · exact Option.some.inj hv ▸ trivial
    · obtain ⟨-, hv⟩ := Option.ite_none_right_eq_some.mp hv.symm
      exact Option.some.inj hv ▸ trivial
    · obtain ⟨-, hv⟩ := Option.ite_none_right_eq_some.mp hv.symm
      exact Option.some.inj hv ▸ trivial
    · exact htexts.2 m tag.2 hv

/-- The tags as they are read. -/
def readBack (conv : Conversions) (file : CFile) : QVariantMap :=
  (putTags (tagList file)).mapValues (asRead conv.toFloat conv.toDouble)

/-- A record is read as the file that is made of its tags. -/
theorem reads_file (hconv : ConversionsOk conv) {file : CFile} (htexts : TextsOk file)
    (SupportsCompression SupportsNewTags : Bool) :
    Reads (readFile conv) (writeFile conv file SupportsCompression SupportsNewTags)
      (makeFile conv file.hash.1 (readBack conv file)) := by
  have hhash : Reads (readBytes 16) file.hash.1 file.hash.1 := by
    have hread := reads_bytes file.hash.1
    rwa [file.hash.2] at hread
  refine reads_bind hhash (reads_bind (reads_number ?_) (reads_bind (reads_number ?_)
    (reads_bind_pure (reads_tags hconv.toUInt (tagsOk htexts) SupportsNewTags))))
  · split_ifs <;> decide
  · split_ifs <;> decide

theorem get_readBack (hconv : ConversionsOk conv) {file : CFile} {n : ℕ} {v : Option QVariant}
    (hmem : (n, v) ∈ tagList file) :
    (readBack conv file).get (number n) = v.map (asRead conv.toFloat conv.toDouble) := by
  rw [readBack, OrderedMap.get_mapValues, get_putTags hconv (tagList_le file) (tagList_nodup file) hmem]

/-- What is made of the tags of a file, with the lower half of its size. -/
theorem makeFile_readBack (hconv : ConversionsOk conv) (file : CFile) :
    ∃ details, makeFile conv file.hash.1 (readBack conv file) = (if file.fileSize.toUInt32.toUInt64 = 0 then none
        else some ⟨file.hash.1, file.fileName, file.fileSize.toUInt32.toUInt64, details⟩) ∧
      ∀ m, details.media m = (file.property m).map (asRead conv.toFloat conv.toDouble) := by
  have hname : (readBack conv file).get (number FT_FILENAME) = some (.string file.fileName) :=
    get_readBack hconv (v := some (.string file.fileName)) (by simp [tagList])
  have hlow : ((readBack conv file).erase (number FT_FILENAME)).get (number FT_FILESIZE) =
      some (.uInt file.fileSize.toUInt32) := by
    rw [OrderedMap.get_erase_of_ne _ (by decide)]
    exact get_readBack hconv (v := some (.uInt file.fileSize.toUInt32)) (by simp [tagList])
  generalize hrest : (((readBack conv file).erase (number FT_FILENAME)).erase (number FT_FILESIZE)).erase
    (number FT_FILESIZE) = rest
  refine ⟨rest.entries.foldl (takeDetail conv) ⟨none, none, fun _ => none⟩, ?_, fun m => ?_⟩
  · simp only [makeFile, takeUInt, hname, hlow, OrderedMap.get_erase_self, hrest, Option.elim, hconv.toText,
      hconv.toInt]
    simp
  · have hkeys : KeysOk conv rest := fun k v hget => by
      have hmem := OrderedMap.get_eq_some.mp hget
      rw [← hrest] at hmem
      simp only [OrderedMap.erase, OrderedMap.filter, List.mem_filter, readBack, OrderedMap.mapValues,
        List.mem_map] at hmem
      obtain ⟨⟨⟨⟨e, he, heq⟩, -⟩, -⟩, -⟩ := hmem
      obtain ⟨n, hn, hkey⟩ := (mem_putTags (tagList file)).2 e he
      exact Or.inl ⟨n, tagList_le file _ hn, (congrArg Prod.fst heq).symm.trans hkey⟩
    have htag : m.tag ≤ 255 ∧ m.tag ≠ 0 ∧ m.tag ≠ FT_FILERATING ∧ m.tag ≠ FT_SOURCES ∧
        number m.tag ≠ number FT_FILENAME ∧ number m.tag ≠ number FT_FILESIZE := by
      cases m <;> decide
    obtain ⟨hle, hpos, hrating, hsources, hne1, hne2⟩ := htag
    have hother : ∀ (d : SDetails) (tag : QString × QVariant), (conv.toUInt tag.1).getD 0 ≠ m.tag →
        (takeDetail conv d tag).media m = d.media m := fun d tag hkey => by
      simp only [takeDetail]
      split_ifs
      · rfl
      · rfl
      · cases hm : mediaOf ((conv.toUInt tag.1).getD 0) with
        | none => rfl
        | some m' =>
          have hne : m ≠ m' := fun heq => hkey ((mediaOf_eq _ m).mp (heq ▸ hm))
          simp [hne]
    have hset : ∀ (d : SDetails) (tag : QString × QVariant), (conv.toUInt tag.1).getD 0 = m.tag →
        (takeDetail conv d tag).media m = some tag.2 := fun d tag hkey => by
      simp [takeDetail, hkey, hrating, hsources, (mediaOf_eq m.tag m).mpr rfl]
    have hget : rest.get (number m.tag) = (file.property m).map (asRead conv.toFloat conv.toDouble) := by
      rw [← hrest, OrderedMap.get_erase_of_ne _ hne2, OrderedMap.get_erase_of_ne _ hne2,
        OrderedMap.get_erase_of_ne _ hne1]
      exact get_readBack hconv (by cases m <;> simp [tagList])
    cases hproperty : file.property m with
    | none =>
      rw [hproperty] at hget
      exact taken_none hconv hkeys (takeDetail conv) (fun d => d.media m) hpos hother hget _
    | some v =>
      rw [hproperty] at hget
      exact taken_some hconv hkeys (takeDetail conv) (fun d => d.media m) hle hpos hother hset hget _

/-- A record gives the file back exactly if its size is not zero and fits the lower half. -/
theorem record_right_iff (hconv : ConversionsOk conv) {file : CFile} (htexts : TextsOk file)
    (SupportsCompression SupportsNewTags : Bool) :
    RecordRight conv file SupportsCompression SupportsNewTags ↔ file.fileSize ≠ 0 ∧ file.fileSize.toNat < 2 ^ 32 := by
  have hread := reads_file hconv htexts SupportsCompression SupportsNewTags
  obtain ⟨details, hmake, hmedia⟩ := makeFile_readBack hconv file
  have hlow : file.fileSize.toUInt32.toUInt64 = file.fileSize ↔ file.fileSize.toNat < 2 ^ 32 := by
    rw [← UInt64.toNat_inj]
    simp
  constructor
  · rintro ⟨found, hfound, -, -, hsize, -⟩
    have hsame := congrArg Prod.fst (Option.some.inj ((hread []).symm.trans (hfound [])))
    rw [hmake] at hsame
    split_ifs at hsame with hzero
    have hfile : file.fileSize.toUInt32.toUInt64 = file.fileSize :=
      (congrArg SFoundFile.fileSize (Option.some.inj hsame)).trans hsize
    exact ⟨fun heq => hzero (hfile.trans heq), hlow.mp hfile⟩
  · rintro ⟨hne, hlt⟩
    rw [hmake, hlow.mpr hlt, if_neg hne] at hread
    exact ⟨_, hread, rfl, rfl, rfl, hmedia⟩

/-- A file without media details. -/
def plainFile (fileSize : UInt64) : CFile :=
  ⟨muleHash [], false, [97], fileSize, 0, fun _ => none, fun _ _ h => by cases h⟩

theorem plainFile_texts (fileSize : UInt64) : TextsOk (plainFile fileSize) :=
  ⟨show ValueOk (QVariant.string [97]) from ⟨by decide, by decide⟩, fun _ _ h => by cases h⟩

theorem record_right_one : RecordRight plainConversions (plainFile 5) true false :=
  (record_right_iff plainConversions_ok (plainFile_texts 5) true false).mpr ⟨by decide, by decide⟩

/-- A file of 4 GB and one byte is found with one byte. -/
theorem record_wrong : ¬RecordRight plainConversions (plainFile 4294967297) true true := by
  rintro ⟨found, hfound, -, -, hsize, -⟩
  have hread := reads_file plainConversions_ok (plainFile_texts 4294967297) true true
  have hsame := congrArg Prod.fst (Option.some.inj ((hread []).symm.trans (hfound [])))
  obtain ⟨details, hmake, -⟩ := makeFile_readBack plainConversions_ok (plainFile 4294967297)
  rw [hmake, if_neg (by decide)] at hsame
  have hone : (1 : UInt64) = 4294967297 := (congrArg SFoundFile.fileSize (Option.some.inj hsame)).trans hsize
  exact absurd hone (by decide)

end NeoLoader.ServerRecords
