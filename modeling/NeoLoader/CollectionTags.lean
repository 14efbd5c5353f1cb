import Mathlib.Data.List.Induction
import NeoLoader.CollectionLinks

/-!
# The tags of a collection

What a collection and its files are read as depends on the tags one by one. A saved collection is read with its name and
its files, and each file has the properties of the collection.
-/

namespace NeoLoader.CollectionTags

open ByteReader CollectionLinks KeyMap MuleCollection MuleTags MuleTagsRoundTrip TextEncodings

section Folding

variable {σ ι α : Type}

theorem foldl_part_none {step : σ → ι → σ} (part : σ → α) {p : ι → Prop}
    (hother : ∀ s i, ¬ p i → part (step s i) = part s) {l : List ι} (h : ∀ i ∈ l, ¬ p i) (s : σ) :
    part (l.foldl step s) = part s := by
  induction l generalizing s with
  | nil => rfl
  | cons i l ih =>
    obtain ⟨hi, hrest⟩ := List.forall_mem_cons.mp h
    rw [List.foldl_cons, ih hrest, hother s i hi]

/-- A part of a state that is set by steps that agree. -/
theorem foldl_part_some {step : σ → ι → σ} (part : σ → α) {p : ι → Prop} {f : ι → α}
    (hother : ∀ s i, ¬ p i → part (step s i) = part s) (hset : ∀ s i, p i → part (step s i) = f i) {l : List ι}
    {i : ι} (hi : i ∈ l) (hp : p i) (hsame : ∀ j ∈ l, p j → f j = f i) (s : σ) : part (l.foldl step s) = f i := by
  induction l using List.reverseRecOn with
  | nil => simp at hi
  | append_singleton l j ih =>
    rw [List.foldl_append, List.foldl_cons, List.foldl_nil]
    by_cases hj : p j
    · rw [hset _ j hj, hsame j (by simp) hj]
    · have hmem : i ∈ l := by
        rcases List.mem_append.mp hi with hi | hi
        · exact hi
        · exact absurd (List.mem_singleton.mp hi ▸ hp) hj
      rw [hother _ j hj, ih hmem fun k hk => hsame k (List.mem_append_left _ hk)]

end Folding

section Conversions

/-- The conversions of values that were converted the other way. -/
structure ConversionsOk (conv : Conversions) : Prop where
  /-- Numbers are read from their digits. -/
  toUInt : ∀ n ≤ 255, conv.toUInt (number n) = some n
  /-- Texts. -/
  toText : ∀ s, conv.toText (QVariant.string s) = s
  /-- Large numbers. -/
  toLong : ∀ n, conv.toLong (QVariant.uLongLong n) = n
  /-- Numbers. -/
  toInt : ∀ n, conv.toInt (QVariant.int n) = n ∧ conv.toInt (QVariant.uInt n) = n
  /-- Bytes. -/
  toBytes : ∀ bytes, conv.toBytes (QVariant.byteArray bytes) = bytes
  /-- Hashes. -/
  toHash : ∀ hash, conv.toHash (QVariant.muleHash hash) = hash

/-- A collection with names, texts and hashes of their kind. -/
structure IsCollection (conv : Conversions) (c : CMuleCollection) : Prop where
  /-- The names of properties are no numbers. -/
  names : ∀ e ∈ c.m_Properties.entries, conv.toUInt e.1 = none
  /-- The author and the comment are texts. -/
  texts : ∀ name ∈ [qstring "Creator", PROP_DESCRIPTION], ∀ v, c.m_Properties.get name = some v →
    ∃ s, v = QVariant.string s
  /-- The rating is a number. -/
  rating : ∀ v, c.m_Properties.get PROP_RATING = some v → ∃ n, v = QVariant.int n ∨ v = QVariant.uInt n
  /-- Hashes have 16 bytes. -/
  ed2k : ∀ File ∈ c.m_Files, File.HashEd2k.length = 16
  /-- The others are texts of base 32. -/
  aich : ∀ File ∈ c.m_Files, ∀ b ∈ File.HashAICH, isBase32 b = true

/-- A collection that fits into tags. -/
structure Fits (c : CMuleCollection) (pPrivKey : Option CPrivateKey) : Prop where
  /-- The names of properties. -/
  names : ∀ e ∈ c.m_Properties.entries, e.1.length ≠ 1 ∧ e.1.length < 2 ^ 16 ∧ (∀ u ∈ e.1, u.toNat ≤ 0xff) ∧
    e.1.take 3 ≠ [0xEF, 0xBB, 0xBF]
  /-- The values of properties. -/
  values : ∀ e ∈ c.m_Properties.entries, ValueOk e.2
  /-- The name of the collection. -/
  collection : ValueOk (QVariant.string c.m_CollectionName)
  /-- The texts of files. -/
  files : ∀ File ∈ c.m_Files, ValueOk (QVariant.string File.FileName) ∧
    ValueOk (QVariant.string (fromLatin1 File.HashAICH))
  /-- The number of properties. -/
  properties : c.m_Properties.size + 6 < 2 ^ 32
  /-- The number of files. -/
  count : c.m_Files.length < 2 ^ 32
  /-- The key. -/
  key : ∀ key ∈ pPrivKey, key.publicKey.length < 2 ^ 32

/-- A key whose signatures are accepted. -/
def KeyOk (conv : Conversions) (pPrivKey : Option CPrivateKey) : Prop :=
  ∀ key ∈ pPrivKey, key.isRSA ∧ ∀ data, key.sign data ≠ [] ∧ conv.verify key.publicKey data (key.sign data) = true

end Conversions

section Names

theorem names_nodup : [number FT_FILENAME, number FT_FILESIZE, number FT_AICH_HASH, number FT_FILEHASH,
    number FT_COLLECTIONAUTHOR, number FT_COLLECTIONAUTHORKEY, number FT_FILECOMMENT, number FT_FILERATING,
    qstring "Creator", PROP_DESCRIPTION, PROP_RATING].Nodup := by decide

theorem get_insert {κ ν : Type} [LinearOrder κ] (m : OrderedMap κ ν) (k k' : κ) (v : ν) :
    (m.insert k v).get k' = if k' = k then some v else m.get k' := by
  split_ifs with hk
  · rw [hk, OrderedMap.get_insert_self]
  · exact OrderedMap.get_insert_of_ne m v hk

/-- The tags after a property was taken out. -/
theorem get_takeTag (Tags : QVariantMap) {name : QString} {uTag : ℕ} (hne : number uTag ≠ name)
    (value : QVariant → QVariant) (k : QString) : (takeTag Tags name uTag value).get k = if k = name then none
      else if k = number uTag then ((Tags.get name).map value).or (Tags.get k)
      else Tags.get k := by
  rw [takeTag]
  cases hget : Tags.get name with
  | none =>
    split_ifs with hname
    · rw [hname, hget]
    · rfl
    · rfl
  | some v =>
    simp only [get_insert]
    split_ifs with htag hname hname
    · exact absurd (htag.symm.trans hname) hne
    · rfl
    · rw [hname, OrderedMap.get_erase_self]
    · exact OrderedMap.get_erase_of_ne Tags hname

variable {conv : Conversions} {c : CMuleCollection}

section

variable (hconv : ConversionsOk conv) (hc : IsCollection conv c)

include hconv hc

theorem get_number {n : ℕ} (hn : n ≤ 255) : c.m_Properties.get (number n) = none := by
  cases hget : c.m_Properties.get (number n) with
  | none => rfl
  | some v =>
    have hname := hc.names _ (OrderedMap.get_eq_some.mp hget)
    rw [hconv.toUInt n hn] at hname
    cases hname

theorem get_fileTags (File : SFileInfo) (k : QString) :
    (fileTags conv c File).get k = if k = number FT_FILENAME then some (QVariant.string File.FileName)
      else if k = number FT_FILESIZE then some (QVariant.longLong File.FileSize)
      else if k = number FT_FILEHASH then some (QVariant.muleHash (muleHash File.HashEd2k))
      else if k = number FT_AICH_HASH then
        if File.HashAICH = [] then none else some (QVariant.string (fromLatin1 File.HashAICH))
      else if k = number FT_FILECOMMENT then
        (c.m_Properties.get PROP_DESCRIPTION).map fun v => QVariant.string (conv.toText v)
      else if k = number FT_FILERATING then (c.m_Properties.get PROP_RATING).map fun v => QVariant.int (conv.toInt v)
      else if k = PROP_DESCRIPTION ∨ k = PROP_RATING then none
      else c.m_Properties.get k := by
  have hnames := names_nodup
  simp only [List.nodup_cons, List.mem_cons, List.not_mem_nil, or_false, not_or] at hnames
  have hnumbers : c.m_Properties.get (number FT_AICH_HASH) = none ∧ c.m_Properties.get (number FT_FILECOMMENT) = none ∧
      c.m_Properties.get (number FT_FILERATING) = none :=
    ⟨get_number hconv hc (by decide), get_number hconv hc (by decide), get_number hconv hc (by decide)⟩
  unfold fileTags
  by_cases hempty : File.HashAICH = []
  · simp only [hempty, if_true, get_takeTag _ hnames.2.2.2.2.2.2.1.2.2.1, get_takeTag _ hnames.2.2.2.2.2.2.2.1.2.2,
      get_insert]
    grind
  · simp only [hempty, if_false, get_takeTag _ hnames.2.2.2.2.2.2.1.2.2.1, get_takeTag _ hnames.2.2.2.2.2.2.2.1.2.2,
      get_insert]
    grind

theorem get_headerTags (pPrivKey : Option CPrivateKey) (k : QString) : (headerTags conv c pPrivKey).get k =
      if k = number FT_FILENAME then some (QVariant.string c.m_CollectionName)
      else if k = number FT_COLLECTIONAUTHOR then
        (c.m_Properties.get (qstring "Creator")).map fun v => QVariant.string (conv.toText v)
      else if k = number FT_COLLECTIONAUTHORKEY then pPrivKey.map fun key => QVariant.byteArray key.publicKey
      else if k = qstring "Creator" then none
      else c.m_Properties.get k := by
  have hnames := names_nodup
  simp only [List.nodup_cons, List.mem_cons, List.not_mem_nil, or_false, not_or] at hnames
  have hnumbers : c.m_Properties.get (number FT_COLLECTIONAUTHOR) = none ∧
      c.m_Properties.get (number FT_COLLECTIONAUTHORKEY) = none :=
    ⟨get_number hconv hc (by decide), get_number hconv hc (by decide)⟩
  unfold headerTags
  cases pPrivKey with
  | none =>
    simp only [get_takeTag _ hnames.2.2.2.2.1.2.2.2.1, get_insert]
    grind
  | some key =>
    simp only [get_takeTag _ hnames.2.2.2.2.1.2.2.2.1, get_insert]
    grind

end

theorem size_takeTag_le (Tags : QVariantMap) (name : QString) (uTag : ℕ) (value : QVariant → QVariant) :
    (takeTag Tags name uTag value).size ≤ Tags.size + 1 := by
  have herase : (Tags.erase name).size ≤ Tags.size := List.length_filter_le _ _
  rw [takeTag]
  cases Tags.get name with
  | none => exact Nat.le_succ _
  | some v => exact (OrderedMap.size_insert_le _ _ _).trans (Nat.succ_le_succ herase)

variable {pPrivKey : Option CPrivateKey}

/-- Tags of properties and of numbers are read back. -/
theorem tagsOk {L : QVariantMap} (hc : IsCollection conv c) (hfits : Fits c pPrivKey)
    (hsize : L.size ≤ c.m_Properties.size + 6)
    (h : ∀ k v, L.get k = some v → (∃ n ≤ 255, k = number n) ∧ ValueOk v ∨ c.m_Properties.get k = some v) :
    TagsOk conv.toUInt false L := by
  have hproperties := hfits.properties
  have hentry : ∀ e ∈ L.entries, (∃ n ≤ 255, e.1 = number n) ∧ ValueOk e.2 ∨ e ∈ c.m_Properties.entries := by
    intro e he
    exact (h e.1 e.2 (OrderedMap.get_eq_some.mpr he)).imp id OrderedMap.get_eq_some.mp
  refine ⟨?_, fun e he => ?_, fun e he => ?_⟩
  · show L.size < 256 ^ 4
    omega
  · rcases hentry e he with ⟨hnumber, -⟩ | he
    · exact Or.inl hnumber
    · obtain ⟨hlength, hshort, hchars, hbom⟩ := hfits.names e he
      have hname : nummeric conv.toUInt e.1 = none := by simp [nummeric, hc.names e he]
      exact Or.inr ⟨hname, hlength, hshort, hchars, hbom⟩
  · rcases hentry e he with ⟨-, hvalue⟩ | he
    · exact hvalue
    · exact hfits.values e he

/-- The tags of a file are read back. -/
theorem fileTags_ok (hconv : ConversionsOk conv) (hc : IsCollection conv c)
    (hfits : Fits c pPrivKey) {File : SFileInfo} (hmem : File ∈ c.m_Files) :
    TagsOk conv.toUInt false (fileTags conv c File) := by
  obtain ⟨hname, haich⟩ := hfits.files File hmem
  refine tagsOk hc hfits ?_ fun k v hget => ?_
  · have hbase : ∀ (m : QVariantMap) k v, (m.insert k v).size ≤ m.size + 1 := OrderedMap.size_insert_le
    have hthree : ∀ k1 v1 k2 v2 k3 v3, (((c.m_Properties.insert k1 v1).insert k2 v2).insert k3 v3).size ≤
        c.m_Properties.size + 3 := fun _ _ _ _ _ _ =>
      (hbase _ _ _).trans (Nat.succ_le_succ ((hbase _ _ _).trans (Nat.succ_le_succ (hbase _ _ _))))
    refine (size_takeTag_le _ _ _ _).trans (Nat.succ_le_succ ((size_takeTag_le _ _ _ _).trans (Nat.succ_le_succ ?_)))
    split_ifs
    · exact (hthree _ _ _ _ _ _).trans (Nat.le_succ _)
    · exact (hbase _ _ _).trans (Nat.succ_le_succ (hthree _ _ _ _ _ _))
  · rw [get_fileTags hconv hc] at hget
    split_ifs at hget with h1 h2 h3 h4 hempty h5 h6 h7
    · exact Or.inl ⟨⟨_, by decide, h1⟩, Option.some.inj hget ▸ hname⟩
    · exact Or.inl ⟨⟨_, by decide, h2⟩, Option.some.inj hget ▸ trivial⟩
    · exact Or.inl ⟨⟨_, by decide, h3⟩, Option.some.inj hget ▸ trivial⟩
    · exact Or.inl ⟨⟨_, by decide, h4⟩, Option.some.inj hget ▸ haich⟩
    · obtain ⟨w, hw, hv⟩ := Option.map_eq_some_iff.mp hget
      obtain ⟨s, rfl⟩ := hc.texts PROP_DESCRIPTION (by simp) w hw
      have hvalue := hfits.values _ (OrderedMap.get_eq_some.mp hw)
      rw [hconv.toText] at hv
      exact Or.inl ⟨⟨_, by decide, h5⟩, hv ▸ hvalue⟩
    · obtain ⟨w, hw, hv⟩ := Option.map_eq_some_iff.mp hget
      exact Or.inl ⟨⟨_, by decide, h6⟩, hv ▸ trivial⟩
    · exact Or.inr hget

/-- The tags of a collection are read back. -/
theorem headerTags_ok (hconv : ConversionsOk conv) (hc : IsCollection conv c)
    (hfits : Fits c pPrivKey) : TagsOk conv.toUInt false (headerTags conv c pPrivKey) := by
  refine tagsOk hc hfits ?_ fun k v hget => ?_
  · have hbase : ∀ (m : QVariantMap) k v, (m.insert k v).size ≤ m.size + 1 := OrderedMap.size_insert_le
    have htwo : ∀ k1 v1 name uTag value, (takeTag (c.m_Properties.insert k1 v1) name uTag value).size ≤
        c.m_Properties.size + 2 := fun _ _ _ _ _ => (size_takeTag_le _ _ _ _).trans (Nat.succ_le_succ (hbase _ _ _))
    unfold headerTags
    cases pPrivKey with
    | none => exact (htwo _ _ _ _ _).trans (by omega)
    | some key => exact (hbase _ _ _).trans ((Nat.succ_le_succ (htwo _ _ _ _ _)).trans (by omega))
  · rw [get_headerTags hconv hc] at hget
    split_ifs at hget with h1 h2 h3 h4
    · exact Or.inl ⟨⟨_, by decide, h1⟩, Option.some.inj hget ▸ hfits.collection⟩
    · obtain ⟨w, hw, hv⟩ := Option.map_eq_some_iff.mp hget
      obtain ⟨s, rfl⟩ := hc.texts (qstring "Creator") (by simp) w hw
      have hvalue := hfits.values _ (OrderedMap.get_eq_some.mp hw)
      rw [hconv.toText] at hv
      exact Or.inl ⟨⟨_, by decide, h2⟩, hv ▸ hvalue⟩
    · obtain ⟨key, hkey, hv⟩ := Option.map_eq_some_iff.mp hget
      have hvalue : ValueOk (QVariant.byteArray key.publicKey) := hfits.key key hkey
      exact Or.inl ⟨⟨_, by decide, h3⟩, hv ▸ hvalue⟩
    · exact Or.inr hget

end Names

section Loading

variable {conv : Conversions} {c : CMuleCollection}

/-- The keys of tags are numbers of one byte and names that are no numbers. -/
def KeysOk (conv : Conversions) (L : QVariantMap) : Prop :=
  ∀ k v, L.get k = some v → (∃ n ≤ 255, k = number n) ∨ conv.toUInt k = none

variable {L : QVariantMap}

theorem eq_number (hconv : ConversionsOk conv) (hkeys : KeysOk conv L) {e : QString × QVariant}
    (he : e ∈ L.entries) {n : ℕ} (hpos : n ≠ 0) (h : (conv.toUInt e.1).getD 0 = n) : e.1 = number n := by
  rcases hkeys e.1 e.2 (OrderedMap.get_eq_some.mpr he) with ⟨m, hm, hname⟩ | hnone
  · rw [hname, hconv.toUInt m hm] at h
    rw [hname]
    exact congrArg number h
  · rw [hnone] at h
    exact absurd h.symm hpos

section

variable {σ α : Type} (hconv : ConversionsOk conv) (hkeys : KeysOk conv L) (step : σ → QString × QVariant → σ)
  (part : σ → α)

include hconv hkeys step part

/-- A part that is set by the tag with a number. -/
theorem taken_some {f : QVariant → α} {n : ℕ} (hn : n ≤ 255) (hpos : n ≠ 0)
    (hother : ∀ s tag, (conv.toUInt tag.1).getD 0 ≠ n → part (step s tag) = part s)
    (hset : ∀ s tag, (conv.toUInt tag.1).getD 0 = n → part (step s tag) = f tag.2) {v : QVariant}
    (hget : L.get (number n) = some v) (s : σ) : part (L.entries.foldl step s) = f v := by
  have hmem := OrderedMap.get_eq_some.mp hget
  have hkey : (conv.toUInt (number n)).getD 0 = n := by rw [hconv.toUInt n hn, Option.getD_some]
  refine foldl_part_some part (p := fun e => (conv.toUInt e.1).getD 0 = n) (f := fun e => f e.2) hother hset hmem hkey
    (fun e he hp => ?_) s
  have hname := eq_number hconv hkeys he hpos hp
  have hsame := OrderedMap.get_eq_some.mpr he
  rw [hname, hget] at hsame
  exact congrArg f (Option.some.inj hsame).symm

theorem taken_none {n : ℕ} (hpos : n ≠ 0)
    (hother : ∀ s tag, (conv.toUInt tag.1).getD 0 ≠ n → part (step s tag) = part s)
    (hget : L.get (number n) = none) (s : σ) : part (L.entries.foldl step s) = part s := by
  refine foldl_part_none part (p := fun e => (conv.toUInt e.1).getD 0 = n) hother (fun e he hp => ?_) s
  have hname := eq_number hconv hkeys he hpos hp
  have hsame := OrderedMap.get_eq_some.mpr he
  rw [hname, hget] at hsame
  cases hsame

end

/-- The property that a tag of a file becomes, if it becomes one. -/
def propertyName (conv : Conversions) (name : QString) : Option QString :=
  match (conv.toUInt name).getD 0 with
  | FT_FILENAME | FT_FILESIZE | FT_FILEHASH | FT_AICH_HASH => none
  | FT_FILECOMMENT => some PROP_DESCRIPTION
  | FT_FILERATING => some PROP_RATING
  | _ => some name

theorem properties_takeFileTag (File : SFileInfo) (tag : QString × QVariant) : (takeFileTag conv File tag).Properties =
      (propertyName conv tag.1).elim File.Properties fun k => File.Properties.insert k tag.2 := by
  unfold takeFileTag propertyName
  split <;> simp_all

theorem property_none {k : QString} (h : ∀ e ∈ L.entries, propertyName conv e.1 ≠ some k)
    (File : SFileInfo) : (L.entries.foldl (takeFileTag conv) File).Properties.get k = File.Properties.get k := by
  refine foldl_part_none (fun File : SFileInfo => File.Properties.get k)
    (p := fun e => propertyName conv e.1 = some k) (fun File e hother => ?_) h File
  rw [properties_takeFileTag]
  cases hname : propertyName conv e.1 with
  | none => rfl
  | some k' =>
    have hne : k ≠ k' := fun hk => hother (hk ▸ hname)
    exact OrderedMap.get_insert_of_ne _ _ hne

/-- A property of a file after its tags, if one tag becomes it. -/
theorem property_some {k : QString} {e : QString × QVariant} (he : e ∈ L.entries)
    (hname : propertyName conv e.1 = some k) (hsame : ∀ e' ∈ L.entries, propertyName conv e'.1 = some k → e'.1 = e.1)
    (File : SFileInfo) : (L.entries.foldl (takeFileTag conv) File).Properties.get k = some e.2 := by
  refine foldl_part_some (fun File : SFileInfo => File.Properties.get k)
    (p := fun e => propertyName conv e.1 = some k) (f := fun e => some e.2) (fun File e hother => ?_)
    (fun File e htag => ?_) he hname (fun e' he' hname' => ?_) File
  · rw [properties_takeFileTag]
    cases hname : propertyName conv e.1 with
    | none => rfl
    | some k' =>
      have hne : k ≠ k' := fun hk => hother (hk ▸ hname)
      exact OrderedMap.get_insert_of_ne _ _ hne
  · rw [properties_takeFileTag, htag]
    exact OrderedMap.get_insert_self _ _ _
  · have hkey := hsame e' he' hname'
    have hget := OrderedMap.get_eq_some.mpr he
    rw [← hkey, OrderedMap.get_eq_some.mpr he'] at hget
    exact hget

/-- A file as it is read from its tags. -/
def loaded (conv : Conversions) (c : CMuleCollection) (File : SFileInfo) : SFileInfo :=
  ((fileTags conv c File).mapValues (asRead conv.toFloat conv.toDouble)).entries.foldl (takeFileTag conv) SFileInfo.new

theorem keysOk_file (hconv : ConversionsOk conv) (hc : IsCollection conv c) (File : SFileInfo) :
    KeysOk conv ((fileTags conv c File).mapValues (asRead conv.toFloat conv.toDouble)) := by
  intro k v hget
  rw [OrderedMap.get_mapValues, get_fileTags hconv hc] at hget
  obtain ⟨w, hw, -⟩ := Option.map_eq_some_iff.mp hget
  split_ifs at hw with h1 h2 h3 h4 hempty h5 h6 h7
  · exact Or.inl ⟨_, by decide, h1⟩
  · exact Or.inl ⟨_, by decide, h2⟩
  · exact Or.inl ⟨_, by decide, h3⟩
  · exact Or.inl ⟨_, by decide, h4⟩
  · exact Or.inl ⟨_, by decide, h5⟩
  · exact Or.inl ⟨_, by decide, h6⟩
  · exact Or.inr (hc.names _ (OrderedMap.get_eq_some.mp hw))

/-- What a file is read as, apart from its properties. -/
theorem loaded_fields (hconv : ConversionsOk conv) (hc : IsCollection conv c) {File : SFileInfo}
    (hmem : File ∈ c.m_Files) : (loaded conv c File).FileName = File.FileName ∧
      (loaded conv c File).FileSize = File.FileSize ∧ (loaded conv c File).HashEd2k = File.HashEd2k ∧
      (loaded conv c File).HashAICH = File.HashAICH := by
  have hkeys := keysOk_file hconv hc File
  have hnames := names_nodup
  simp only [List.nodup_cons, List.mem_cons, List.not_mem_nil, or_false, not_or] at hnames
  have hget : ∀ n, ((fileTags conv c File).mapValues (asRead conv.toFloat conv.toDouble)).get (number n) =
      ((fileTags conv c File).get (number n)).map (asRead conv.toFloat conv.toDouble) := fun n =>
    OrderedMap.get_mapValues _ _ _
  have hhash : (muleHash File.HashEd2k).1 = File.HashEd2k := by
    have hlength := hc.ed2k File hmem
    simp [muleHash, ← hlength]
  refine ⟨?_, ?_, ?_, ?_⟩
  · have hname : (fileTags conv c File).get (number FT_FILENAME) = some (QVariant.string File.FileName) := by
      rw [get_fileTags hconv hc, if_pos rfl]
    have hvalue := taken_some hconv hkeys (takeFileTag conv) SFileInfo.FileName (n := FT_FILENAME) (by decide)
      (by decide) (f := conv.toText) (fun File tag h => by unfold takeFileTag; split <;> simp_all)
      (fun File tag h => by simp [takeFileTag, h]) ((hget _).trans (congrArg _ hname)) SFileInfo.new
    exact hvalue.trans (hconv.toText _)
  · have hsize : (fileTags conv c File).get (number FT_FILESIZE) = some (QVariant.longLong File.FileSize) := by
      simp [get_fileTags hconv hc, Ne.symm hnames.1.1]
    have hvalue := taken_some hconv hkeys (takeFileTag conv) SFileInfo.FileSize (n := FT_FILESIZE) (by decide)
      (by decide) (f := conv.toLong) (fun File tag h => by unfold takeFileTag; split <;> simp_all)
      (fun File tag h => by simp [takeFileTag, h]) ((hget _).trans (congrArg _ hsize)) SFileInfo.new
    exact hvalue.trans (hconv.toLong _)
  · have hed2k : (fileTags conv c File).get (number FT_FILEHASH) =
        some (QVariant.muleHash (muleHash File.HashEd2k)) := by
      simp [get_fileTags hconv hc, Ne.symm hnames.1.2.2.1, Ne.symm hnames.2.1.2.1]
    have hvalue := taken_some hconv hkeys (takeFileTag conv) SFileInfo.HashEd2k (n := FT_FILEHASH) (by decide)
      (by decide) (f := fun v => (conv.toHash v).1) (fun File tag h => by unfold takeFileTag; split <;> simp_all)
      (fun File tag h => by simp [takeFileTag, h]) ((hget _).trans (congrArg _ hed2k)) SFileInfo.new
    exact hvalue.trans ((congrArg Subtype.val (hconv.toHash _)).trans hhash)
  · have haich : (fileTags conv c File).get (number FT_AICH_HASH) =
        if File.HashAICH = [] then none else some (QVariant.string (fromLatin1 File.HashAICH)) := by
      simp [get_fileTags hconv hc, Ne.symm hnames.1.2.1, Ne.symm hnames.2.1.1, hnames.2.2.1.1]
    have hother : ∀ (File : SFileInfo) (tag : QString × QVariant), (conv.toUInt tag.1).getD 0 ≠ FT_AICH_HASH →
        (takeFileTag conv File tag).HashAICH = File.HashAICH := fun File tag h => by
      unfold takeFileTag
      split <;> simp_all
    by_cases hempty : File.HashAICH = []
    · rw [if_pos hempty] at haich
      have hvalue := taken_none hconv hkeys (takeFileTag conv) SFileInfo.HashAICH (n := FT_AICH_HASH) (by decide) hother
        ((hget _).trans (congrArg _ haich)) SFileInfo.new
      exact hvalue.trans hempty.symm
    · rw [if_neg hempty] at haich
      have hvalue := taken_some hconv hkeys (takeFileTag conv) SFileInfo.HashAICH (n := FT_AICH_HASH) (by decide)
        (by decide) (f := fun v => toLatin1 (conv.toText v)) hother (fun File tag h => by simp [takeFileTag, h])
        ((hget _).trans (congrArg _ haich)) SFileInfo.new
      exact hvalue.trans ((congrArg toLatin1 (hconv.toText _)).trans (toLatin1_fromLatin1 _))

theorem propertyName_eq {name k : QString} (h : propertyName conv name = some k) :
    name = k ∧ (∀ n ∈ [FT_FILENAME, FT_FILESIZE, FT_AICH_HASH, FT_FILEHASH, FT_FILECOMMENT, FT_FILERATING],
      (conv.toUInt name).getD 0 ≠ n) ∨ (conv.toUInt name).getD 0 = FT_FILECOMMENT ∧ k = PROP_DESCRIPTION ∨
      (conv.toUInt name).getD 0 = FT_FILERATING ∧ k = PROP_RATING := by
  unfold propertyName at h
  split at h <;> simp_all

section

variable (hconv : ConversionsOk conv) (hc : IsCollection conv c)

include hconv hc

/-- The tag of the comment, the tag of the rating, and what is left of the properties. -/
theorem get_properties (File : SFileInfo) : (fileTags conv c File).get (number FT_FILECOMMENT) =
        (c.m_Properties.get PROP_DESCRIPTION).map (fun v => QVariant.string (conv.toText v)) ∧
      (fileTags conv c File).get (number FT_FILERATING) =
        (c.m_Properties.get PROP_RATING).map (fun v => QVariant.int (conv.toInt v)) ∧
      (fileTags conv c File).get PROP_DESCRIPTION = none ∧ (fileTags conv c File).get PROP_RATING = none ∧
      ∀ k, k ≠ PROP_DESCRIPTION → k ≠ PROP_RATING →
        (∀ n ∈ [FT_FILENAME, FT_FILESIZE, FT_AICH_HASH, FT_FILEHASH, FT_FILECOMMENT, FT_FILERATING],
          (conv.toUInt k).getD 0 ≠ n) → (fileTags conv c File).get k = c.m_Properties.get k := by
  have hnames := names_nodup
  simp only [List.nodup_cons, List.mem_cons, List.not_mem_nil, or_false, not_or] at hnames
  have hnumber : ∀ k n, n ≤ 255 → (conv.toUInt k).getD 0 ≠ n → k ≠ number n := by
    rintro k n hn hne rfl
    rw [hconv.toUInt n hn] at hne
    exact hne rfl
  simp only [get_fileTags hconv hc]
  refine ⟨by grind, by grind, by grind, by grind, fun k hdescription hrating hk => ?_⟩
  simp only [List.forall_mem_cons] at hk
  obtain ⟨h1, h2, h3, h4, h5, h6, -⟩ := hk
  rw [if_neg (hnumber k _ (by decide) h1), if_neg (hnumber k _ (by decide) h2), if_neg (hnumber k _ (by decide) h4),
    if_neg (hnumber k _ (by decide) h3), if_neg (hnumber k _ (by decide) h5), if_neg (hnumber k _ (by decide) h6),
    if_neg (not_or.mpr ⟨hdescription, hrating⟩)]

/-- A file is read with the properties of the collection. -/
theorem loaded_properties (File : SFileInfo) :
    (loaded conv c File).Properties = c.m_Properties.mapValues (asRead conv.toFloat conv.toDouble) := by
  obtain ⟨hcomment, hrating, hnodescription, hnorating, hother⟩ := get_properties hconv hc File
  have hnames := names_nodup
  simp only [List.nodup_cons, List.mem_cons, List.not_mem_nil, or_false, not_or] at hnames
  have hkeys := keysOk_file hconv hc File
  unfold loaded
  set L := (fileTags conv c File).mapValues (asRead conv.toFloat conv.toDouble)
  have hL : ∀ k, L.get k = ((fileTags conv c File).get k).map (asRead conv.toFloat conv.toDouble) := fun k =>
    OrderedMap.get_mapValues _ _ _
  have hentry : ∀ e ∈ L.entries, ∃ v, (fileTags conv c File).get e.1 = some v := by
    intro e he
    have hget := OrderedMap.get_eq_some.mpr he
    rw [hL] at hget
    obtain ⟨v, hv, -⟩ := Option.map_eq_some_iff.mp hget
    exact ⟨v, hv⟩
  -- The entries that become the comment, and those that become the rating.
  have hdescriptions : ∀ e ∈ L.entries, propertyName conv e.1 = some PROP_DESCRIPTION →
      e.1 = number FT_FILECOMMENT := by
    intro e he hname
    obtain ⟨v, hv⟩ := hentry e he
    rcases propertyName_eq hname with ⟨hk, -⟩ | ⟨hnumber, -⟩ | ⟨-, hk⟩
    · rw [hk, hnodescription] at hv
      cases hv
    · exact eq_number hconv hkeys he (by decide) hnumber
    · exact absurd hk hnames.2.2.2.2.2.2.2.2.2.1
  have hratings : ∀ e ∈ L.entries, propertyName conv e.1 = some PROP_RATING → e.1 = number FT_FILERATING := by
    intro e he hname
    obtain ⟨v, hv⟩ := hentry e he
    rcases propertyName_eq hname with ⟨hk, -⟩ | ⟨-, hk⟩ | ⟨hnumber, -⟩
    · rw [hk, hnorating] at hv
      cases hv
    · exact absurd hk.symm hnames.2.2.2.2.2.2.2.2.2.1
    · exact eq_number hconv hkeys he (by decide) hnumber
  have hfrom : ∀ k key (f : QVariant → QVariant), (fileTags conv c File).get key = (c.m_Properties.get k).map f →
      (∀ v, c.m_Properties.get k = some v → propertyName conv key = some k) →
      (∀ e ∈ L.entries, propertyName conv e.1 = some k → e.1 = key) →
      (∀ v, c.m_Properties.get k = some v →
        asRead conv.toFloat conv.toDouble (f v) = asRead conv.toFloat conv.toDouble v) →
      (L.entries.foldl (takeFileTag conv) SFileInfo.new).Properties.get k =
        (c.m_Properties.get k).map (asRead conv.toFloat conv.toDouble) := by
    intro k key f hget hname hsame hvalue
    cases hproperty : c.m_Properties.get k with
    | none =>
      rw [hproperty, Option.map_none] at hget
      refine property_none (fun e he htag => ?_) SFileInfo.new
      obtain ⟨v, hv⟩ := hentry e he
      rw [hsame e he htag, hget] at hv
      cases hv
    | some v =>
      have htag : L.get key = some (asRead conv.toFloat conv.toDouble v) := by
        rw [hL, hget, hproperty, Option.map_some, Option.map_some, hvalue v hproperty]
      exact property_some (OrderedMap.get_eq_some.mp htag) (hname v hproperty) hsame SFileInfo.new
  refine OrderedMap.ext_get fun k => ?_
  rw [OrderedMap.get_mapValues]
  by_cases hdescription : k = PROP_DESCRIPTION
  · rw [hdescription]
    refine hfrom _ _ _ hcomment (fun _ _ => ?_) hdescriptions fun v hv => ?_
    · rw [propertyName, hconv.toUInt _ (by decide)]
      rfl
    · obtain ⟨s, rfl⟩ := hc.texts PROP_DESCRIPTION (by simp) v hv
      rw [hconv.toText]
  · by_cases hrate : k = PROP_RATING
    · rw [hrate]
      refine hfrom _ _ _ hrating (fun _ _ => ?_) hratings fun v hv => ?_
      · rw [propertyName, hconv.toUInt _ (by decide)]
        rfl
      · obtain ⟨n, rfl | rfl⟩ := hc.rating v hv
        · rw [(hconv.toInt n).1]
        · rw [(hconv.toInt n).2]
          rfl
    · have htags : ∀ e ∈ L.entries, propertyName conv e.1 = some k → e.1 = k ∧
          ∀ n ∈ [FT_FILENAME, FT_FILESIZE, FT_AICH_HASH, FT_FILEHASH, FT_FILECOMMENT, FT_FILERATING],
            (conv.toUInt e.1).getD 0 ≠ n := by
        intro e he hname
        rcases propertyName_eq hname with hk | ⟨-, hk⟩ | ⟨-, hk⟩
        · exact hk
        · exact absurd hk hdescription
        · exact absurd hk hrate
      by_cases hk : ∀ n ∈ [FT_FILENAME, FT_FILESIZE, FT_AICH_HASH, FT_FILEHASH, FT_FILECOMMENT, FT_FILERATING],
          (conv.toUInt k).getD 0 ≠ n
      · refine hfrom k k id ?_ (fun v hv => ?_) (fun e he hname => (htags e he hname).1) fun _ _ => rfl
        · rw [hother k hdescription hrate hk, Option.map_id_fun, id]
        · have hname := hc.names _ (OrderedMap.get_eq_some.mp hv)
          simp [propertyName, hname]
      · have hnone : c.m_Properties.get k = none := by
          refine OrderedMap.get_eq_none.mpr fun v hv => hk fun n hn => ?_
          rw [hc.names _ hv]
          simp only [List.mem_cons, List.not_mem_nil, or_false] at hn
          rcases hn with rfl | rfl | rfl | rfl | rfl | rfl <;> decide
        rw [hnone]
        refine property_none (fun e he hname => hk ?_) SFileInfo.new
        obtain ⟨hkey, hnumbers⟩ := htags e he hname
        rw [hkey] at hnumbers
        exact hnumbers

theorem loaded_eq {File : SFileInfo} (hmem : File ∈ c.m_Files) : loaded conv c File =
      { File with Properties := c.m_Properties.mapValues (asRead conv.toFloat conv.toDouble) } := by
  obtain ⟨hname, hsize, hed2k, haich⟩ := loaded_fields hconv hc hmem
  have hproperties := loaded_properties hconv hc File
  cases hloaded : loaded conv c File
  simp_all

end

end Loading

section Collections

variable {conv : Conversions} {c : CMuleCollection}

/-- A collection as it is read from its tags. -/
def loadedHeader (conv : Conversions) (c : CMuleCollection) (pPrivKey : Option CPrivateKey) : CMuleCollection :=
  ((headerTags conv c pPrivKey).mapValues (asRead conv.toFloat conv.toDouble)).entries.foldl (takeHeaderTag conv)
    CMuleCollection.new

/-- What a collection is read as, apart from its properties. -/
theorem loadedHeader_fields (hconv : ConversionsOk conv) (hc : IsCollection conv c) (pPrivKey : Option CPrivateKey) :
    (loadedHeader conv c pPrivKey).m_CollectionName = c.m_CollectionName ∧
      (loadedHeader conv c pPrivKey).m_CreatorKey = (pPrivKey.map CPrivateKey.publicKey).getD [] ∧
      (loadedHeader conv c pPrivKey).m_Files = [] := by
  have hnames := names_nodup
  simp only [List.nodup_cons, List.mem_cons, List.not_mem_nil, or_false, not_or] at hnames
  have hget : ∀ n, ((headerTags conv c pPrivKey).mapValues (asRead conv.toFloat conv.toDouble)).get (number n) =
      ((headerTags conv c pPrivKey).get (number n)).map (asRead conv.toFloat conv.toDouble) := fun n =>
    OrderedMap.get_mapValues _ _ _
  have hkeys : KeysOk conv ((headerTags conv c pPrivKey).mapValues (asRead conv.toFloat conv.toDouble)) := by
    intro k v hk
    rw [OrderedMap.get_mapValues, get_headerTags hconv hc] at hk
    obtain ⟨w, hw, -⟩ := Option.map_eq_some_iff.mp hk
    split_ifs at hw with h1 h2 h3 h4
    · exact Or.inl ⟨_, by decide, h1⟩
    · exact Or.inl ⟨_, by decide, h2⟩
    · exact Or.inl ⟨_, by decide, h3⟩
    · exact Or.inr (hc.names _ (OrderedMap.get_eq_some.mp hw))
  refine ⟨?_, ?_, ?_⟩
  · have hname : (headerTags conv c pPrivKey).get (number FT_FILENAME) = some (QVariant.string c.m_CollectionName) := by
      rw [get_headerTags hconv hc, if_pos rfl]
    have hvalue := taken_some hconv hkeys (takeHeaderTag conv) CMuleCollection.m_CollectionName (n := FT_FILENAME)
      (by decide) (by decide) (f := conv.toText) (fun c tag h => by unfold takeHeaderTag; split <;> simp_all)
      (fun c tag h => by simp [takeHeaderTag, h]) ((hget _).trans (congrArg _ hname)) CMuleCollection.new
    exact hvalue.trans (hconv.toText _)
  · have hkey : (headerTags conv c pPrivKey).get (number FT_COLLECTIONAUTHORKEY) =
        pPrivKey.map fun key => QVariant.byteArray key.publicKey := by
      simp [get_headerTags hconv hc, Ne.symm hnames.1.2.2.2.2.1, Ne.symm hnames.2.2.2.2.1.1]
    have hother : ∀ (c : CMuleCollection) (tag : QString × QVariant),
        (conv.toUInt tag.1).getD 0 ≠ FT_COLLECTIONAUTHORKEY →
        (takeHeaderTag conv c tag).m_CreatorKey = c.m_CreatorKey := fun c tag h => by
      unfold takeHeaderTag
      split <;> simp_all
    cases pPrivKey with
    | none =>
      exact taken_none hconv hkeys (takeHeaderTag conv) CMuleCollection.m_CreatorKey (n := FT_COLLECTIONAUTHORKEY)
        (by decide) hother ((hget _).trans (congrArg _ hkey)) CMuleCollection.new
    | some key =>
      have hvalue := taken_some hconv hkeys (takeHeaderTag conv) CMuleCollection.m_CreatorKey
        (n := FT_COLLECTIONAUTHORKEY) (by decide) (by decide) (f := conv.toBytes) hother
        (fun c tag h => by simp [takeHeaderTag, h]) ((hget _).trans (congrArg _ hkey)) CMuleCollection.new
      exact hvalue.trans (hconv.toBytes _)
  · refine foldl_part_none CMuleCollection.m_Files (p := fun _ => False) (fun c tag _ => ?_) (fun _ _ h => h) _
    unfold takeHeaderTag
    split <;> rfl

theorem foldl_files (l : List SFileInfo) (c' : CMuleCollection) :
    l.foldl (fun c' File => { c' with m_Files := c'.m_Files ++ [loaded conv c File] }) c' =
      { c' with m_Files := c'.m_Files ++ l.map (loaded conv c) } := by
  induction l generalizing c' with
  | nil => simp
  | cons File l ih =>
    rw [List.foldl_cons, ih]
    simp

section

variable (hconv : ConversionsOk conv) (hc : IsCollection conv c) {pPrivKey : Option CPrivateKey}
  (hfits : Fits c pPrivKey)

include hconv hc hfits

/-- A saved collection is read. -/
theorem reads_collection : Reads (readCollection conv) (saveTags conv c pPrivKey)
      { loadedHeader conv c pPrivKey with m_Files := c.m_Files.map (loaded conv c) } := by
  have hfile : ∀ c', ∀ File ∈ c.m_Files, Reads (addFile conv c')
      (writeTags conv.toUInt conv.toFloat (fileTags conv c File) true false)
      { c' with m_Files := c'.m_Files ++ [loaded conv c File] } := by
    intro c' File hmem
    have hread : Reads (readFile conv) (writeTags conv.toUInt conv.toFloat (fileTags conv c File) true false)
        (loaded conv c File) :=
      reads_bind_pure (reads_tags hconv.toUInt (fileTags_ok hconv hc hfits hmem) true)
    exact reads_bind_pure (f := fun File => { c' with m_Files := c'.m_Files ++ [File] }) hread
  have hfiles := reads_times hfile (loadedHeader conv c pPrivKey)
  rw [foldl_files, (loadedHeader_fields hconv hc pPrivKey).2.2, List.nil_append] at hfiles
  have hcount : c.m_Files.length < 256 ^ 4 := hfits.count.trans_eq (by decide)
  rw [saveTags, List.append_assoc]
  refine reads_bind (reads_number (n := 4) (k := 2) (by decide)) ?_
  exact reads_bind (reads_tags hconv.toUInt (headerTags_ok hconv hc hfits) true)
    (reads_bind (reads_number hcount) hfiles)

/-- A saved collection is accepted. -/
theorem loadFromData_saved (hkey : KeyOk conv pPrivKey) (FileName : QString) :
    loadFromData conv (saveToData conv c pPrivKey) FileName = some (true,
      { loadedHeader conv c pPrivKey with m_Files := c.m_Files.map (loaded conv c) }) := by
  have hread := reads_collection hconv hc hfits
  obtain ⟨-, hcreator, -⟩ := loadedHeader_fields hconv hc pPrivKey
  have hload : ∀ signature, loadTags conv (saveTags conv c pPrivKey ++ signature) =
      if (loadedHeader conv c pPrivKey).m_CreatorKey = [] then (true,
        { loadedHeader conv c pPrivKey with m_Files := c.m_Files.map (loaded conv c) })
      else (signature ≠ [] &&
          conv.verify (loadedHeader conv c pPrivKey).m_CreatorKey (saveTags conv c pPrivKey) signature,
        { loadedHeader conv c pPrivKey with m_Files := c.m_Files.map (loaded conv c) }) := by
    intro signature
    have htake : (saveTags conv c pPrivKey ++ signature).take
        ((saveTags conv c pPrivKey ++ signature).length - signature.length) = saveTags conv c pPrivKey := by
      rw [List.length_append, Nat.add_sub_cancel, List.take_left]
    rw [loadTags, hread signature]
    simp only [htake]
  have hfirst : ∀ signature, (saveTags conv c pPrivKey ++ signature)[0]? = some 2 := fun _ => rfl
  have hne : (2 : UInt8) ≠ 35 := by decide
  cases pPrivKey with
  | none =>
    have hdata : saveToData conv c none = saveTags conv c none ++ [] := (List.append_nil _).symm
    have hempty : (loadedHeader conv c none).m_CreatorKey = [] := hcreator
    rw [hdata, loadFromData, hfirst, Option.bind_eq_bind, Option.bind_some, if_neg hne, hload, if_pos hempty]
    rfl
  | some key =>
    obtain ⟨hrsa, hsign⟩ := hkey key rfl
    obtain ⟨hsignature, hverify⟩ := hsign (saveTags conv c (some key))
    have hdata : saveToData conv c (some key) =
        saveTags conv c (some key) ++ key.sign (saveTags conv c (some key)) := by simp [saveToData, hrsa]
    have hpublic : (loadedHeader conv c (some key)).m_CreatorKey = key.publicKey := hcreator
    rw [hdata, loadFromData, hfirst]
    simp [hne, hload, hpublic, hsignature, hverify]

end

end Collections

section Results

/-- A file as it is read if nothing is lost: numbers without a sign, and in single precision. -/
def fileRead (conv : Conversions) (File : SFileInfo) : SFileInfo :=
  { File with Properties := File.Properties.mapValues (asRead conv.toFloat conv.toDouble) }

/-- The data of a collection are read back. -/
def DataRight (conv : Conversions) (c : CMuleCollection) (pPrivKey : Option CPrivateKey) (FileName : QString) : Prop :=
  ∃ c', loadFromData conv (saveToData conv c pPrivKey) FileName = some (true, c') ∧
    c'.m_CollectionName = c.m_CollectionName ∧ c'.m_Files = c.m_Files.map (fileRead conv)

variable {conv : Conversions} {c : CMuleCollection}

/-- The data of a collection are read back exactly if each file has the properties of the collection. -/
theorem dataRight_iff (hconv : ConversionsOk conv) (hc : IsCollection conv c) {pPrivKey : Option CPrivateKey}
    (hfits : Fits c pPrivKey) (hkey : KeyOk conv pPrivKey) (FileName : QString) :
    DataRight conv c pPrivKey FileName ↔ ∀ File ∈ c.m_Files,
      File.Properties.mapValues (asRead conv.toFloat conv.toDouble) =
        c.m_Properties.mapValues (asRead conv.toFloat conv.toDouble) := by
  have hload := loadFromData_saved hconv hc hfits hkey FileName
  have hname := (loadedHeader_fields hconv hc pPrivKey).1
  have hfiles : DataRight conv c pPrivKey FileName ↔ c.m_Files.map (loaded conv c) = c.m_Files.map (fileRead conv) := by
    constructor
    · rintro ⟨c', hc', -, hfiles⟩
      rw [hload] at hc'
      cases hc'
      exact hfiles
    · exact fun hfiles => ⟨_, hload, hname, hfiles⟩
  rw [hfiles, List.map_inj_left]
  refine forall₂_congr fun File hmem => ?_
  rw [loaded_eq hconv hc hmem, fileRead]
  constructor
  · exact fun h => (congrArg SFileInfo.Properties h).symm
  · exact fun h => congrArg (fun P => { File with Properties := P }) h.symm

/-- Reading a collection looks at a byte outside of the data exactly if there are none. -/
theorem loadFromData_ne_none_iff (conv : Conversions) (Data : List UInt8) (FileName : QString) :
    loadFromData conv Data FileName ≠ none ↔ Data ≠ [] := by
  have hsegment : ∀ File Segment, ∃ File', loadSegment conv File Segment = some File' := by
    intro File Segment
    rw [loadSegment]
    split_ifs with hlength
    · rcases hsplit : Segment.splitOn 124 with _ | ⟨s0, _ | ⟨s1, _ | ⟨s2, _ | ⟨s3, _ | ⟨s4, rest⟩⟩⟩⟩⟩
      case cons.cons.cons.cons.cons =>
        by_cases hkind : toLower s1 = ascii "file"
        · exact ⟨_, by simp [hkind]; rfl⟩
        · exact ⟨File, by simp [hkind]⟩
      all_goals simp [hsplit] at hlength
    · exact ⟨File, rfl⟩
  have hline : ∀ Files Line, ∃ Files', loadLine conv Files (Line ++ [10]) = some Files' := by
    intro Files Line
    have hfold : ∀ (l : List (List UInt8)) File, ∃ File', l.foldlM (loadSegment conv) File = some File' := by
      intro l
      induction l with
      | nil => exact fun File => ⟨File, rfl⟩
      | cons Segment l ih =>
        intro File
        obtain ⟨File', hfile⟩ := hsegment File Segment
        obtain ⟨File'', hrest⟩ := ih File'
        exact ⟨File'', by simp [hfile, hrest]⟩
    obtain ⟨File, hfile⟩ := hfold ((Line ++ [10]).splitOn 47) SFileInfo.new
    obtain ⟨first, hfirst⟩ : ∃ first, (Line ++ [10])[0]? = some first := by
      cases Line with
      | nil => exact ⟨10, rfl⟩
      | cons b _ => exact ⟨b, rfl⟩
    by_cases hcomment : first = 35
    · refine ⟨Files, ?_⟩
      rw [loadLine, hfirst, Option.bind_eq_bind, Option.bind_some, if_pos hcomment]
      rfl
    · refine ⟨Files ++ [File], ?_⟩
      rw [loadLine, hfirst, Option.bind_eq_bind, Option.bind_some, if_neg hcomment, hfile]
      rfl
  have hlines : ∀ (l : List (List UInt8)) Files, ∃ Files', (l.map (· ++ [10])).foldlM (loadLine conv) Files =
      some Files' := by
    intro l
    induction l with
    | nil => exact fun Files => ⟨Files, rfl⟩
    | cons Line l ih =>
      intro Files
      obtain ⟨Files', hfiles⟩ := hline Files Line
      obtain ⟨Files'', hrest⟩ := ih Files'
      exact ⟨Files'', by simp [hfiles, hrest]⟩
  cases Data with
  | nil => simp [loadFromData]
  | cons b bs =>
    obtain ⟨Files, hfiles⟩ := hlines ((b :: bs).splitOn 10).dropLast []
    have hread : (lines (b :: bs)).foldlM (loadLine conv) [] = some Files := hfiles
    by_cases hb : b = 35
    · rw [hb] at hread
      simp [loadFromData, hb, hread]
    · simp [loadFromData, hb]

/-- The data of a collection are read back exactly if each file has the properties of the collection, its text exactly
if no byte of a name is marked, and an index lies outside of the data exactly if there are none. -/
theorem collection_right_iff (hconv : ConversionsOk conv) (hc : IsCollection conv c) (pPrivKey : Option CPrivateKey)
    (FileName : QString) (Data : List UInt8) :
    (Fits c pPrivKey → KeyOk conv pPrivKey → (DataRight conv c pPrivKey FileName ↔ ∀ File ∈ c.m_Files,
      File.Properties.mapValues (asRead conv.toFloat conv.toDouble) =
        c.m_Properties.mapValues (asRead conv.toFloat conv.toDouble))) ∧
      (TextRight conv c FileName ↔ ∀ File ∈ c.m_Files, IsPlain File.FileName ∧ NameUnmarked File.FileName) ∧
      (loadFromData conv Data FileName ≠ none ↔ Data ≠ []) :=
  ⟨fun hfits hkey => dataRight_iff hconv hc hfits hkey FileName, textRight_iff conv FileName hc.aich,
    loadFromData_ne_none_iff conv Data FileName⟩

/-- Conversions of values of their own kind. -/
def plainConversions : Conversions where
  toUInt := decimal
  toFloat _ := 0
  toDouble _ := 0
  toText
    | QVariant.string value => value
    | QVariant.int value | QVariant.uInt value => number value.toNat
    | _ => []
  toLong
    | QVariant.longLong value | QVariant.uLongLong value => value
    | _ => 0
  toInt
    | QVariant.int value | QVariant.uInt value => value
    | _ => 0
  toBytes
    | QVariant.byteArray value => value
    | _ => []
  toHash
    | QVariant.muleHash hash => hash
    | _ => muleHash []
  toULongLong bytes := UInt64.ofNat ((decimal (fromLatin1 bytes)).getD 0)
  baseName name := name.takeWhile (· ≠ 46)
  verify _ _ _ := false

theorem plainConversions_ok : ConversionsOk plainConversions :=
  ⟨by decide +kernel, fun _ => rfl, fun _ => rfl, fun _ => ⟨rfl, rfl⟩, fun _ => rfl, fun _ => rfl⟩

/-- The properties with a comment. -/
def oneProperty : QVariantMap := OrderedMap.empty.insert PROP_DESCRIPTION (QVariant.string [120])

/-- A file of a name, with properties. -/
def oneFile (FileName : QString) (Properties : QVariantMap) : SFileInfo :=
  ⟨FileName, 5, List.replicate 16 1, ascii "AB", Properties⟩

/-- A collection of one file. -/
def oneCollection (FileName : QString) (m_Properties Properties : QVariantMap) : CMuleCollection :=
  ⟨[99], m_Properties, [oneFile FileName Properties], []⟩

/-- Collections of one file, with and without a comment. -/
theorem oneCollection_ok (FileName : QString) (Properties : QVariantMap) :
    IsCollection plainConversions (oneCollection FileName oneProperty Properties) ∧
      IsCollection plainConversions (oneCollection FileName OrderedMap.empty Properties) := by
  have hed2k : ∀ File ∈ [oneFile FileName Properties], File.HashEd2k.length = 16 :=
    List.forall_mem_singleton.mpr rfl
  have haich : ∀ File ∈ [oneFile FileName Properties], ∀ b ∈ File.HashAICH, isBase32 b = true :=
    List.forall_mem_singleton.mpr (List.all_eq_true.mp (show (ascii "AB").all isBase32 = true by decide))
  have hget : ∀ name v, oneProperty.get name = some v → name = PROP_DESCRIPTION ∧ v = QVariant.string [120] := by
    intro name v hv
    rw [oneProperty, get_insert] at hv
    split_ifs at hv with hname
    · exact ⟨hname, (Option.some.inj hv).symm⟩
    · cases hv
  refine ⟨⟨fun e he => ?_, fun name _ v hv => ?_, fun v hv => ?_, hed2k, haich⟩, ⟨?_, ?_, ?_, hed2k, haich⟩⟩
  · rw [(hget e.1 e.2 (OrderedMap.get_eq_some.mpr he)).1]
    decide
  · exact ⟨_, (hget name v hv).2⟩
  · exact absurd (hget _ v hv).1 (by decide)
  · exact fun e he => absurd he (by simp [oneCollection, OrderedMap.empty])
  · exact fun name _ v hv => by cases hv
  · exact fun v hv => by cases hv

/-- A collection of one file fits into tags. -/
theorem oneCollection_fits (Properties : QVariantMap) : Fits (oneCollection [97, 32, 98] oneProperty Properties) none ∧
      Fits (oneCollection [97, 32, 98] OrderedMap.empty Properties) none := by
  have hentry : ∀ e ∈ oneProperty.entries, e = (PROP_DESCRIPTION, QVariant.string [120]) := fun e he =>
    List.mem_singleton.mp he
  have hfiles : ∀ File ∈ [oneFile [97, 32, 98] Properties], ValueOk (QVariant.string File.FileName) ∧
      ValueOk (QVariant.string (fromLatin1 File.HashAICH)) := by
    refine List.forall_mem_singleton.mpr ⟨?_, ?_⟩
    · exact show ValueOk (QVariant.string [97, 32, 98]) from ⟨by decide, by decide⟩
    · exact show ValueOk (QVariant.string [65, 66]) from ⟨by decide, by decide⟩
  have hcollection : ValueOk (QVariant.string [99]) := ⟨by decide, by decide⟩
  have hnone : ∀ e, e ∉ (OrderedMap.empty : QVariantMap).entries := fun e he => by simp [OrderedMap.empty] at he
  have hone : (1 : ℕ) + 6 < 2 ^ 32 := by decide
  have hzero : (0 : ℕ) + 6 < 2 ^ 32 := by decide
  have hcount : (1 : ℕ) < 2 ^ 32 := by decide
  refine ⟨⟨fun e he => ?_, fun e he => ?_, hcollection, hfiles, hone, hcount, fun _ hkey => ?_⟩,
    ⟨fun e he => absurd he (hnone e), fun e he => absurd he (hnone e), hcollection, hfiles, hzero, hcount,
      fun _ hkey => ?_⟩⟩
  · rw [hentry e he]
    exact ⟨by decide, by decide, List.all_iff_forall_prop.mp (by decide), by decide⟩
  · rw [hentry e he]
    exact show ValueOk (QVariant.string [120]) from ⟨by decide, by decide⟩
  · cases hkey
  · cases hkey

theorem spaced_unmarked : IsPlain [97, 32, 98] ∧ NameUnmarked [97, 32, 98] := by
  have hbytes : toUtf8 [97, 32, 98] = [97, 32, 98] := by decide
  refine ⟨⟨['a', ' ', 'b'], by decide, by decide, by decide⟩, ?_⟩
  rw [NameUnmarked, hbytes]
  simp [IsUnmarked, marker, unreserved]

/-- A collection with a comment and a file of this comment is read back. -/
theorem collection_right_one : DataRight plainConversions (oneCollection [97, 32, 98] oneProperty oneProperty) none [] ∧
    TextRight plainConversions (oneCollection [97, 32, 98] oneProperty oneProperty) [] ∧
    loadFromData plainConversions [35] [] ≠ none := by
  have hright := collection_right_iff plainConversions_ok (oneCollection_ok [97, 32, 98] oneProperty).1 none [] [35]
  have hfile : ∀ File ∈ (oneCollection [97, 32, 98] oneProperty oneProperty).m_Files,
      File = oneFile [97, 32, 98] oneProperty := fun File hmem => List.mem_singleton.mp hmem
  refine ⟨(hright.1 (oneCollection_fits oneProperty).1 (fun _ hkey => by cases hkey)).mpr fun File hmem => ?_,
    hright.2.1.mpr fun File hmem => ?_, hright.2.2.mpr (by simp)⟩
  · rw [hfile File hmem]
    rfl
  · rw [hfile File hmem]
    exact spaced_unmarked

/-- A comment of a file is lost, a slash in a name is not read back from the text, and no data have no first byte. -/
theorem collection_wrong :
    ¬ DataRight plainConversions (oneCollection [97, 32, 98] OrderedMap.empty oneProperty) none [] ∧
      ¬ TextRight plainConversions (oneCollection [47] OrderedMap.empty oneProperty) [] ∧
      loadFromData plainConversions [] [] = none := by
  refine ⟨fun hdata => ?_, fun htext => ?_, rfl⟩
  · have hlost := (dataRight_iff plainConversions_ok (oneCollection_ok [97, 32, 98] oneProperty).2
      (oneCollection_fits oneProperty).2 (fun _ hkey => by cases hkey) []).mp hdata _ (List.mem_singleton.mpr rfl)
    have hsize := congrArg OrderedMap.size hlost
    exact absurd hsize (by decide)
  · obtain ⟨-, hunmarked⟩ := (textRight_iff plainConversions [] (oneCollection_ok [47] oneProperty).2.aich).mp htext _
      (List.mem_singleton.mpr rfl)
    have hmark := hunmarked 47 (by decide) 2 (by decide)
    exact absurd hmark (by decide)

end Results

end NeoLoader.CollectionTags
