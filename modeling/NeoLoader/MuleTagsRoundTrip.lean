import NeoLoader.BufferReader
import NeoLoader.MuleTags

/-!
# Reading back eMule tags

Names and values are read back from their bytes, and so are whole lists of tags.
-/

namespace NeoLoader.MuleTagsRoundTrip

open Buffer BufferRuns BufferReader ByteReader KeyMap MuleTags

section Characters

theorem toNat_byte {n : ℕ} (h : n < 256) : (UInt8.ofNat n).toNat = n := by
  rw [UInt8.toNat_ofNat']
  exact Nat.mod_eq_of_lt h

theorem or_low {i a high : ℕ} (h : a < 2 ^ i) (n : ℕ) (hhigh : high = 2 ^ i * n) : high ||| a = high + a := by
  rw [hhigh]
  exact (Nat.two_pow_add_eq_or_of_lt h n).symm

theorem and_mask (n mask : ℕ) {k : ℕ} (hmask : mask = 2 ^ k - 1) : n &&& mask = n % 2 ^ k := by
  rw [hmask]
  exact Nat.and_two_pow_sub_one_eq_mod n k

/-- The bytes of a character as numbers. -/
theorem charToUtf8_eq {w : ℕ} (h : w < 2 ^ 16) : charToUtf8 w = if w ≤ 0x7f then [UInt8.ofNat w]
    else if w ≤ 0x7ff then [UInt8.ofNat (192 + w / 64), UInt8.ofNat (128 + w % 64)]
    else [UInt8.ofNat (224 + w / 4096), UInt8.ofNat (128 + w / 64 % 64), UInt8.ofNat (128 + w % 64)] := by
  have hlow : 0x80 ||| (w &&& 0x3f) = 128 + w % 64 := by
    rw [and_mask (k := 6) w 0x3f rfl]
    exact or_low (i := 6) (Nat.mod_lt _ (by omega)) 2 rfl
  have hmid : 0x80 ||| (w >>> 6 &&& 0x3f) = 128 + w / 64 % 64 := by
    rw [and_mask (k := 6) (w >>> 6) 0x3f rfl, Nat.shiftRight_eq_div_pow]
    exact or_low (i := 6) (Nat.mod_lt _ (by omega)) 2 rfl
  unfold charToUtf8
  split_ifs with hone htwo
  · rfl
  · have hfirst : 0xc0 ||| (w >>> 6 &&& 0x1f) = 192 + w / 64 := by
      rw [and_mask (k := 5) (w >>> 6) 0x1f rfl, Nat.shiftRight_eq_div_pow, Nat.mod_eq_of_lt (by omega)]
      exact or_low (i := 5) (by omega) 6 rfl
    rw [hlow, hfirst]
  · have hfirst : 0xe0 ||| (w >>> 12 &&& 0x0f) = 224 + w / 4096 := by
      rw [and_mask (k := 4) (w >>> 12) 0x0f rfl, Nat.shiftRight_eq_div_pow, Nat.mod_eq_of_lt (by omega)]
      exact or_low (i := 4) (by omega) 14 rfl
    rw [hlow, hmid, hfirst]

theorem utf8ToWStrLoop_zero (w w' : ℕ) (src : List UInt8) : utf8ToWStrLoop w 0 src = utf8ToWStrLoop w' 0 src := by
  induction src with
  | nil => rfl
  | cons c src ih => simp [utf8ToWStrLoop, ih]

theorem utf8ToWStrLoop_two {a : ℕ} (h : a < 32) (w bytes : ℕ) (src : List UInt8) :
    utf8ToWStrLoop w bytes (UInt8.ofNat (192 + a) :: src) = utf8ToWStrLoop a 1 src := by
  have hbyte := toNat_byte (show 192 + a < 256 by omega)
  have hand : (192 + a) &&& 0x1f = a := by
    rw [and_mask (k := 5) (192 + a) 0x1f rfl]
    omega
  rw [utf8ToWStrLoop, hbyte, if_neg (by omega), if_neg (by omega), if_pos (by omega), hand]

theorem utf8ToWStrLoop_three {a : ℕ} (h : a < 16) (w bytes : ℕ) (src : List UInt8) :
    utf8ToWStrLoop w bytes (UInt8.ofNat (224 + a) :: src) = utf8ToWStrLoop a 2 src := by
  have hbyte := toNat_byte (show 224 + a < 256 by omega)
  have hand : (224 + a) &&& 0x0f = a := by
    rw [and_mask (k := 4) (224 + a) 0x0f rfl]
    omega
  rw [utf8ToWStrLoop, hbyte, if_neg (by omega), if_neg (by omega), if_neg (by omega), if_pos (by omega), hand]

/-- A later byte. -/
theorem utf8ToWStrLoop_later {a w : ℕ} (h : a < 64) (hw : w * 64 + a < 2 ^ 16) (bytes : ℕ) (src : List UInt8) :
    utf8ToWStrLoop w (bytes + 1) (UInt8.ofNat (128 + a) :: src) =
      if bytes = 0 then UInt16.ofNat (w * 64 + a) :: utf8ToWStrLoop (w * 64 + a) bytes src
      else utf8ToWStrLoop (w * 64 + a) bytes src := by
  have hbyte := toNat_byte (show 128 + a < 256 by omega)
  have hbits : (w <<< 6 ||| ((128 + a) &&& 0x3f)) % 2 ^ 16 = w * 64 + a := by
    rw [and_mask (k := 6) (128 + a) 0x3f rfl, show (128 + a) % 2 ^ 6 = a by omega,
      ← Nat.shiftLeft_add_eq_or_of_lt (show a < 2 ^ 6 by omega), Nat.shiftLeft_eq]
    omega
  rw [utf8ToWStrLoop, hbyte, if_neg (by omega), if_pos (by omega), if_pos (by omega), hbits, Nat.add_sub_cancel]

/-- A character is read back. -/
theorem utf8ToWStrLoop_charToUtf8 (w : ℕ) (c : UInt16) (src : List UInt8) :
    utf8ToWStrLoop w 0 (charToUtf8 c.toNat ++ src) = c :: utf8ToWStrLoop w 0 src := by
  have hlt := c.toNat_lt
  have hc : UInt16.ofNat c.toNat = c := UInt16.ofNat_toNat
  generalize c.toNat = n at hlt hc
  rw [charToUtf8_eq hlt]
  split_ifs with hone htwo
  · rw [List.cons_append, utf8ToWStrLoop, toNat_byte (by omega), if_pos hone, hc]
    rfl
  · rw [List.cons_append, utf8ToWStrLoop_two (by omega), List.cons_append,
      utf8ToWStrLoop_later (by omega) (by omega), if_pos rfl,
      show n / 64 * 64 + n % 64 = n by omega, hc, utf8ToWStrLoop_zero n w]
    rfl
  · rw [List.cons_append, utf8ToWStrLoop_three (by omega), List.cons_append,
      utf8ToWStrLoop_later (by omega) (by omega), if_neg (by omega), List.cons_append,
      utf8ToWStrLoop_later (by omega) (by omega), if_pos rfl,
      show (n / 4096 * 64 + n / 64 % 64) * 64 + n % 64 = n by omega, hc,
      utf8ToWStrLoop_zero n w]
    rfl

theorem utf8ToWStr_wStrToUtf8 (src : QString) : utf8ToWStr (wStrToUtf8 src) = src := by
  unfold utf8ToWStr
  induction src with
  | nil => rfl
  | cons c src ih =>
    rw [wStrToUtf8, List.flatMap_cons, utf8ToWStrLoop_charToUtf8]
    exact congrArg (c :: ·) ih

theorem asciiToWStr_wStrToAscii {src : QString} (h : ∀ c ∈ src, c.toNat ≤ 0xff) :
    asciiToWStr (wStrToAscii src) = src := by
  unfold asciiToWStr wStrToAscii
  rw [List.map_map]
  refine (List.map_congr_left fun c hc => ?_).trans (List.map_id src)
  have hle := h c hc
  rw [Function.comp_apply, if_pos hle, toNat_byte (by omega), UInt16.ofNat_toNat]
  rfl

end Characters

section Tags

/-- Values that are read back: strings with a length of two bytes that do not begin with a
byte order mark, and what is not a truth value. -/
def ValueOk : QVariant → Prop
  | QVariant.string value => (wStrToUtf8 value).length < 2 ^ 16 ∧ value.head? ≠ some 0xFEFF
  | QVariant.byteArray value => value.length < 2 ^ 32
  | QVariant.bool _ | QVariant.invalid => False
  | _ => True

/-- Names that are read back: the numbers of one byte, and names that are no such number,
have one byte characters, do not have a length of one and do not begin with a byte order
mark. -/
def NameOk (toUInt : QString → Option ℕ) (name : QString) : Prop :=
  (∃ uName ≤ 255, name = number uName) ∨ nummeric toUInt name = none ∧ name.length ≠ 1 ∧ name.length < 2 ^ 16 ∧
      (∀ c ∈ name, c.toNat ≤ 0xff) ∧ name.take 3 ≠ [0xEF, 0xBB, 0xBF]

/-- The value that is read for one that was written: numbers without a sign, and in single
precision. -/
def asRead (toFloat : UInt64 → UInt32) (toDouble : UInt32 → UInt64) : QVariant → QVariant
  | QVariant.int value => QVariant.uInt value
  | QVariant.longLong value => QVariant.uLongLong value
  | QVariant.double value => QVariant.double (toDouble (toFloat value))
  | value => value

/-- Maps of tags that are read back: their number has its one or four bytes, and their
names and values are read back. -/
structure TagsOk (toUInt : QString → Option ℕ) (bShort : Bool) (tags : QVariantMap) : Prop where
  /-- The number of tags fits. -/
  size : tags.size < 256 ^ (if bShort then 1 else 4)
  /-- The names. -/
  names : ∀ tag ∈ tags.entries, NameOk toUInt tag.1
  /-- The values. -/
  values : ∀ tag ∈ tags.entries, ValueOk tag.2

/-- A string whose bytes begin with a byte order mark does so itself. -/
theorem head_of_bom {value : QString} (h : (wStrToUtf8 value).take 3 = bom) : value.head? = some 0xFEFF := by
  cases value with
  | nil => simp [wStrToUtf8, bom] at h
  | cons c value =>
    have hlt := c.toNat_lt
    rw [List.head?_cons]
    rw [wStrToUtf8, List.flatMap_cons, charToUtf8_eq hlt, bom] at h
    have hc : c.toNat = 0xFEFF := by
      split_ifs at h with hone htwo
      · have hfirst := congrArg (List.map UInt8.toNat) h
        simp only [List.cons_append, List.take_succ_cons, List.map_cons, List.cons.injEq] at hfirst
        rw [toNat_byte (by omega)] at hfirst
        have h0 := hfirst.1
        change c.toNat = 239 at h0
        omega
      · have hfirst := congrArg (List.map UInt8.toNat) h
        simp only [List.cons_append, List.take_succ_cons, List.map_cons, List.cons.injEq] at hfirst
        rw [toNat_byte (by omega)] at hfirst
        have h0 := hfirst.1
        change 192 + c.toNat / 64 = 239 at h0
        omega
      · have hfirst := congrArg (List.map UInt8.toNat) h
        simp only [List.cons_append, List.take_succ_cons, List.map_cons, List.cons.injEq] at hfirst
        rw [toNat_byte (by omega), toNat_byte (by omega), toNat_byte (by omega)] at hfirst
        obtain ⟨h0, h1, h2, -⟩ := hfirst
        change 224 + c.toNat / 4096 = 239 at h0
        change 128 + c.toNat / 64 % 64 = 187 at h1
        change 128 + c.toNat % 64 = 191 at h2
        omega
    exact congrArg some (UInt16.toNat_inj.mp hc)

theorem reads_utf8 {value : QString} (hbom : value.head? ≠ some 0xFEFF) :
    Reads (readString EStrSet.eUtf8 (wStrToUtf8 value).length) (wStrToUtf8 value) value := by
  have hdecode : decodeString EStrSet.eUtf8 (wStrToUtf8 value) = value := by
    rw [decodeString, if_neg fun h => hbom (head_of_bom h)]
    exact utf8ToWStr_wStrToUtf8 value
  have hraw := reads_bind_pure (f := decodeString EStrSet.eUtf8) (reads_bytes (wStrToUtf8 value))
  rwa [hdecode] at hraw

/-- The bytes of a name are read back. -/
theorem reads_ascii {name : QString} (hchars : ∀ c ∈ name, c.toNat ≤ 0xff) (hbom : name.take 3 ≠ [0xEF, 0xBB, 0xBF]) :
    Reads (readString EStrSet.eAscii (wStrToAscii name).length) (wStrToAscii name) name := by
  have hback := asciiToWStr_wStrToAscii hchars
  have hdecode : decodeString EStrSet.eAscii (wStrToAscii name) = name := by
    rw [decodeString, if_neg]
    · exact hback
    · intro h
      have htake := congrArg asciiToWStr h
      rw [asciiToWStr, List.map_take, ← asciiToWStr, hback] at htake
      exact hbom htake
  have hraw := reads_bind_pure (f := decodeString EStrSet.eAscii) (reads_bytes (wStrToAscii name))
  rwa [hdecode] at hraw

variable {toUInt : QString → Option ℕ} {toFloat : UInt64 → UInt32} {toDouble : UInt32 → UInt64}

theorem flag_type {uType : ℕ} (h : uType < 128) :
    (uType ||| 0x80) < 256 ∧ (uType ||| 0x80) &&& 0x80 ≠ 0 ∧ (uType ||| 0x80) &&& 0x7F = uType ∧
      uType &&& 0x80 = 0 := by
  revert uType
  decide

theorem reads_name (hnumber : ∀ uName ≤ 255, toUInt (number uName) = some uName)
    {name : QString} (hname : NameOk toUInt name) {uType : ℕ} (htype : uType < 128) (bAllowNew : Bool) :
    ∃ flagged x, writeName toUInt bAllowNew uType name = littleEndian 1 flagged ++ x ∧
      flagged < 256 ∧ Reads (readName flagged) x (uType, name) := by
  obtain ⟨hless, hset, hclear, hunset⟩ := flag_type htype
  rcases hname with ⟨uName, hle, rfl⟩ | ⟨hnone, hone, hlen, hchars, hbom⟩
  · have hnum : nummeric toUInt (number uName) = some uName := by
      rw [nummeric, hnumber uName hle]
      simp [hle]
    have hread := reads_number (n := 1) (k := uName) (by omega)
    unfold writeName
    rw [hnum]
    dsimp only
    split_ifs with hnew
    · refine ⟨_, _, rfl, hless, ?_⟩
      rw [readName, if_pos hset, hclear]
      exact reads_bind_pure hread
    · refine ⟨_, _, rfl, by omega, ?_⟩
      rw [readName, if_neg (by simp [hunset])]
      exact reads_bind (reads_number (n := 2) (k := 1) (by omega)) (reads_bind_pure hread)
  · have hsize : (wStrToAscii name).length = name.length := List.length_map _
    unfold writeName
    rw [hnone]
    refine ⟨_, _, rfl, by omega, ?_⟩
    rw [readName, if_neg (by simp [hunset])]
    have hlength := reads_number (n := 2) (k := (wStrToAscii name).length) (by omega)
    refine reads_bind hlength ?_
    rw [if_neg (by omega)]
    exact reads_bind_pure (reads_ascii hchars hbom)

theorem writtenType_eq (value : QVariant) (h : getMuleTagType value ≠ TAGTYPE_UINT32)
    (bAllowNew : Bool) : writtenType bAllowNew value = getMuleTagType value := by
  rw [writtenType]
  exact if_neg fun hnew => h hnew.2

/-- An integer is read back without a sign, with as many bytes as it was written. -/
theorem reads_integer {value : QVariant} (h : getMuleTagType value = TAGTYPE_UINT32)
    {n : UInt32} (hn : value.toUInt = n.toNat) (bAllowNew : Bool) :
    Reads (readValue toDouble (writtenType bAllowNew value))
      (writeValue toFloat (writtenType bAllowNew value) value) (QVariant.uInt n) := by
  have hlt := n.toNat_lt
  have hback : UInt32.ofNat n.toNat = n := UInt32.ofNat_toNat
  have hread : ∀ k, n.toNat < 256 ^ k → Reads (readNumber k >>= fun value => pure (QVariant.uInt (UInt32.ofNat value)))
        (littleEndian k value.toUInt) (QVariant.uInt n) := by
    intro k hk
    have h := reads_bind_pure (f := fun value => QVariant.uInt (UInt32.ofNat value)) (reads_number hk)
    rwa [hback, ← hn] at h
  unfold writtenType
  dsimp only
  rw [h]
  split_ifs with hnew hbyte hword
  · exact hread 1 (by omega)
  · exact hread 2 (by omega)
  · exact hread 4 (by omega)
  · exact hread 4 (by omega)

theorem reads_long (value : UInt64) : Reads (readValue toDouble TAGTYPE_UINT64) (littleEndian 8 value.toNat)
      (QVariant.uLongLong value) := by
  have h := reads_bind_pure (f := fun value => QVariant.uLongLong (UInt64.ofNat value))
    (reads_number (n := 8) value.toNat_lt)
  rwa [UInt64.ofNat_toNat] at h

theorem reads_blob {value : List UInt8} (h : value.length < 2 ^ 32) :
    Reads (readValue toDouble TAGTYPE_BLOB) (littleEndian 4 value.length ++ value) (QVariant.byteArray value) := by
  refine reads_bind (reads_number (n := 4) h) fun rest => ?_
  have hleft : ¬value.length > (value ++ rest).length := by
    rw [List.length_append]
    omega
  change (if value.length > (value ++ rest).length then _ else _ : Reader QVariant) _ = _
  rw [if_neg hleft]
  exact reads_bind_pure (f := QVariant.byteArray) (reads_bytes value) rest

theorem reads_hash (hash : CMuleHash) : Reads readHash hash.1 hash := by
  intro rest
  have hlen : 16 ≤ (hash.1 ++ rest).length := by
    rw [List.length_append, hash.2]
    omega
  rw [readHash, dif_pos hlen]
  simp only [List.take_left' hash.2, List.drop_left' hash.2]

theorem reads_value {value : QVariant} (hvalue : ValueOk value) (bAllowNew : Bool) :
    Reads (readValue toDouble (writtenType bAllowNew value))
      (writeValue toFloat (writtenType bAllowNew value) value) (asRead toFloat toDouble value) := by
  cases value with
  | int value => exact reads_integer rfl rfl bAllowNew
  | uInt value => exact reads_integer rfl rfl bAllowNew
  | string value =>
    rw [writtenType_eq (QVariant.string value) (show 2 ≠ 3 by omega)]
    exact reads_bind (reads_number (n := 2) hvalue.1) (reads_bind_pure (f := QVariant.string) (reads_utf8 hvalue.2))
  | longLong value =>
    rw [writtenType_eq (QVariant.longLong value) (show 11 ≠ 3 by omega)]
    exact reads_long value
  | uLongLong value =>
    rw [writtenType_eq (QVariant.uLongLong value) (show 11 ≠ 3 by omega)]
    exact reads_long value
  | double value =>
    rw [writtenType_eq (QVariant.double value) (show 4 ≠ 3 by omega)]
    have h := reads_bind_pure (f := fun value => QVariant.double (toDouble (UInt32.ofNat value)))
      (reads_number (n := 4) (toFloat value).toNat_lt)
    rwa [UInt32.ofNat_toNat] at h
  | byteArray value =>
    rw [writtenType_eq (QVariant.byteArray value) (show 7 ≠ 3 by omega)]
    exact reads_blob hvalue
  | muleHash value =>
    rw [writtenType_eq (QVariant.muleHash value) (show 1 ≠ 3 by omega)]
    exact reads_bind_pure (f := QVariant.muleHash) (reads_hash value)
  | bool value => exact hvalue.elim
  | invalid => exact hvalue.elim

/-- A type that is written is a number of seven bits. -/
theorem writtenType_lt (bAllowNew : Bool) (value : QVariant) : writtenType bAllowNew value < 128 := by
  have htype : getMuleTagType value < 128 := by
    cases value <;> exact Nat.le_of_ble_eq_true rfl
  unfold writtenType
  dsimp only
  split_ifs
  · exact Nat.le_of_ble_eq_true rfl
  · exact Nat.le_of_ble_eq_true rfl
  · exact htype
  · exact htype

theorem reads_tag (hnumber : ∀ uName ≤ 255, toUInt (number uName) = some uName)
    {tag : QString × QVariant} (hname : NameOk toUInt tag.1) (hvalue : ValueOk tag.2)
    (bAllowNew : Bool) (tags : QVariantMap) : Reads (readTag toDouble tags) (writeTag toUInt toFloat bAllowNew tag)
      (tags.insert tag.1 (asRead toFloat toDouble tag.2)) := by
  obtain ⟨flagged, x, hwrite, hless, hread⟩ :=
    reads_name hnumber hname (writtenType_lt bAllowNew tag.2) bAllowNew
  rw [writeTag, hwrite, List.append_assoc]
  refine reads_bind (reads_number (n := 1) hless) (reads_bind hread ?_)
  exact reads_bind_pure (f := fun value => tags.insert tag.1 value) (reads_value hvalue bAllowNew)

theorem reads_tags (hnumber : ∀ uName ≤ 255, toUInt (number uName) = some uName)
    {tags : QVariantMap} {bShort : Bool} (h : TagsOk toUInt bShort tags) (bAllowNew : Bool) :
    Reads (readTags toDouble bShort) (writeTags toUInt toFloat tags bAllowNew bShort)
      (tags.mapValues (asRead toFloat toDouble)) := by
  refine reads_bind (reads_number h.size) ?_
  rw [← OrderedMap.foldl_insert_mapValues]
  exact reads_times (fun s tag htag =>
    reads_tag hnumber (h.names tag htag) (h.values tag htag) bAllowNew s) OrderedMap.empty

end Tags

section Results

variable {toUInt : QString → Option ℕ} {toFloat : UInt64 → UInt32} {toDouble : UInt32 → UInt64}

/-- `ReadTags` at the bytes of `WriteTags` in a buffer takes exactly them, whatever
follows, and gives the map with its numbers as they are read. -/
theorem readTags_writeTags (hnumber : ∀ uName ≤ 255, toUInt (number uName) = some uName)
    {tags : QVariantMap} {bShort : Bool} (h : TagsOk toUInt bShort tags) (bAllowNew : Bool)
    {b : CBuffer} (hb : BufferOk b) {rest : List UInt8}
    (hleft : left b = writeTags toUInt toFloat tags bAllowNew bShort ++ rest) :
    run (readTags toDouble bShort) b = some (tags.mapValues (asRead toFloat toDouble),
      { b with uPosition :=
        b.uPosition + (writeTags toUInt toFloat tags bAllowNew bShort).length }) :=
  run_reads hb (reads_tags hnumber h bAllowNew) hleft

/-- `QString::toUInt` of decimal digits. -/
def decimal (name : QString) : Option ℕ :=
  if !name.isEmpty && name.all fun c => decide (48 ≤ c) && decide (c ≤ 57) then
    some (name.foldl (fun n c => n * 10 + (c.toNat - 48)) 0)
  else none

/-- A number with a short name and a string. -/
def twoTags : QVariantMap :=
  (OrderedMap.empty.insert [49] (QVariant.uInt 7)).insert [97, 98] (QVariant.string [233])

/-- The two tags are read back. -/
theorem twoTags_ok : TagsOk decimal true twoTags := by
  have hentries : twoTags.entries = [([49], QVariant.uInt 7), ([97, 98], QVariant.string [233])] := by decide
  refine ⟨by decide, fun tag htag => ?_, fun tag htag => ?_⟩
  · rw [hentries] at htag
    rcases List.mem_cons.mp htag with rfl | htag
    · exact Or.inl ⟨1, by omega, by decide⟩
    · rw [List.mem_singleton.mp htag]
      exact Or.inr ⟨by decide, by decide, by decide,
        List.forall_mem_cons.mpr ⟨by decide, List.forall_mem_singleton.mpr (by decide)⟩,
        by decide⟩
  · rw [hentries] at htag
    rcases List.mem_cons.mp htag with rfl | htag
    · trivial
    · rw [List.mem_singleton.mp htag]
      exact ⟨by decide, by decide⟩

/-- A buffer with the bytes of the two tags and another byte. -/
def twoTagsBuffer : CBuffer :=
  ⟨some (writeTags decimal (fun _ => 0) twoTags true true ++ [1]), 14, 14, 0, EType.eFixed, false⟩

/-- The two tags are read from the buffer. -/
theorem readTags_writeTags_two : run (readTags (fun _ => 0) true) twoTagsBuffer =
      some (twoTags.mapValues (asRead (fun _ => 0) fun _ => 0),
        { twoTagsBuffer with uPosition := twoTagsBuffer.uPosition +
          (writeTags decimal (fun _ => 0) twoTags true true).length }) := by
  have hbuffer : BufferOk twoTagsBuffer :=
    ⟨by decide, by decide, by decide, by decide, fun hnull => by cases hnull⟩
  have hleft : left twoTagsBuffer = writeTags decimal (fun _ => 0) twoTags true true ++ [1] := by
    decide
  exact readTags_writeTags (by decide +kernel) twoTags_ok true hbuffer hleft

/-- A map of one tag. -/
def oneTag (name : QString) (value : QVariant) : QVariantMap := OrderedMap.empty.insert name value

/-- The bytes of a map of one tag. -/
def writeOneTag (name : QString) (value : QVariant) : List UInt8 :=
  writeTags decimal (fun _ => 0x3DCCCCCD) (oneTag name value) true true

/-- The tags that are read from some bytes, and the bytes that are left. -/
def readEntries (s : List UInt8) : Option (List (QString × QVariant) × List UInt8) :=
  (readTags (fun _ => 0x3FB99999A0000000) true s).map fun r => (r.1.entries, r.2)

/-- The bytes of one tag before others. -/
theorem readEntries_oneTag {name : QString} {value : QVariant}
    (hname : NameOk decimal name) (hvalue : ValueOk value) (rest : List UInt8) :
    readEntries (writeOneTag name value ++ rest) = some ([(name,
      asRead (fun _ => 0x3DCCCCCD) (fun _ => 0x3FB99999A0000000) value)], rest) := by
  have hok : TagsOk decimal true (oneTag name value) := by
    refine ⟨by change 1 < 256; omega, fun tag htag => ?_, fun tag htag => ?_⟩
    · rw [List.mem_singleton.mp htag]
      exact hname
    · rw [List.mem_singleton.mp htag]
      exact hvalue
  have hnumber : ∀ uName ≤ 255, decimal (number uName) = some uName := by decide +kernel
  rw [readEntries, writeOneTag, reads_tags hnumber hok true rest]
  rfl

/-- The bytes of a tag with a string. -/
theorem writeOneTag_string (value : QString) : writeOneTag [49] (QVariant.string value) =
      littleEndian 1 1 ++ (littleEndian 1 0x82 ++ littleEndian 1 1 ++
        (littleEndian 2 (wStrToUtf8 value).length ++ wStrToUtf8 value)) := by
  have hnumber : nummeric decimal [49] = some 1 := by decide
  change littleEndian 1 1 ++ (writeTag decimal (fun _ => 0x3DCCCCCD) true ([49], QVariant.string value) ++ []) = _
  have hor : (2 ||| 0x80) = 0x82 := by decide
  rw [List.append_nil, writeTag, writtenType_eq (QVariant.string value) (show 2 ≠ 3 by omega),
    writeName, hnumber, ← hor]
  rfl

theorem wStrToUtf8_replicate (n : ℕ) : wStrToUtf8 (List.replicate n 97) = List.replicate n 97 := by
  induction n with
  | zero => rfl
  | succ n ih =>
    rw [List.replicate_succ, List.replicate_succ, ← ih]
    rfl

theorem readEntries_longString : readEntries (writeOneTag [49] (QVariant.string (List.replicate 65536 97))) =
      some ([([49], QVariant.string [])], List.replicate 65536 97) := by
  have hbytes : writeOneTag [49] (QVariant.string (List.replicate 65536 97)) =
      writeOneTag [49] (QVariant.string []) ++ List.replicate 65536 97 := by
    rw [writeOneTag_string, writeOneTag_string, wStrToUtf8_replicate, List.length_replicate]
    rfl
  have hvalue : ValueOk (QVariant.string []) := ⟨by decide, by decide⟩
  rw [hbytes]
  exact readEntries_oneTag (Or.inl ⟨1, by omega, by decide⟩) hvalue _

/-- A map of 256 tags. -/
def manyTags : QVariantMap where
  entries := (List.range 256).map fun i => ([UInt16.ofNat i], QVariant.uInt 0)
  sorted := by
    refine List.pairwise_map.mpr (List.pairwise_lt_range.imp_of_mem fun {i j} hi hj hlt => ?_)
    have hi := List.mem_range.mp hi
    have hj := List.mem_range.mp hj
    refine List.cons_lt_cons_iff.mpr (Or.inl ?_)
    rw [UInt16.lt_iff_toNat_lt, UInt16.toNat_ofNat', UInt16.toNat_ofNat']
    omega

theorem readEntries_zero (x : List UInt8) : readEntries (0 :: x) = some ([], x) := rfl

/-- Names of one character, other digits of a number, wide characters and byte order marks
are not read back, nor are byte order marks before strings, signs, the precision of floating
point numbers, strings with a length of more than two bytes, truth values and more tags than
a byte counts. -/
theorem readTags_wrong : readEntries (writeOneTag [97] (QVariant.uInt 5)) = some ([([57, 55], QVariant.uInt 5)], []) ∧
      readEntries (writeOneTag [48, 55] (QVariant.uInt 5)) = some ([([55], QVariant.uInt 5)], []) ∧
      readEntries (writeOneTag [256, 97] (QVariant.uInt 5)) = some ([([63, 97], QVariant.uInt 5)], []) ∧
      readEntries (writeOneTag [0xEF, 0xBB, 0xBF, 97] (QVariant.uInt 5)) = some ([([97], QVariant.uInt 5)], []) ∧
      readEntries (writeOneTag [49] (QVariant.string [0xFEFF, 97])) = some ([([49], QVariant.string [97])], []) ∧
      readEntries (writeOneTag [49] (QVariant.int 0xFFFFFFFF)) = some ([([49], QVariant.uInt 0xFFFFFFFF)], []) ∧
      readEntries (writeOneTag [49] (QVariant.double 0x3FB999999999999A)) =
        some ([([49], QVariant.double 0x3FB99999A0000000)], []) ∧
      readEntries (writeOneTag [49] (QVariant.bool true)) = none ∧
      readEntries (writeOneTag [49] (QVariant.string (List.replicate 65536 97))) =
        some ([([49], QVariant.string [])], List.replicate 65536 97) ∧
      manyTags.size = 256 ∧
      (readEntries (writeTags decimal (fun _ => 0) manyTags true true)).map Prod.fst = some [] := by
  refine ⟨by decide, by decide, by decide, by decide,
    by decide, by decide, by decide, by decide,
    readEntries_longString, ?_, ?_⟩
  · exact (List.length_map _).trans List.length_range
  · have hcount : manyTags.size = 256 := (List.length_map _).trans List.length_range
    rw [writeTags, hcount]
    exact congrArg (Option.map Prod.fst) (readEntries_zero _)

end Results

end NeoLoader.MuleTagsRoundTrip
