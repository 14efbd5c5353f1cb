import NeoLoader.MuleTagsRoundTrip

/-!
# Wide strings in a buffer

A wide string is written with a length of one, two or four bytes in front, in one byte characters or in
UTF-8 with a byte order mark or without it. A byte order mark that is read is dropped, whatever the
encoding should be.
-/

namespace NeoLoader.WideStrings

open Splice Buffer BufferRuns BufferReader ByteReader MuleTags MuleTagsRoundTrip

section Code

inductive EStrLen where
  | e8Bit
  | e16Bit
  | e32Bit
  deriving DecidableEq

/-- The bytes of a length. -/
def EStrLen.size : EStrLen → ℕ
  | .e8Bit => 1
  | .e16Bit => 2
  | .e32Bit => 4

/-- `RawString` of `CBuffer::WriteString`. -/
def rawString (String : QString) : EStrSet → List UInt8
  | .eAscii => wStrToAscii String
  | .eUtf8_BOM => bom ++ wStrToUtf8 String
  | .eUtf8 => wStrToUtf8 String

/-- `CBuffer::WriteString` at the position. -/
def writeString (garbage : ℕ → UInt8) (b : CBuffer) (String : QString) (Set : EStrSet) (Len : EStrLen) :
    Option CBuffer :=
  (writeData garbage b (littleEndian Len.size (rawString String Set).length)).bind fun b =>
    writeData garbage b (rawString String Set)

/-- `CBuffer::ReadString` at the position. -/
def readString (b : CBuffer) (Set : EStrSet) (Len : EStrLen) : Option (QString × CBuffer) :=
  run (do
    let uRawLength ← readNumber Len.size
    MuleTags.readString Set uRawLength) b

end Code

section Decoding

/-- Strings that an encoding gives back: with one byte characters they have no others and do not begin
with the characters of a byte order mark, and in UTF-8 without a mark they do not begin with one. -/
def GivenBack (String : QString) : EStrSet → Prop
  | .eAscii => (∀ c ∈ String, c.toNat ≤ 0xff) ∧ String.take 3 ≠ [0xEF, 0xBB, 0xBF]
  | .eUtf8_BOM => True
  | .eUtf8 => String.head? ≠ some 0xFEFF

/-- A decoded text is not longer than its bytes, but for an error at the end. -/
theorem length_utf8ToWStrLoop (src : List UInt8) (w bytes : ℕ) :
    (utf8ToWStrLoop w bytes src).length ≤ src.length + if bytes = 0 then 0 else 1 := by
  induction src generalizing w bytes with
  | nil => by_cases h : bytes = 0 <;> simp [utf8ToWStrLoop, h]
  | cons c src ih =>
    have hzero := fun w => ih w 0
    have hone := fun w => ih w 1
    have htwo := fun w => ih w 2
    have hthree := fun w => ih w 3
    simp only [if_true, Nat.add_zero] at hzero
    simp only [Nat.one_ne_zero, OfNat.ofNat_ne_zero, if_false] at hone htwo hthree
    rw [utf8ToWStrLoop]
    dsimp only
    by_cases h : bytes = 0
    · simp only [h, ne_eq, not_true_eq_false, if_false, List.nil_append, if_true]
      split_ifs
      · simpa using hzero w
      · simpa using hzero w
      · simpa using hone _
      · simpa using htwo _
      · simpa using hthree _
      · simpa using hzero w
    · have hlater := ih ((w <<< 6 ||| (c.toNat &&& 0x3f)) % 2 ^ 16) (bytes - 1)
      have hascii := hzero w
      have hstart := hone (c.toNat &&& 0x1f)
      have hstart' := htwo (c.toNat &&& 0x0f)
      have hstart'' := hthree (c.toNat &&& 0x07)
      simp only [h, ne_eq, not_false_eq_true, if_true, if_false]
      split_ifs at hlater ⊢ <;> simp only [List.length_append, List.length_cons, List.length_nil] <;> omega

theorem length_utf8ToWStr (src : List UInt8) : (utf8ToWStr src).length ≤ src.length := by
  simpa [utf8ToWStr] using length_utf8ToWStrLoop src 0 0

theorem asciiToWStr_wStrToAscii_iff (src : QString) :
    asciiToWStr (wStrToAscii src) = src ↔ ∀ c ∈ src, c.toNat ≤ 0xff := by
  refine ⟨fun h c hc => ?_, asciiToWStr_wStrToAscii⟩
  rw [← h, asciiToWStr] at hc
  obtain ⟨byte, -, hbyte⟩ := List.mem_map.mp hc
  have hlt := byte.toNat_lt
  rw [← hbyte, UInt16.toNat_ofNat']
  omega

theorem utf8ToWStr_drop_ne {String : QString} {raw : List UInt8} (hmark : raw.take 3 = bom)
    (hlength : raw.length = String.length) : utf8ToWStr (raw.drop 3) ≠ String := by
  intro h
  have hle := length_utf8ToWStr (raw.drop 3)
  have hthree := congrArg List.length hmark
  simp only [List.length_take, bom, List.length_cons, List.length_nil] at hthree
  rw [h, List.length_drop] at hle
  omega

theorem take_wStrToAscii {src : QString} (h : ∀ c ∈ src, c.toNat ≤ 0xff) :
    (wStrToAscii src).take 3 = bom ↔ src.take 3 = [0xEF, 0xBB, 0xBF] := by
  constructor
  · intro hmark
    have hback := congrArg asciiToWStr hmark
    rw [asciiToWStr, List.map_take, ← asciiToWStr, asciiToWStr_wStrToAscii h] at hback
    exact hback
  · intro hmark
    rw [wStrToAscii, ← List.map_take, hmark]
    simp [bom]

/-- A string is decoded as it was exactly if the encoding gives it back. -/
theorem decodeString_rawString_iff (String : QString) (Set : EStrSet) :
    decodeString Set (rawString String Set) = String ↔ GivenBack String Set := by
  cases Set with
  | eAscii =>
    have hlength : (wStrToAscii String).length = String.length := by simp [wStrToAscii]
    by_cases hmark : (wStrToAscii String).take 3 = bom
    · simp only [decodeString, rawString, hmark, if_true, GivenBack,
        utf8ToWStr_drop_ne hmark hlength, false_iff, not_and, not_not]
      exact fun hchars => (take_wStrToAscii hchars).mp hmark
    · simp only [decodeString, rawString, hmark, if_false, GivenBack, asciiToWStr_wStrToAscii_iff]
      exact ⟨fun hchars => ⟨hchars, mt (take_wStrToAscii hchars).mpr hmark⟩, And.left⟩
  | eUtf8_BOM =>
    simp [decodeString, rawString, GivenBack, bom, utf8ToWStr_wStrToUtf8]
  | eUtf8 =>
    by_cases hmark : (wStrToUtf8 String).take 3 = bom
    · have hhead := head_of_bom hmark
      simp only [decodeString, rawString, hmark, if_true, GivenBack, hhead, ne_eq, not_true_eq_false, iff_false]
      intro hback
      obtain ⟨rest, rfl⟩ : ∃ rest, String = 0xFEFF :: rest := by
        cases String with
        | nil => simp at hhead
        | cons c rest => exact ⟨rest, by simpa using hhead⟩
      have hdrop : (wStrToUtf8 (0xFEFF :: rest)).drop 3 = wStrToUtf8 rest := by
        simp [wStrToUtf8, charToUtf8]
      rw [hdrop, utf8ToWStr_wStrToUtf8] at hback
      simpa using congrArg List.length hback
    · have hhead : String.head? ≠ some 0xFEFF := by
        intro hhead
        cases String with
        | nil => simp at hhead
        | cons c rest =>
          rw [List.head?_cons, Option.some.injEq] at hhead
          subst hhead
          refine hmark ?_
          simp only [wStrToUtf8, charToUtf8, bom, List.flatMap_cons]
          simp
      simp [decodeString, rawString, hmark, GivenBack, hhead, utf8ToWStr_wStrToUtf8]

end Decoding

section Buffers

variable {b : CBuffer} {garbage : ℕ → UInt8}

/-- `WriteData` puts its bytes at the position and goes behind them. -/
theorem writeData_at (h : BufferOk b) {x : List UInt8} (hfits : WriteFits b.uPosition x.length b)
    {b' : CBuffer} (hwrite : writeData garbage b x = some b') :
    BufferOk b' ∧ b'.content = splice b.content b.uPosition x.length x ∧
      b'.uPosition = b.uPosition + x.length ∧ b'.uSize = max b.uSize (b.uPosition + x.length) := by
  have hfits' : WriteFits b.uPosition (SSource.bytes x).uLength b := hfits
  rcases prepareWrite_ok h hfits' garbage with ⟨hno, -⟩ | ⟨b₁, hyes, hprep⟩
  · have hnone : writeData garbage b x = none := by simp [writeData, CBuffer.setData, hno]
    rw [hnone] at hwrite
    cases hwrite
  · have hroom : b.uPosition + x.length ≤ b₁.memory.length := by
      have hsize := hprep.size
      have hin := hprep.ok.size
      rw [hsize] at hin
      rw [hprep.ok.memory]
      exact (Nat.le_max_right _ _).trans hin
    obtain ⟨b₂, hchange, hok, hposition, hsize, hcontent⟩ := written_ok hfits' hprep rfl
      (f := fun memory => (SSource.bytes x).copyTo memory b.uPosition) (memcpy_eq hroom)
    have hsum : addSize b₂.uPosition x.length = b.uPosition + x.length := by
      rw [hposition]
      exact Nat.mod_eq_of_lt (lt_of_le_of_lt (Nat.le_add_right _ _) hfits.2)
    have hset : writeData garbage b x = some { b₂ with uPosition := b.uPosition + x.length } := by
      rw [writeData, CBuffer.setData, hyes]
      dsimp only
      rw [hprep.position, hchange]
      simp [SSource.uLength, hsum]
    rw [hset] at hwrite
    rw [← Option.some.inj hwrite]
    refine ⟨⟨?_, hok.size, hok.memory, hok.length, hok.normal⟩, hcontent, rfl, hsize⟩
    change b.uPosition + x.length ≤ b₂.uSize
    rw [hsize]
    exact Nat.le_max_right _ _

theorem drop_splice {α : Type*} {l x : List α} {i : ℕ} (hi : i ≤ l.length) (n : ℕ) :
    (splice l i n x).drop i = x ++ l.drop (i + n) := by
  have hlength : (l.take i).length = i := List.length_take_of_le hi
  rw [splice, List.append_assoc, List.drop_left' hlength]

/-- Bytes that are put behind others. -/
theorem splice_splice {α : Type*} {l x y : List α} {i : ℕ} (hi : i ≤ l.length) :
    splice (splice l i x.length x) (i + x.length) y.length y = splice l i (x ++ y).length (x ++ y) := by
  have htake : (splice l i x.length x).take (i + x.length) = l.take i ++ x := by
    rw [splice]
    exact List.take_left' (by rw [List.length_append, List.length_take_of_le hi])
  have hdrop : (splice l i x.length x).drop (i + x.length + y.length) = l.drop (i + (x ++ y).length) := by
    have hlength : (l.take i ++ x).length = i + x.length := by
      rw [List.length_append, List.length_take_of_le hi]
    rw [← List.drop_drop, splice, List.drop_left' hlength, List.drop_drop, List.length_append, Nat.add_assoc]
  rw [splice, htake, hdrop, splice, List.append_assoc (l.take i)]

/-- `WriteString` puts the length and the bytes at the position. -/
theorem writeString_at (h : BufferOk b) {String : QString} {Set : EStrSet} {Len : EStrLen}
    (hroom : b.uSize + (rawString String Set).length < 2 ^ 62) {b' : CBuffer}
    (hwrite : writeString garbage b String Set Len = some b') :
    BufferOk b' ∧ b'.content = splice b.content b.uPosition (MuleTags.writeString String Set Len.size).length
        (MuleTags.writeString String Set Len.size) ∧
      b'.uPosition = b.uPosition + (MuleTags.writeString String Set Len.size).length := by
  obtain ⟨b₁, hfirst, hsecond⟩ := Option.bind_eq_some_iff.mp hwrite
  have hposition := h.position
  have hsize : Len.size ≤ 4 := by cases Len <;> simp [EStrLen.size]
  have hbytes : MuleTags.writeString String Set Len.size =
      littleEndian Len.size (rawString String Set).length ++ rawString String Set := by
    cases Set <;> rfl
  obtain ⟨hok₁, hcontent₁, hposition₁, hsize₁⟩ := writeData_at h ⟨hposition, by rw [length_littleEndian]; omega⟩ hfirst
  rw [length_littleEndian] at hposition₁ hsize₁
  obtain ⟨hok, hcontent, hposition', -⟩ := writeData_at hok₁ ⟨hok₁.position, by omega⟩ hsecond
  refine ⟨hok, ?_, ?_⟩
  · have hput := splice_splice (x := littleEndian Len.size (rawString String Set).length)
      (y := rawString String Set) (show b.uPosition ≤ b.content.length by
        rw [length_content h]
        exact hposition)
    rw [length_littleEndian] at hput hcontent₁
    rw [hcontent, hposition₁, hcontent₁, hput, hbytes]
  · rw [hposition', hposition₁, hbytes, List.length_append, length_littleEndian, Nat.add_assoc]

/-- A string that is read where it was written is the same exactly if the encoding gives it back, and
reading ends where writing did. -/
theorem readString_writeString_iff (h : BufferOk b) (String : QString) (Set : EStrSet) (Len : EStrLen)
    (hroom : b.uSize + (rawString String Set).length < 2 ^ 62)
    (hlength : (rawString String Set).length < 256 ^ Len.size) {b' : CBuffer}
    (hwrite : writeString garbage b String Set Len = some b') :
    ∃ result, readString { b' with uPosition := b.uPosition } Set Len = some (result, b') ∧
      (result = String ↔ GivenBack String Set) := by
  obtain ⟨hok, hcontent, hposition⟩ := writeString_at h hroom hwrite
  have hok' : BufferOk { b' with uPosition := b.uPosition } :=
    ⟨by have := hok.position; rw [hposition] at this; exact (Nat.le_add_right _ _).trans this, hok.size,
      hok.memory, hok.length, hok.normal⟩
  have hbytes : MuleTags.writeString String Set Len.size =
      littleEndian Len.size (rawString String Set).length ++ rawString String Set := by
    cases Set <;> rfl
  have hleft : left { b' with uPosition := b.uPosition } = MuleTags.writeString String Set Len.size ++
        b.content.drop (b.uPosition + (MuleTags.writeString String Set Len.size).length) := by
    have hle : b.uPosition ≤ b.content.length := by
      rw [length_content h]
      exact h.position
    change b'.content.drop b.uPosition = _
    rw [hcontent, drop_splice hle]
  have hreads : Reads (do
      let uRawLength ← readNumber Len.size
      MuleTags.readString Set uRawLength) (MuleTags.writeString String Set Len.size)
      (decodeString Set (rawString String Set)) := by
    rw [hbytes]
    exact reads_bind (reads_number hlength) (reads_bind_pure (reads_bytes _))
  refine ⟨decodeString Set (rawString String Set), ?_, decodeString_rawString_iff String Set⟩
  rw [readString, run_reads hok' hreads hleft]
  simp only [← hposition]

/-- An empty buffer that may grow. -/
def newBuffer : CBuffer := CBuffer.init

/-- A word is read where it was written. -/
theorem readString_writeString_word : ∃ b',
    writeString (fun _ => 0) newBuffer [0x4E, 0xE9, 0x20AC] EStrSet.eUtf8 EStrLen.e16Bit = some b' ∧
      ∃ result, readString { b' with uPosition := newBuffer.uPosition } EStrSet.eUtf8 EStrLen.e16Bit =
        some (result, b') ∧ (result = [0x4E, 0xE9, 0x20AC] ↔ GivenBack [0x4E, 0xE9, 0x20AC] EStrSet.eUtf8) := by
  obtain ⟨b', hb'⟩ : ∃ b', writeString (fun _ => 0) newBuffer [0x4E, 0xE9, 0x20AC] EStrSet.eUtf8
      EStrLen.e16Bit = some b' := Option.isSome_iff_exists.mp (by decide)
  exact ⟨b', hb', readString_writeString_iff init_ok [0x4E, 0xE9, 0x20AC] EStrSet.eUtf8
    EStrLen.e16Bit (by decide) (by decide) hb'⟩

/-- A byte order mark that is the string itself is lost. -/
theorem readString_writeString_mark :
    ((writeString (fun _ => 0) newBuffer [0xFEFF] EStrSet.eUtf8 EStrLen.e16Bit).bind fun b' =>
      (readString { b' with uPosition := newBuffer.uPosition } EStrSet.eUtf8 EStrLen.e16Bit).map
        Prod.fst) = some [] := by
  decide

end Buffers

end NeoLoader.WideStrings
