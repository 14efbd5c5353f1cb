import Mathlib.Data.List.TakeWhile
import Mathlib.Data.List.Basic
import Mathlib.Tactic.IntervalCases
import Mathlib.Tactic.Linarith

/-!
# Texts as bytes and back

Characters in units of 16 bits and in UTF-8, bytes behind percent signs and in base 64, and
numbers in decimal digits. Each encoding is undone by its decoder. A decoder of UTF-8 that ends
at a zero byte and skips a byte order mark undoes it for the texts without these.
-/

namespace NeoLoader.TextEncodings

/-- A text as the units of 16 bits that a wide string keeps. -/
abbrev WideText := List UInt16

/-- The units of a character. -/
def toUtf16 (c : Char) : WideText :=
  if c.toNat < 0x10000 then [UInt16.ofNat c.toNat]
  else [UInt16.ofNat (0xD800 + (c.toNat - 0x10000) / 0x400), UInt16.ofNat (0xDC00 + (c.toNat - 0x10000) % 0x400)]

/-- First half of a pair. -/
def isHighSurrogate (u : UInt16) : Bool := 0xD800 ≤ u.toNat && u.toNat < 0xDC00

/-- Second half of a pair. -/
def isLowSurrogate (u : UInt16) : Bool := 0xDC00 ≤ u.toNat && u.toNat < 0xE000

/-- The characters of a text, a question mark for each half without its other half. -/
def fromUtf16 : WideText → List Char
  | [] => []
  | [u] => [if isHighSurrogate u || isLowSurrogate u then '?' else Char.ofNat u.toNat]
  | u :: v :: us =>
    if isHighSurrogate u then
      if isLowSurrogate v then
        Char.ofNat (0x10000 + (u.toNat - 0xD800) * 0x400 + (v.toNat - 0xDC00)) :: fromUtf16 us
      else '?' :: fromUtf16 (v :: us)
    else if isLowSurrogate u then '?' :: fromUtf16 (v :: us)
    else Char.ofNat u.toNat :: fromUtf16 (v :: us)

theorem char_range (c : Char) : c.toNat < 0xD800 ∨ 0xDFFF < c.toNat ∧ c.toNat < 0x110000 :=
  c.valid

variable {c : Char}

/-- A character in one unit is read back. -/
theorem fromUtf16_single (h : c.toNat < 0x10000) (us : WideText) :
    fromUtf16 (UInt16.ofNat c.toNat :: us) = c :: fromUtf16 us := by
  have hrange := char_range c
  have hunit : (UInt16.ofNat c.toNat).toNat = c.toNat := UInt16.toNat_ofNat_of_lt' h
  have hhigh : isHighSurrogate (UInt16.ofNat c.toNat) = false := by
    simp only [isHighSurrogate, hunit, Bool.and_eq_false_imp, decide_eq_true_eq, decide_eq_false_iff_not]
    omega
  have hlow : isLowSurrogate (UInt16.ofNat c.toNat) = false := by
    simp only [isLowSurrogate, hunit, Bool.and_eq_false_imp, decide_eq_true_eq, decide_eq_false_iff_not]
    omega
  cases us with
  | nil => simp [fromUtf16, hhigh, hlow, hunit]
  | cons v us => simp [fromUtf16, hhigh, hlow, hunit]

/-- A character in two units is read back. -/
theorem fromUtf16_pair (h : 0x10000 ≤ c.toNat) (us : WideText) :
    fromUtf16 (UInt16.ofNat (0xD800 + (c.toNat - 0x10000) / 0x400) ::
      UInt16.ofNat (0xDC00 + (c.toNat - 0x10000) % 0x400) :: us) = c :: fromUtf16 us := by
  have hrange := char_range c
  have hfirst : (UInt16.ofNat (0xD800 + (c.toNat - 0x10000) / 0x400)).toNat =
      0xD800 + (c.toNat - 0x10000) / 0x400 := UInt16.toNat_ofNat_of_lt' (by
    show _ < 65536
    omega)
  have hsecond : (UInt16.ofNat (0xDC00 + (c.toNat - 0x10000) % 0x400)).toNat =
      0xDC00 + (c.toNat - 0x10000) % 0x400 := UInt16.toNat_ofNat_of_lt' (by
    show _ < 65536
    omega)
  have hhigh : isHighSurrogate (UInt16.ofNat (0xD800 + (c.toNat - 0x10000) / 0x400)) = true := by
    simp only [isHighSurrogate, hfirst, Bool.and_eq_true, decide_eq_true_eq]
    omega
  have hlow : isLowSurrogate (UInt16.ofNat (0xDC00 + (c.toNat - 0x10000) % 0x400)) = true := by
    simp only [isLowSurrogate, hsecond, Bool.and_eq_true, decide_eq_true_eq]
    omega
  have hvalue : 0x10000 + (0xD800 + (c.toNat - 0x10000) / 0x400 - 0xD800) * 0x400 +
      (0xDC00 + (c.toNat - 0x10000) % 0x400 - 0xDC00) = c.toNat := by omega
  rw [fromUtf16, if_pos hhigh, if_pos hlow, hfirst, hsecond, hvalue, Char.ofNat_toNat]

variable (cs : List Char)

theorem fromUtf16_flatMap : fromUtf16 (cs.flatMap toUtf16) = cs := by
  induction cs with
  | nil => rfl
  | cons c cs ih =>
    rw [List.flatMap_cons, toUtf16]
    split_ifs with hc
    · rw [List.singleton_append, fromUtf16_single hc, ih]
    · rw [List.cons_append, List.singleton_append, fromUtf16_pair (not_lt.mp hc), ih]

/-- Characters as UTF-8. -/
def encodeUtf8 (cs : List Char) : List UInt8 := cs.flatMap String.utf8EncodeChar

/-- The characters of bytes in UTF-8, a replacement character for each byte that begins none. -/
def decodeUtf8 (bytes : List UInt8) : List Char :=
  match bytes with
  | [] => []
  | b :: bs =>
    match (b :: bs).toByteArray.utf8DecodeChar? 0 with
    | some c => c :: decodeUtf8 (bs.drop (c.utf8Size - 1))
    | none => '\uFFFD' :: decodeUtf8 bs
termination_by bytes.length
decreasing_by all_goals (simp only [List.length_drop, List.length_cons]; omega)

/-- The first character of bytes in UTF-8 is read back. -/
theorem decodeUtf8_append (c : Char) (bytes : List UInt8) :
    decodeUtf8 (String.utf8EncodeChar c ++ bytes) = c :: decodeUtf8 bytes := by
  have hread : (String.utf8EncodeChar c ++ bytes).toByteArray.utf8DecodeChar? 0 = some c := by
    rw [List.toByteArray_append, ByteArray.utf8DecodeChar?_utf8EncodeChar_append]
  have hlength := String.length_utf8EncodeChar c
  cases hfirst : String.utf8EncodeChar c with
  | nil => exact absurd hfirst String.utf8EncodeChar_ne_nil
  | cons b bs =>
    rw [hfirst, List.length_cons] at hlength
    rw [hfirst, List.cons_append] at hread
    rw [List.cons_append, decodeUtf8, hread]
    have hdrop : (bs ++ bytes).drop (c.utf8Size - 1) = bytes := by
      rw [← hlength, Nat.add_sub_cancel, List.drop_left]
    simp only [hdrop]

theorem decodeUtf8_encodeUtf8 : decodeUtf8 (encodeUtf8 cs) = cs := by
  induction cs with
  | nil => rw [encodeUtf8, List.flatMap_nil, decodeUtf8]
  | cons c cs ih =>
    rw [encodeUtf8, List.flatMap_cons, decodeUtf8_append]
    rw [encodeUtf8] at ih
    rw [ih]

/-- Only the character zero has a zero byte in UTF-8. -/
theorem ne_zero_of_mem_utf8EncodeChar (h : c ≠ '\x00') {b : UInt8} (hb : b ∈ String.utf8EncodeChar c) : b ≠ 0 := by
  have hpos : 0 < c.val.toNat := Nat.pos_of_ne_zero fun hzero =>
    h (Char.ext (UInt32.toNat_inj.mp hzero))
  have hne : ∀ n : ℕ, 0 < n → n < 256 → UInt8.ofNat n ≠ 0 := by
    intro n hn hlt heq
    have hvalue : (UInt8.ofNat n).toNat = n := UInt8.toNat_ofNat_of_lt' hlt
    rw [heq] at hvalue
    simp at hvalue
    omega
  unfold String.utf8EncodeChar at hb
  simp only at hb
  split_ifs at hb with h1 h2 h3
  · rw [List.mem_singleton.mp hb]
    exact hne _ hpos (by omega)
  · rcases List.mem_cons.mp hb with rfl | hb
    · exact hne _ (by omega) (by omega)
    · rw [List.mem_singleton.mp hb]
      exact hne _ (by omega) (by omega)
  · rcases List.mem_cons.mp hb with rfl | hb
    · exact hne _ (by omega) (by omega)
    · rcases List.mem_cons.mp hb with rfl | hb
      · exact hne _ (by omega) (by omega)
      · rw [List.mem_singleton.mp hb]
        exact hne _ (by omega) (by omega)
  · rcases List.mem_cons.mp hb with rfl | hb
    · exact hne _ (by omega) (by omega)
    · rcases List.mem_cons.mp hb with rfl | hb
      · exact hne _ (by omega) (by omega)
      · rcases List.mem_cons.mp hb with rfl | hb
        · exact hne _ (by omega) (by omega)
        · rw [List.mem_singleton.mp hb]
          exact hne _ (by omega) (by omega)

/-- UTF-8 up to the first zero byte is that of the characters up to the first zero. -/
theorem takeWhile_encodeUtf8 : (encodeUtf8 cs).takeWhile (· ≠ 0) = encodeUtf8 (cs.takeWhile (· ≠ '\x00')) := by
  induction cs with
  | nil => rfl
  | cons c cs ih =>
    rw [encodeUtf8] at ih
    rw [encodeUtf8, List.flatMap_cons]
    by_cases hc : c = '\x00'
    · subst hc
      rfl
    · have hbytes : ∀ b ∈ String.utf8EncodeChar c, decide (b ≠ 0) = true := fun b hb =>
        decide_eq_true (ne_zero_of_mem_utf8EncodeChar hc hb)
      rw [List.takeWhile_append_of_pos hbytes, ih, List.takeWhile_cons_of_pos (by simpa using hc),
        encodeUtf8, encodeUtf8, List.flatMap_cons]

/-- The mark that shows the order of bytes. -/
def byteOrderMark : Char := '\uFEFF'

/-- A byte order mark before a text is left out. -/
def skipMark : List Char → List Char
  | [] => []
  | c :: cs => if c = byteOrderMark then cs else c :: cs

/-- A wide string as UTF-8. -/
def toUtf8 (s : WideText) : List UInt8 := encodeUtf8 (fromUtf16 s)

/-- The wide string of bytes in UTF-8 up to the first zero byte, without a byte order mark. -/
def fromUtf8 (bytes : List UInt8) : WideText :=
  (skipMark (decodeUtf8 (bytes.takeWhile (· ≠ 0)))).flatMap toUtf16

/-- A text of whole characters, without zeros and without a byte order mark before it. -/
def IsPlain (s : WideText) : Prop :=
  ∃ cs : List Char, s = cs.flatMap toUtf16 ∧ '\x00' ∉ cs ∧ cs.head? ≠ some byteOrderMark

theorem fromUtf8_toUtf8 (s : WideText) : fromUtf8 (toUtf8 s) =
    (skipMark ((fromUtf16 s).takeWhile (· ≠ '\x00'))).flatMap toUtf16 := by
  rw [fromUtf8, toUtf8, takeWhile_encodeUtf8, decodeUtf8_encodeUtf8]

theorem skipMark_of_head {cs : List Char} (h : cs.head? ≠ some byteOrderMark) : skipMark cs = cs := by
  cases cs with
  | nil => rfl
  | cons c cs => exact if_neg fun hc => h (congrArg some hc)

theorem length_skipMark_le : (skipMark cs).length ≤ cs.length := by
  cases cs with
  | nil => exact le_rfl
  | cons c cs =>
    rw [skipMark]
    split_ifs
    · exact Nat.le_succ _
    · exact le_rfl

/-- Exactly the plain texts survive UTF-8. -/
theorem fromUtf8_toUtf8_iff (s : WideText) : fromUtf8 (toUtf8 s) = s ↔ IsPlain s := by
  rw [fromUtf8_toUtf8]
  constructor
  · intro h
    let cs := skipMark ((fromUtf16 s).takeWhile (· ≠ '\x00'))
    have hcs : fromUtf16 s = cs := by
      rw [← fromUtf16_flatMap cs]
      exact congrArg fromUtf16 h.symm
    have hlength : (fromUtf16 s).length ≤ ((fromUtf16 s).takeWhile (· ≠ '\x00')).length := by
      calc (fromUtf16 s).length = cs.length := congrArg List.length hcs
        _ ≤ _ := length_skipMark_le _
    have hall : (fromUtf16 s).takeWhile (· ≠ '\x00') = fromUtf16 s :=
      (List.takeWhile_prefix _).eq_of_length_le hlength
    refine ⟨cs, h.symm, fun hzero => ?_, fun hmark => ?_⟩
    · rw [← hcs, ← hall] at hzero
      simpa using List.mem_takeWhile_imp hzero
    · have hskip : skipMark (fromUtf16 s) = fromUtf16 s := by
        calc skipMark (fromUtf16 s) = cs := congrArg skipMark hall.symm
          _ = fromUtf16 s := hcs.symm
      rw [← hcs] at hmark
      cases hs : fromUtf16 s with
      | nil => simp [hs] at hmark
      | cons c cs' =>
        rw [hs] at hmark hskip
        have hc : c = byteOrderMark := Option.some.inj hmark
        rw [skipMark, if_pos hc] at hskip
        exact absurd (congrArg List.length hskip) (by simp)
  · rintro ⟨cs, rfl, hzero, hmark⟩
    rw [fromUtf16_flatMap]
    have hall : cs.takeWhile (· ≠ '\x00') = cs :=
      List.takeWhile_eq_self_iff.mpr fun c hc => decide_eq_true fun h => hzero (h ▸ hc)
    rw [hall, skipMark_of_head hmark]

/-- Bytes as a wide string. -/
def fromLatin1 (bytes : List UInt8) : WideText := bytes.map fun b => UInt16.ofNat b.toNat

/-- A wide string as bytes, with a question mark for each unit above a byte. -/
def toLatin1 (s : WideText) : List UInt8 :=
  s.map fun u => if u.toNat < 256 then UInt8.ofNat u.toNat else 63

variable (bytes : List UInt8)

theorem toLatin1_fromLatin1 : toLatin1 (fromLatin1 bytes) = bytes := by
  rw [toLatin1, fromLatin1, List.map_map]
  refine (List.map_congr_left fun b _ => ?_).trans (List.map_id bytes)
  have hb : b.toNat < 256 := b.toNat_lt
  have hunit : (UInt16.ofNat b.toNat).toNat = b.toNat := UInt16.toNat_ofNat_of_lt' (by
    show b.toNat < 65536
    omega)
  rw [Function.comp_apply, hunit, if_pos hb, UInt8.ofNat_toNat]
  rfl

/-- A digit of base 16. -/
def hexDigit (n : ℕ) : UInt8 := if n < 10 then UInt8.ofNat (48 + n) else UInt8.ofNat (55 + n)

/-- The value of a digit of base 16. -/
def hexValue (b : UInt8) : UInt8 :=
  if 48 ≤ b ∧ b ≤ 57 then b - 48
  else if 97 ≤ b ∧ b ≤ 102 then b - 87
  else if 65 ≤ b ∧ b ≤ 70 then b - 55
  else b

/-- A byte, behind a percent sign unless it may stay. -/
def percentByte (keep : UInt8 → Bool) (b : UInt8) : List UInt8 :=
  if keep b then [b] else [37, hexDigit (b.toNat / 16), hexDigit (b.toNat % 16)]

/-- Bytes behind percent signs, apart from those that may stay. -/
def toPercent (keep : UInt8 → Bool) (bytes : List UInt8) : List UInt8 :=
  bytes.flatMap (percentByte keep)

/-- The bytes of a text with percent signs. -/
def fromPercent : List UInt8 → List UInt8
  | [] => []
  | b :: bs =>
    match bs with
    | high :: low :: rest =>
      if b = 37 then ((hexValue high <<< 4) ||| hexValue low) :: fromPercent rest
      else b :: fromPercent (high :: low :: rest)
    | bs => b :: fromPercent bs

theorem hexValue_digits (b : UInt8) :
    (hexValue (hexDigit (b.toNat / 16)) <<< 4) ||| hexValue (hexDigit (b.toNat % 16)) = b := by
  have hall : ∀ n < 256, (hexValue (hexDigit (n / 16)) <<< 4) ||| hexValue (hexDigit (n % 16)) =
      UInt8.ofNat n := by decide +kernel
  rw [hall b.toNat b.toNat_lt, UInt8.ofNat_toNat]

theorem fromPercent_cons {b : UInt8} (h : b ≠ 37) (bytes : List UInt8) :
    fromPercent (b :: bytes) = b :: fromPercent bytes := by
  match bytes with
  | [] => rfl
  | [_] => rfl
  | _ :: _ :: _ => rw [fromPercent, if_neg h]

variable {keep : UInt8 → Bool}

/-- One byte is read back. -/
theorem fromPercent_percentByte (h : keep 37 = false) (b : UInt8) (bytes : List UInt8) :
    fromPercent (percentByte keep b ++ bytes) = b :: fromPercent bytes := by
  rw [percentByte]
  split_ifs with hb
  · have hne : b ≠ 37 := by
      rintro rfl
      rw [h] at hb
      exact absurd hb Bool.false_ne_true
    exact fromPercent_cons hne bytes
  · rw [List.cons_append, List.cons_append, List.singleton_append, fromPercent, if_pos rfl, hexValue_digits]

theorem fromPercent_toPercent (h : keep 37 = false) (bytes : List UInt8) :
    fromPercent (toPercent keep bytes) = bytes := by
  induction bytes with
  | nil => rfl
  | cons b bytes ih =>
    rw [toPercent, List.flatMap_cons, fromPercent_percentByte h]
    exact congrArg (b :: ·) ih

/-- A printable byte of ASCII. -/
def IsPrintable (b : UInt8) : Prop := 32 ≤ b.toNat ∧ b.toNat < 127

theorem isPrintable_hexDigit {n : ℕ} (h : n < 16) : IsPrintable (hexDigit n) := by
  unfold IsPrintable
  interval_cases n <;> decide

/-- Bytes behind percent signs are printable where those that stay are. -/
theorem isPrintable_toPercent (h : ∀ b, keep b = true → IsPrintable b)
    (bytes : List UInt8) : ∀ b ∈ toPercent keep bytes, IsPrintable b := by
  intro b hb
  obtain ⟨a, -, ha⟩ := List.mem_flatMap.mp hb
  rw [percentByte] at ha
  split_ifs at ha with hkeep
  · rw [List.mem_singleton.mp ha]
    exact h a hkeep
  · have hbyte : a.toNat < 256 := a.toNat_lt
    rcases List.mem_cons.mp ha with rfl | ha
    · exact ⟨by decide, by decide⟩
    · rcases List.mem_cons.mp ha with rfl | ha
      · exact isPrintable_hexDigit (by omega)
      · rw [List.mem_singleton.mp ha]
        exact isPrintable_hexDigit (by omega)

/-- The letter for six bits. -/
def base64Letter (n : ℕ) : UInt8 :=
  if n < 26 then UInt8.ofNat (65 + n)
  else if n < 52 then UInt8.ofNat (71 + n)
  else if n < 62 then UInt8.ofNat (n - 4)
  else if n = 62 then 43
  else 47

/-- The six bits of a letter. -/
def base64Value (b : UInt8) : Option ℕ :=
  if 65 ≤ b ∧ b ≤ 90 then some (b.toNat - 65)
  else if 97 ≤ b ∧ b ≤ 122 then some (b.toNat - 71)
  else if 48 ≤ b ∧ b ≤ 57 then some (b.toNat + 4)
  else if b = 43 then some 62
  else if b = 47 then some 63
  else none

/-- Bytes in base 64, three in four letters. -/
def toBase64 : List UInt8 → List UInt8
  | [] => []
  | [a] => [base64Letter (a.toNat / 4), base64Letter (a.toNat % 4 * 16), 61, 61]
  | [a, b] =>
    [base64Letter (a.toNat / 4), base64Letter (a.toNat % 4 * 16 + b.toNat / 16), base64Letter (b.toNat % 16 * 4), 61]
  | a :: b :: c :: bytes =>
    base64Letter (a.toNat / 4) :: base64Letter (a.toNat % 4 * 16 + b.toNat / 16) ::
      base64Letter (b.toNat % 16 * 4 + c.toNat / 64) :: base64Letter (c.toNat % 64) ::
      toBase64 bytes

/-- Take six bits from each letter and give a byte whenever eight are there. -/
def fromBase64Loop (buf nbits : ℕ) : List UInt8 → List UInt8
  | [] => []
  | b :: bs =>
    match base64Value b with
    | none => fromBase64Loop buf nbits bs
    | some d =>
      if 8 ≤ nbits + 6 then
        UInt8.ofNat ((buf * 64 + d) / 2 ^ (nbits - 2)) ::
          fromBase64Loop ((buf * 64 + d) % 2 ^ (nbits - 2)) (nbits - 2) bs
      else fromBase64Loop (buf * 64 + d) (nbits + 6) bs

/-- The bytes of a text in base 64; other characters are skipped. -/
def fromBase64 (bytes : List UInt8) : List UInt8 := fromBase64Loop 0 0 bytes

theorem base64Value_letter {n : ℕ} (h : n < 64) : base64Value (base64Letter n) = some n := by
  have hall : ∀ n < 64, base64Value (base64Letter n) = some n := by decide
  exact hall n h

theorem fromBase64Loop_first {n : ℕ} (h : n < 64) (bs : List UInt8) :
    fromBase64Loop 0 0 (base64Letter n :: bs) = fromBase64Loop n 6 bs := by
  rw [fromBase64Loop, base64Value_letter h]
  simp

theorem fromBase64Loop_letter {n nbits : ℕ} (h : n < 64) (hbits : 2 ≤ nbits) (buf : ℕ)
    (bs : List UInt8) : fromBase64Loop buf nbits (base64Letter n :: bs) =
      UInt8.ofNat ((buf * 64 + n) / 2 ^ (nbits - 2)) ::
        fromBase64Loop ((buf * 64 + n) % 2 ^ (nbits - 2)) (nbits - 2) bs := by
  rw [fromBase64Loop, base64Value_letter h]
  exact if_pos (by omega)

/-- Bytes are read back from base 64. -/
theorem fromBase64_toBase64 : fromBase64 (toBase64 bytes) = bytes := by
  have hbyte : ∀ (x : UInt8) (n : ℕ), n = x.toNat → UInt8.ofNat n = x := by
    rintro x n rfl
    exact UInt8.ofNat_toNat
  rw [fromBase64]
  induction bytes using toBase64.induct with
  | case1 => rfl
  | case2 a =>
    have ha : a.toNat < 256 := a.toNat_lt
    rw [toBase64, fromBase64Loop_first (by omega), fromBase64Loop_letter (by omega) (by omega)]
    have hfirst := hbyte a ((a.toNat / 4 * 64 + a.toNat % 4 * 16) / 2 ^ (6 - 2)) (by omega)
    rw [hfirst]
    rfl
  | case3 a b =>
    have ha : a.toNat < 256 := a.toNat_lt
    have hb : b.toNat < 256 := b.toNat_lt
    rw [toBase64, fromBase64Loop_first (by omega), fromBase64Loop_letter (by omega) (by omega),
      fromBase64Loop_letter (by omega) (by omega)]
    have hfirst := hbyte a ((a.toNat / 4 * 64 + (a.toNat % 4 * 16 + b.toNat / 16)) / 2 ^ (6 - 2)) (by omega)
    have hsecond := hbyte b (((a.toNat / 4 * 64 + (a.toNat % 4 * 16 + b.toNat / 16)) % 2 ^ (6 - 2) * 64 +
        b.toNat % 16 * 4) / 2 ^ (6 - 2 - 2)) (by omega)
    rw [hfirst, hsecond]
    rfl
  | case4 a b c bytes ih =>
    have ha : a.toNat < 256 := a.toNat_lt
    have hb : b.toNat < 256 := b.toNat_lt
    have hc : c.toNat < 256 := c.toNat_lt
    rw [toBase64, fromBase64Loop_first (by omega), fromBase64Loop_letter (by omega) (by omega),
      fromBase64Loop_letter (by omega) (by omega), fromBase64Loop_letter (by omega) (by omega)]
    have hfirst := hbyte a ((a.toNat / 4 * 64 + (a.toNat % 4 * 16 + b.toNat / 16)) / 2 ^ (6 - 2)) (by omega)
    have hsecond := hbyte b (((a.toNat / 4 * 64 + (a.toNat % 4 * 16 + b.toNat / 16)) % 2 ^ (6 - 2) * 64 +
        (b.toNat % 16 * 4 + c.toNat / 64)) / 2 ^ (6 - 2 - 2)) (by omega)
    have hthird := hbyte c ((((a.toNat / 4 * 64 + (a.toNat % 4 * 16 + b.toNat / 16)) % 2 ^ (6 - 2) * 64 +
        (b.toNat % 16 * 4 + c.toNat / 64)) % 2 ^ (6 - 2 - 2) * 64 + c.toNat % 64) /
        2 ^ (6 - 2 - 2 - 2)) (by omega)
    have hempty : (((a.toNat / 4 * 64 + (a.toNat % 4 * 16 + b.toNat / 16)) % 2 ^ (6 - 2) * 64 +
        (b.toNat % 16 * 4 + c.toNat / 64)) % 2 ^ (6 - 2 - 2) * 64 + c.toNat % 64) %
        2 ^ (6 - 2 - 2 - 2) = 0 := by omega
    rw [hfirst, hsecond, hthird, hempty]
    exact congrArg (fun rest => a :: b :: c :: rest) ih

theorem isPrintable_base64Letter {n : ℕ} (h : n < 64) : IsPrintable (base64Letter n) := by
  have hall : ∀ n < 64, 32 ≤ (base64Letter n).toNat ∧ (base64Letter n).toNat < 127 := by
    decide
  exact hall n h

theorem isPrintable_toBase64 : ∀ b ∈ toBase64 bytes, IsPrintable b := by
  have hpad : IsPrintable 61 := ⟨by decide, by decide⟩
  induction bytes using toBase64.induct with
  | case1 => exact nofun
  | case2 a =>
    have ha : a.toNat < 256 := a.toNat_lt
    rw [toBase64]
    simp only [List.forall_mem_cons]
    exact ⟨isPrintable_base64Letter (by omega), isPrintable_base64Letter (by omega), hpad, hpad, nofun⟩
  | case3 a b =>
    have ha : a.toNat < 256 := a.toNat_lt
    have hb : b.toNat < 256 := b.toNat_lt
    rw [toBase64]
    simp only [List.forall_mem_cons]
    exact ⟨isPrintable_base64Letter (by omega), isPrintable_base64Letter (by omega),
      isPrintable_base64Letter (by omega), hpad, nofun⟩
  | case4 a b c bytes ih =>
    have ha : a.toNat < 256 := a.toNat_lt
    have hb : b.toNat < 256 := b.toNat_lt
    have hc : c.toNat < 256 := c.toNat_lt
    rw [toBase64]
    simp only [List.forall_mem_cons]
    exact ⟨isPrintable_base64Letter (by omega), isPrintable_base64Letter (by omega),
      isPrintable_base64Letter (by omega), isPrintable_base64Letter (by omega), ih⟩

/-- A whole number in decimal digits. -/
def decimalText (i : ℤ) : List Char :=
  if i < 0 then '-' :: Nat.toDigits 10 i.natAbs else Nat.toDigits 10 i.natAbs

/-- The number of digits alone. -/
def digitsValue (cs : List Char) : Option ℕ :=
  if !cs.isEmpty && cs.all Char.isDigit then some (Nat.ofDigitChars 10 cs 0) else none

/-- The number of decimal digits behind a sign or without one. -/
def decimalValue : List Char → Option ℤ
  | '-' :: cs => (digitsValue cs).map fun n : ℕ => -(n : ℤ)
  | '+' :: cs => (digitsValue cs).map fun n : ℕ => (n : ℤ)
  | cs => (digitsValue cs).map fun n : ℕ => (n : ℤ)

theorem digitsValue_toDigits (n : ℕ) : digitsValue (Nat.toDigits 10 n) = some n := by
  have hne : (Nat.toDigits 10 n).isEmpty = false :=
    List.isEmpty_eq_false_iff.mpr Nat.toDigits_ne_nil
  have hall : (Nat.toDigits 10 n).all Char.isDigit = true :=
    List.all_eq_true.mpr fun c hc => Nat.isDigit_of_mem_toDigits (by omega) (by omega) hc
  rw [digitsValue, hne, hall, Nat.ofDigitChars_toDigits (by omega) (by omega)]
  rfl

theorem decimalValue_of_isDigit (h : c.isDigit = true) (cs : List Char) :
    decimalValue (c :: cs) = (digitsValue (c :: cs)).map fun n : ℕ => (n : ℤ) := by
  unfold decimalValue
  split
  · next heq => exact absurd ((List.cons.inj heq).1 ▸ h) (by decide)
  · next heq => exact absurd ((List.cons.inj heq).1 ▸ h) (by decide)
  · rfl

/-- Numbers are read back from their digits. -/
theorem decimalValue_decimalText (i : ℤ) : decimalValue (decimalText i) = some i := by
  rw [decimalText]
  split_ifs with hneg
  · have hvalue : -(i.natAbs : ℤ) = i := by omega
    rw [decimalValue, digitsValue_toDigits, Option.map_some, hvalue]
  · have hvalue : (i.natAbs : ℤ) = i := by omega
    have hdigits : ∀ c ∈ Nat.toDigits 10 i.natAbs, c.isDigit = true := fun c hc =>
      Nat.isDigit_of_mem_toDigits (by omega) (by omega) hc
    have hread := digitsValue_toDigits i.natAbs
    cases htext : Nat.toDigits 10 i.natAbs with
    | nil => exact absurd htext Nat.toDigits_ne_nil
    | cons c cs =>
      rw [htext] at hdigits hread
      rw [decimalValue_of_isDigit (hdigits c List.mem_cons_self), hread, Option.map_some, hvalue]

theorem isPlain_of_ascii {cs : List Char} (h : ∀ c ∈ cs, 0 < c.toNat ∧ c.toNat < 128) :
    IsPlain (cs.flatMap toUtf16) := by
  refine ⟨cs, rfl, fun hzero => absurd (h _ hzero).1 (by decide), fun hmark => ?_⟩
  exact absurd (h _ (List.mem_of_mem_head? hmark)).2 (by decide)

/-- The characters of a number are digits and a sign. -/
theorem toNat_of_mem_decimalText {i : ℤ} (h : c ∈ decimalText i) : 45 ≤ c.toNat ∧ c.toNat ≤ 57 := by
  have hdigits : ∀ c ∈ Nat.toDigits 10 i.natAbs, 45 ≤ c.toNat ∧ c.toNat ≤ 57 := by
    intro c hc
    have hdigit := Nat.isDigit_of_mem_toDigits (by omega) (by omega) hc
    simp only [Char.isDigit, Bool.and_eq_true, decide_eq_true_eq] at hdigit
    have hlow : 48 ≤ c.toNat := hdigit.1
    have hhigh : c.toNat ≤ 57 := hdigit.2
    omega
  rw [decimalText] at h
  split_ifs at h
  · rcases List.mem_cons.mp h with rfl | h
    · exact ⟨by decide, by decide⟩
    · exact hdigits c h
  · exact hdigits c h

theorem isPlain_decimalText (i : ℤ) : IsPlain ((decimalText i).flatMap toUtf16) := by
  refine isPlain_of_ascii fun c hc => ?_
  have hrange := toNat_of_mem_decimalText hc
  omega

end NeoLoader.TextEncodings
