import NeoLoader.TextEncodings

/-!
# Names in torrents

The names in a torrent are bytes that should be UTF-8. Bytes that are not are taken for characters of Latin 1, and in
names of paths the characters that no file name may have are replaced. What comes out is decoded by a decoder that
knows sequences of up to three bytes.
-/

namespace NeoLoader.TorrentNames

open TextEncodings hiding fromUtf8

section Encoding

/-- `valid_path_character`, on Windows or not. -/
def validPathCharacter (win32 : Bool) (c : UInt8) : Bool :=
  !decide (c < 32) && !(win32 && [63, 60, 62, 34, 124, 8, 42, 58].contains c)

/-- `convert_to_utf8`. -/
def convertToUtf8 (chr : UInt8) : List UInt8 := [(0xc0 : UInt8) ||| (chr >>> 6), (0x80 : UInt8) ||| (chr &&& 0x3f)]

/-- A byte that follows in a sequence. -/
def isNext (b : UInt8) : Bool := b &&& 0xc0 = 0x80

/-- The loop of `verify_encoding`: `tmp_path`, and whether the encoding is valid. -/
def verifyLoop (win32 fixPaths : Bool) : List UInt8 → List UInt8 × Bool
  | [] => ([], true)
  | b :: rest =>
    if b &&& 0x80 = 0 then
      if !fixPaths || validPathCharacter win32 b then
        (b :: (verifyLoop win32 fixPaths rest).1, (verifyLoop win32 fixPaths rest).2)
      else (95 :: (verifyLoop win32 fixPaths rest).1, false)
    else
      match rest with
      | [] => (convertToUtf8 b, false)
      | b₁ :: rest₁ =>
        if b &&& 0xe0 = 0xc0 ∧ isNext b₁ then
          (b :: b₁ :: (verifyLoop win32 fixPaths rest₁).1, (verifyLoop win32 fixPaths rest₁).2)
        else
          match rest₁ with
          | [] => (convertToUtf8 b ++ (verifyLoop win32 fixPaths [b₁]).1, false)
          | b₂ :: rest₂ =>
            if b &&& 0xf0 = 0xe0 ∧ isNext b₁ ∧ isNext b₂ then
              (b :: b₁ :: b₂ :: (verifyLoop win32 fixPaths rest₂).1, (verifyLoop win32 fixPaths rest₂).2)
            else
              match rest₂ with
              | [] => (convertToUtf8 b ++ (verifyLoop win32 fixPaths [b₁, b₂]).1, false)
              | b₃ :: rest₃ =>
                if b &&& 0xf0 = 0xe0 ∧ isNext b₁ ∧ isNext b₂ ∧ isNext b₃ then
                  (b :: b₁ :: b₂ :: b₃ :: (verifyLoop win32 fixPaths rest₃).1, (verifyLoop win32 fixPaths rest₃).2)
                else (convertToUtf8 b ++ (verifyLoop win32 fixPaths (b₁ :: b₂ :: b₃ :: rest₃)).1, false)

/-- `verify_encoding`. -/
def verifyEncoding (win32 fixPaths : Bool) (target : List UInt8) : List UInt8 :=
  if (verifyLoop win32 fixPaths target).2 then target else (verifyLoop win32 fixPaths target).1

/-- The loop of `UTF8toWCHAR`, with `tst`. A place that is left unset reads as zero. -/
def toWChar : Bool → List UInt8 → WideText
  | _, [] => []
  | tst, b :: rest =>
    if b &&& 128 = 0 then UInt16.ofNat b.toNat :: toWChar true rest
    else if b &&& 192 = 128 then
      if tst then (0xff00 ||| UInt16.ofNat b.toNat) :: toWChar tst rest else toWChar tst rest
    else if b &&& 224 = 192 then
      UInt16.ofNat ((b.toNat &&& 31) <<< 6 ||| (rest.getD 0 0).toNat &&& 63) :: toWChar false rest
    else if b &&& 240 = 224 then
      UInt16.ofNat ((b.toNat &&& 15) <<< 12 ||| ((rest.getD 0 0).toNat &&& 63) <<< 6 |||
        (rest.getD 1 0).toNat &&& 63) :: toWChar false rest
    else if b &&& 248 = 240 then 63 :: toWChar false rest
    else 0 :: toWChar tst rest

/-- `fromUtf8` of a torrent. -/
def fromUtf8 (win32 : Bool) (arr : List UInt8) (bPath : Bool) : WideText :=
  toWChar false (verifyEncoding win32 bPath (arr.takeWhile (· ≠ 0)))

end Encoding

section Characters

variable {win32 fixPaths : Bool}

theorem oneByte : ∀ x < 128, UInt8.ofNat x &&& 0x80 = 0 ∧ (UInt8.ofNat x).toNat = x := by
  decide

theorem firstOfTwo : ∀ x < 32, UInt8.ofNat (x + 192) &&& 128 ≠ 0 ∧ UInt8.ofNat (x + 192) &&& 192 ≠ 128 ∧
    UInt8.ofNat (x + 192) &&& 224 = 192 ∧ (UInt8.ofNat (x + 192)).toNat &&& 31 = x := by
  decide

theorem firstOfThree : ∀ x < 16, UInt8.ofNat (x + 224) &&& 128 ≠ 0 ∧ UInt8.ofNat (x + 224) &&& 192 ≠ 128 ∧
    UInt8.ofNat (x + 224) &&& 224 ≠ 192 ∧ UInt8.ofNat (x + 224) &&& 240 = 224 ∧
      (UInt8.ofNat (x + 224)).toNat &&& 15 = x := by
  decide

theorem nextByte : ∀ x < 64, isNext (UInt8.ofNat (x + 128)) = true ∧ UInt8.ofNat (x + 128) &&& 128 ≠ 0 ∧
    UInt8.ofNat (x + 128) &&& 192 = 128 ∧ (UInt8.ofNat (x + 128)).toNat &&& 63 = x := by
  decide

/-- A character that the names of files may have, and that is one unit. -/
def IsNameChar (win32 : Bool) (c : Char) : Prop :=
  c ≠ '\x00' ∧ c.toNat < 0x10000 ∧ (c.toNat < 128 → validPathCharacter win32 (UInt8.ofNat c.toNat) = true)

/-- The encoding of such a character is valid. -/
theorem verifyLoop_char {c : Char} (h : IsNameChar win32 c) (rest : List UInt8) :
    verifyLoop win32 true (String.utf8EncodeChar c ++ rest) =
      (String.utf8EncodeChar c ++ (verifyLoop win32 true rest).1, (verifyLoop win32 true rest).2) := by
  obtain ⟨-, hunit, hvalid⟩ := h
  have hval : c.toNat = c.val.toNat := rfl
  rw [hval] at hunit hvalid
  unfold String.utf8EncodeChar
  dsimp only
  generalize c.val.toNat = v at hunit hvalid
  split_ifs with hone htwo hthree
  · obtain ⟨hbit, -⟩ := oneByte v (by omega)
    rw [List.cons_append, List.nil_append, verifyLoop.eq_def]
    dsimp only
    rw [if_pos hbit, hvalid (by omega)]
    simp
  · obtain ⟨hfirst, -, htwo', -⟩ := firstOfTwo (v / 64 % 32) (Nat.mod_lt _ (by norm_num))
    obtain ⟨hnext, -⟩ := nextByte (v % 64) (Nat.mod_lt _ (by norm_num))
    rw [List.cons_append, List.cons_append, List.nil_append, verifyLoop.eq_def]
    dsimp only
    rw [if_neg hfirst, if_pos ⟨htwo', hnext⟩]
    simp
  · obtain ⟨hfirst, -, htwo', hthree', -⟩ := firstOfThree (v / 4096 % 16) (Nat.mod_lt _ (by norm_num))
    obtain ⟨hnext, -⟩ := nextByte (v / 64 % 64) (Nat.mod_lt _ (by norm_num))
    obtain ⟨hnext', -⟩ := nextByte (v % 64) (Nat.mod_lt _ (by norm_num))
    rw [List.cons_append, List.cons_append, List.cons_append, List.nil_append, verifyLoop.eq_def]
    dsimp only
    rw [if_neg hfirst, if_neg fun hboth => htwo' hboth.1, if_pos ⟨hthree', hnext, hnext'⟩]
    simp
  · omega

/-- Such a character is decoded. -/
theorem toWChar_char {c : Char} (h : c.toNat < 0x10000) (tst : Bool) (rest : List UInt8) :
    ∃ tst', toWChar tst (String.utf8EncodeChar c ++ rest) = toUtf16 c ++ toWChar tst' rest := by
  have hunits : toUtf16 c = [UInt16.ofNat c.toNat] := by
    rw [toUtf16, if_pos h]
  have hval : c.toNat = c.val.toNat := rfl
  rw [hunits, hval]
  rw [hval] at h
  unfold String.utf8EncodeChar
  dsimp only
  generalize c.val.toNat = v at h
  split_ifs with hone htwo hthree
  · obtain ⟨hbit, hnat⟩ := oneByte v (by omega)
    refine ⟨true, ?_⟩
    rw [List.cons_append, List.nil_append, toWChar, if_pos hbit, hnat]
    rfl
  · obtain ⟨hfirst, hlater, hlead, hbits⟩ := firstOfTwo (v / 64 % 32) (Nat.mod_lt _ (by norm_num))
    obtain ⟨-, hskip, hnext, hbits₁⟩ := nextByte (v % 64) (Nat.mod_lt _ (by norm_num))
    refine ⟨false, ?_⟩
    have hsum : (v / 64 % 32) <<< 6 ||| v % 64 = v := by
      rw [← Nat.shiftLeft_add_eq_or_of_lt (show v % 64 < 2 ^ 6 by omega), Nat.shiftLeft_eq]
      omega
    rw [List.cons_append, toWChar, if_neg hfirst, if_neg hlater, if_pos hlead, hbits, List.cons_append,
      List.getD_cons_zero, hbits₁, hsum, toWChar, if_neg hskip, if_pos hnext]
    rfl
  · obtain ⟨hfirst, hlater, hlead, hlead₁, hbits⟩ := firstOfThree (v / 4096 % 16) (Nat.mod_lt _ (by norm_num))
    obtain ⟨-, hskip₁, hnext₁, hbits₁⟩ := nextByte (v / 64 % 64) (Nat.mod_lt _ (by norm_num))
    obtain ⟨-, hskip₂, hnext₂, hbits₂⟩ := nextByte (v % 64) (Nat.mod_lt _ (by norm_num))
    refine ⟨false, ?_⟩
    have hsum : (v / 4096 % 16) <<< 12 ||| (v / 64 % 64) <<< 6 ||| v % 64 = v := by
      have hhigh : (v / 4096 % 16) <<< 12 ||| (v / 64 % 64) <<< 6 = (v / 4096 % 16 * 64 + v / 64 % 64) <<< 6 := by
        rw [← Nat.shiftLeft_add_eq_or_of_lt (show (v / 64 % 64) <<< 6 < 2 ^ 12 by rw [Nat.shiftLeft_eq]; omega),
          Nat.shiftLeft_eq, Nat.shiftLeft_eq, Nat.shiftLeft_eq]
        omega
      rw [hhigh, ← Nat.shiftLeft_add_eq_or_of_lt (show v % 64 < 2 ^ 6 by omega), Nat.shiftLeft_eq]
      omega
    rw [List.cons_append, toWChar, if_neg hfirst, if_neg hlater, if_neg hlead, if_pos hlead₁, hbits, List.cons_append,
      List.cons_append, List.getD_cons_zero, List.getD_cons_succ, List.getD_cons_zero, hbits₁, hbits₂, hsum, toWChar,
      if_neg hskip₁, if_pos hnext₁, toWChar, if_neg hskip₂, if_pos hnext₂]
    rfl
  · omega

theorem verifyLoop_of_valid (target : List UInt8) (h : (verifyLoop win32 fixPaths target).2 = true) :
    (verifyLoop win32 fixPaths target).1 = target := by
  fun_induction verifyLoop win32 fixPaths target <;> simp_all

theorem verifyEncoding_eq (target : List UInt8) :
    verifyEncoding win32 fixPaths target = (verifyLoop win32 fixPaths target).1 := by
  rw [verifyEncoding]
  split_ifs with h
  · exact (verifyLoop_of_valid target h).symm
  · rfl

/-- What is made of characters. -/
def readName (win32 : Bool) (tst : Bool) (cs : List Char) : WideText :=
  toWChar tst (verifyLoop win32 true (encodeUtf8 (cs.takeWhile (· ≠ '\x00')))).1

theorem fromUtf8_eq (s : WideText) : fromUtf8 win32 (toUtf8 s) true = readName win32 false (fromUtf16 s) := by
  rw [fromUtf8, verifyEncoding_eq, toUtf8, takeWhile_encodeUtf8, readName]

theorem readName_cons {c : Char} (h : IsNameChar win32 c) (tst : Bool) (cs : List Char) :
    ∃ tst', readName win32 tst (c :: cs) = toUtf16 c ++ readName win32 tst' cs := by
  have hkeep : (c :: cs).takeWhile (· ≠ '\x00') = c :: cs.takeWhile (· ≠ '\x00') := by
    simp [h.1]
  simp only [readName]
  rw [hkeep, encodeUtf8, List.flatMap_cons, verifyLoop_char h]
  exact toWChar_char h.2.1 tst _

theorem readName_of {cs : List Char} (h : ∀ c ∈ cs, IsNameChar win32 c) (tst : Bool) :
    readName win32 tst cs = cs.flatMap toUtf16 := by
  induction cs generalizing tst with
  | nil => simp [readName, encodeUtf8, verifyLoop, toWChar]
  | cons c cs ih =>
    rw [List.forall_mem_cons] at h
    obtain ⟨tst', hnext⟩ := readName_cons h.1 tst cs
    rw [hnext, ih h.2, List.flatMap_cons]

theorem firstOfFour : ∀ x < 8, UInt8.ofNat (x + 240) &&& 0x80 ≠ 0 ∧ UInt8.ofNat (x + 240) &&& 0xe0 ≠ 0xc0 ∧
    UInt8.ofNat (x + 240) &&& 0xf0 ≠ 0xe0 ∧
      convertToUtf8 (UInt8.ofNat (x + 240)) = [UInt8.ofNat (3 + 192), UInt8.ofNat (x + 48 + 128)] ∧
        (3 <<< 6 ||| (x + 48)) = x + 240 := by
  decide

theorem head_toWChar_convert {x : ℕ} (hx : x < 8) (tst : Bool) (rest : List UInt8) :
    (toWChar tst (convertToUtf8 (UInt8.ofNat (x + 240)) ++ rest)).head? = some (UInt16.ofNat (x + 240)) := by
  obtain ⟨-, -, -, hconvert, hsum⟩ := firstOfFour x hx
  obtain ⟨hfirst, hlater, hlead, hbits⟩ := firstOfTwo 3 (by norm_num)
  obtain ⟨-, -, -, hnext⟩ := nextByte (x + 48) (by omega)
  rw [hconvert, List.cons_append, toWChar, if_neg hfirst, if_neg hlater, if_pos hlead, hbits, List.cons_append,
    List.getD_cons_zero, hnext, hsum, List.head?_cons]

/-- The first unit of any other character. -/
theorem head_readName {c : Char} (h : ¬ IsNameChar win32 c) (hzero : c ≠ '\x00') (tst : Bool) (cs : List Char) :
    (readName win32 tst (c :: cs)).head? = if c.toNat < 0x10000 then some 95
      else some (UInt16.ofNat (c.toNat / 262144 % 8 + 240)) := by
  have hkeep : (c :: cs).takeWhile (· ≠ '\x00') = c :: cs.takeWhile (· ≠ '\x00') := by
    simp [hzero]
  simp only [readName]
  rw [hkeep, encodeUtf8, List.flatMap_cons]
  generalize (cs.takeWhile (· ≠ '\x00')).flatMap String.utf8EncodeChar = rest
  have hval : c.toNat = c.val.toNat := rfl
  have hbad : c.val.toNat < 0x10000 → c.val.toNat < 128 ∧
      validPathCharacter win32 (UInt8.ofNat c.val.toNat) = false := by
    intro hunit
    by_contra hgood
    refine h ⟨hzero, hunit, fun hone => ?_⟩
    rw [not_and, Bool.not_eq_false] at hgood
    exact hgood hone
  rw [hval]
  unfold String.utf8EncodeChar
  dsimp only
  generalize c.val.toNat = v at hbad
  by_cases hunit : v < 0x10000
  · obtain ⟨hone, hvalid⟩ := hbad hunit
    obtain ⟨hbit, -⟩ := oneByte v hone
    rw [if_pos hunit, if_pos (by omega), List.cons_append, List.nil_append, verifyLoop.eq_def]
    dsimp only
    rw [if_pos hbit, hvalid]
    simp only [Bool.not_true, Bool.or_self, Bool.false_eq_true, if_false]
    rw [toWChar, if_pos (by decide)]
    rfl
  · obtain ⟨hfirst, htwo, hthree, -⟩ := firstOfFour (v / 262144 % 8) (Nat.mod_lt _ (by norm_num))
    rw [if_neg hunit, if_neg (by omega), if_neg (by omega), if_neg (by omega)]
    simp only [List.cons_append, List.nil_append]
    rw [verifyLoop.eq_def]
    dsimp only
    rw [if_neg hfirst, if_neg fun hboth => htwo hboth.1, if_neg fun hboth => hthree hboth.1,
      if_neg fun hboth => hthree hboth.1]
    exact head_toWChar_convert (Nat.mod_lt _ (by norm_num)) tst _

theorem head_readName_mark (tst : Bool) (cs : List Char) :
    (readName win32 tst ('?' :: cs)).head? = some 63 ∨ (readName win32 tst ('?' :: cs)).head? = some 95 := by
  by_cases h : IsNameChar win32 '?'
  · obtain ⟨tst', hnext⟩ := readName_cons h tst cs
    rw [hnext]
    exact Or.inl rfl
  · rw [head_readName h (by decide)]
    exact Or.inr rfl

/-- A name whose characters are all ones that names may have. -/
def IsName (win32 : Bool) (s : WideText) : Prop :=
  ∃ cs : List Char, s = cs.flatMap toUtf16 ∧ ∀ c ∈ cs, IsNameChar win32 c

theorem toNat_ofNat_of_valid {n : ℕ} (h : n.isValidChar) : (Char.ofNat n).toNat = n := by
  rw [Char.ofNat, dif_pos h]
  rfl

theorem toNat_ofNat_unit {u : UInt16} (hhigh : isHighSurrogate u = false) (hlow : isLowSurrogate u = false) :
    (Char.ofNat u.toNat).toNat = u.toNat := by
  have hlt := u.toNat_lt
  simp only [isHighSurrogate, isLowSurrogate, Bool.and_eq_false_imp, decide_eq_true_eq, decide_eq_false_iff_not]
    at hhigh hlow
  refine toNat_ofNat_of_valid ?_
  rw [Nat.isValidChar]
  omega

/-- A name goes on with a unit that is no half. -/
theorem isName_cons {u : UInt16} (hhigh : isHighSurrogate u = false) (hlow : isLowSurrogate u = false)
    {us : WideText} {cs : List Char} {tst : Bool} (h : readName win32 tst (Char.ofNat u.toNat :: cs) = u :: us)
    (hrest : ∀ tst, readName win32 tst cs = us → IsName win32 us) : IsName win32 (u :: us) := by
  have hunit := toNat_ofNat_unit hhigh hlow
  have hlt := u.toNat_lt
  generalize Char.ofNat u.toNat = c at h hunit
  have hutf16 : toUtf16 c = [u] := by
    rw [toUtf16, if_pos (by omega), hunit, UInt16.ofNat_toNat]
  by_cases hc : IsNameChar win32 c
  · obtain ⟨tst', hnext⟩ := readName_cons hc tst cs
    rw [hnext, hutf16, List.singleton_append, List.cons.injEq] at h
    obtain ⟨cs', rfl, hcs'⟩ := hrest tst' h.2
    refine ⟨c :: cs', ?_, List.forall_mem_cons.mpr ⟨hc, hcs'⟩⟩
    rw [List.flatMap_cons, hutf16, List.singleton_append]
  · by_cases hzero : c = '\x00'
    · simp [readName, hzero, encodeUtf8, verifyLoop, toWChar] at h
    · have hhead := head_readName hc hzero tst cs
      rw [h, if_pos (by omega), List.head?_cons, Option.some.injEq] at hhead
      subst hhead
      have hvalid : validPathCharacter win32 95 = true := by
        cases win32 <;> decide
      refine absurd ⟨hzero, by omega, fun _ => ?_⟩ hc
      rw [hunit]
      exact hvalid

theorem isName_of_mark {u : UInt16} (h : isHighSurrogate u = true ∨ isLowSurrogate u = true) {us : WideText}
    {cs : List Char} {tst : Bool} (hread : readName win32 tst ('?' :: cs) = u :: us) : IsName win32 (u :: us) := by
  have hhead := @head_readName_mark win32 tst cs
  rw [hread, List.head?_cons, Option.some.injEq, Option.some.injEq] at hhead
  obtain rfl | rfl := hhead
  · exact absurd h (by decide)
  · exact absurd h (by decide)

/-- What is read back is a name. -/
theorem isName_of_readName (s : WideText) (tst : Bool) (h : readName win32 tst (fromUtf16 s) = s) : IsName win32 s := by
  induction s using fromUtf16.induct generalizing tst with
  | case1 => exact ⟨[], rfl, by simp⟩
  | case2 u =>
    rw [fromUtf16] at h
    split_ifs at h with hhalf
    · exact isName_of_mark (Bool.or_eq_true_iff.mp hhalf) h
    · rw [Bool.not_eq_true, Bool.or_eq_false_iff] at hhalf
      exact isName_cons hhalf.1 hhalf.2 h fun _ _ => ⟨[], rfl, by simp⟩
  | case3 u v us hhigh hlow ih =>
    rw [fromUtf16, if_pos hhigh, if_pos hlow] at h
    simp only [isHighSurrogate, isLowSurrogate, Bool.and_eq_true, decide_eq_true_eq] at hhigh hlow
    have hunits : (Char.ofNat (0x10000 + (u.toNat - 0xD800) * 0x400 + (v.toNat - 0xDC00))).toNat =
        0x10000 + (u.toNat - 0xD800) * 0x400 + (v.toNat - 0xDC00) := by
      refine toNat_ofNat_of_valid ?_
      rw [Nat.isValidChar]
      omega
    generalize Char.ofNat (0x10000 + (u.toNat - 0xD800) * 0x400 + (v.toNat - 0xDC00)) = c at h hunits
    have hchar : ¬ IsNameChar win32 c := fun hc => absurd hc.2.1 (by omega)
    have hzero : c ≠ '\x00' := by
      rintro rfl
      exact absurd hunits (by simp; omega)
    have hhead := head_readName hchar hzero tst (fromUtf16 us)
    rw [h, if_neg (by omega), List.head?_cons, Option.some.injEq] at hhead
    have hsmall : u.toNat = c.toNat / 262144 % 8 + 240 := by
      have hsize : UInt16.size = 65536 := rfl
      rw [hhead]
      exact UInt16.toNat_ofNat_of_lt' (by omega)
    omega
  | case4 u v us hhigh hlow ih =>
    rw [fromUtf16, if_pos hhigh, if_neg hlow] at h
    exact isName_of_mark (Or.inl hhigh) h
  | case5 u v us hhigh hlow ih =>
    rw [fromUtf16, if_neg hhigh, if_pos hlow] at h
    exact isName_of_mark (Or.inr hlow) h
  | case6 u v us hhigh hlow ih =>
    rw [fromUtf16, if_neg hhigh, if_neg hlow] at h
    exact isName_cons (Bool.eq_false_iff.mpr hhigh) (Bool.eq_false_iff.mpr hlow) h ih

theorem fromUtf8_toUtf8_iff (s : WideText) : fromUtf8 win32 (toUtf8 s) true = s ↔ IsName win32 s := by
  rw [fromUtf8_eq]
  constructor
  · exact isName_of_readName s false
  · rintro ⟨cs, rfl, h⟩
    rw [fromUtf16_flatMap, readName_of h]

end Characters

end NeoLoader.TorrentNames
