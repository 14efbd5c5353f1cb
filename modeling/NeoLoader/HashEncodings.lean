import NeoLoader.CollectionLinks

/-!
# Hashes as texts

A hash is written in base 16, 32 or 64. The length of the text says which base it has, for the size that belongs to the
type of the hash.
-/

namespace NeoLoader.HashEncodings

open MuleCollection TextEncodings

section Base32

/-- `base32Chars`. -/
def base32Char (word : ℕ) : UInt8 := if word < 26 then UInt8.ofNat (65 + word) else UInt8.ofNat (24 + word)

/-- The loop of `EncodeHash` for base 32: `index` bits of the first byte are written. -/
def encode32 (index : ℕ) : List UInt8 → List UInt8
  | [] => []
  | b :: bytes =>
    if 3 < index then
      let word := (b.toNat &&& (0xFF >>> index)) <<< ((index + 5) % 8)
      base32Char (word ||| (bytes.head?.elim 0 fun next => next.toNat >>> (8 - (index + 5) % 8))) ::
        encode32 ((index + 5) % 8) bytes
    else
      base32Char (b.toNat >>> (8 - (index + 5)) &&& 0x1F) ::
        (if index = 3 then encode32 0 bytes else encode32 (index + 5) (b :: bytes))
termination_by bytes => (bytes.length, 8 - index)
decreasing_by all_goals (simp_wf; omega)

/-- The value of a letter or digit of base 32. -/
def base32Value (c : UInt8) : Option ℕ :=
  if 65 ≤ c.toNat ∧ c.toNat ≤ 90 then some (c.toNat - 65)
  else if 97 ≤ c.toNat ∧ c.toNat ≤ 122 then some (c.toNat - 97)
  else if 50 ≤ c.toNat ∧ c.toNat ≤ 55 then some (c.toNat - 50 + 26)
  else none

/-- The loop of `DecodeHash` for base 32. -/
def decode32 (nBits nCount : ℕ) : List UInt8 → List UInt8
  | [] => []
  | c :: text =>
    match base32Value c with
    | none => []
    | some value =>
      let nBits := nBits ||| value
      if 8 ≤ nCount + 5 then
        UInt8.ofNat (nBits >>> (nCount + 5 - 8)) :: decode32 (nBits <<< 5 % 2 ^ 32) (nCount + 5 - 8) text
      else decode32 (nBits <<< 5 % 2 ^ 32) (nCount + 5) text

theorem base32Value_char {word : ℕ} (h : word < 32) : base32Value (base32Char word) = some word := by
  have hall : ∀ word < 32, base32Value (base32Char word) = some word := by decide
  exact hall word h

/-- The bits that are kept in the decoder are those of the byte that are written. -/
def Pending (index nBits : ℕ) : List UInt8 → Prop
  | [] => True
  | b :: _ => nBits % 2 ^ (index + 5) = b.toNat / 2 ^ (8 - index) * 32

theorem and_low (n k mask : ℕ) (hmask : mask = 2 ^ k - 1) : n &&& mask = n % 2 ^ k := by
  rw [hmask, Nat.and_two_pow_sub_one_eq_mod]

variable {index : ℕ}

/-- The bits of a word that ends in the next byte. -/
theorem word_high (hlow : 3 < index) (hhigh : index < 8) (b : UInt8) {next : ℕ} (hnext : next < 256) :
    (b.toNat &&& (0xFF >>> index)) <<< ((index + 5) % 8) ||| next >>> (8 - (index + 5) % 8) =
      b.toNat % 2 ^ (8 - index) * 2 ^ (index - 3) + next / 2 ^ (11 - index) := by
  have hmod : (index + 5) % 8 = index - 3 := by omega
  have hshift : 8 - (index - 3) = 11 - index := by omega
  have hmask : 0xFF >>> index = 2 ^ (8 - index) - 1 := by
    interval_cases index <;> rfl
  have hsmall : next / 2 ^ (11 - index) < 2 ^ (index - 3) := by
    rw [Nat.div_lt_iff_lt_mul (Nat.two_pow_pos _), ← Nat.pow_add]
    have hsum : index - 3 + (11 - index) = 8 := by omega
    rw [hsum]
    exact hnext
  rw [and_low b.toNat (8 - index) _ hmask, hmod, hshift, Nat.shiftRight_eq_div_pow,
    ← Nat.shiftLeft_add_eq_or_of_lt hsmall, Nat.shiftLeft_eq]

theorem word_low (h : index ≤ 3) (b : UInt8) :
    b.toNat >>> (8 - (index + 5)) &&& 0x1F = b.toNat / 2 ^ (3 - index) % 32 := by
  have hshift : 8 - (index + 5) = 3 - index := by omega
  rw [and_low _ 5 0x1F rfl, hshift, Nat.shiftRight_eq_div_pow]
  rfl

/-- The decoder takes one letter. -/
theorem decode32_char {nBits nCount word : ℕ} (hword : word < 32) (hbits : nBits % 32 = 0) (text : List UInt8) :
    decode32 nBits nCount (base32Char word :: text) = if 8 ≤ nCount + 5 then
        UInt8.ofNat ((nBits + word) / 2 ^ (nCount + 5 - 8)) ::
          decode32 ((nBits + word) * 32 % 2 ^ 32) (nCount + 5 - 8) text
      else decode32 ((nBits + word) * 32 % 2 ^ 32) (nCount + 5) text := by
  have hor : nBits ||| word = nBits + word := by
    have hsum := Nat.two_pow_add_eq_or_of_lt (i := 5) hword (nBits / 32)
    have hmul : 2 ^ 5 * (nBits / 32) = nBits := by omega
    rw [hmul] at hsum
    exact hsum.symm
  rw [decode32, base32Value_char hword]
  simp only [hor, Nat.shiftRight_eq_div_pow, Nat.shiftLeft_eq]

/-- The decoder gives a byte whose last bits are in a letter. -/
theorem decode32_high (hlow : 3 < index) (hhigh : index < 8) (b : UInt8) {nBits next : ℕ}
    (hnext : next < 256) (h : nBits % 2 ^ (index + 5) = b.toNat / 2 ^ (8 - index) * 32) (text : List UInt8) :
    ∃ nBits', nBits' % 2 ^ (index - 3 + 5) = next / 2 ^ (11 - index) * 32 ∧ decode32 nBits index
          (base32Char (b.toNat % 2 ^ (8 - index) * 2 ^ (index - 3) + next / 2 ^ (11 - index)) :: text) =
        b :: decode32 nBits' (index - 3) text := by
  have hb : b.toNat < 256 := b.toNat_lt
  have hbyte : ∀ n, n % 256 = b.toNat → UInt8.ofNat n = b := fun n hn => by
    rw [← UInt8.ofNat_toNat (x := b), ← hn]
    exact UInt8.toNat_inj.mp (by simp)
  have hword : b.toNat % 2 ^ (8 - index) * 2 ^ (index - 3) + next / 2 ^ (11 - index) < 32 := by
    interval_cases index <;> omega
  have hbits : nBits % 32 = 0 := by interval_cases index <;> omega
  have hcount : index + 5 - 8 = index - 3 := by omega
  refine ⟨(nBits + (b.toNat % 2 ^ (8 - index) * 2 ^ (index - 3) + next / 2 ^ (11 - index))) * 32 % 2 ^ 32, ?_, ?_⟩
  · interval_cases index <;> omega
  · rw [decode32_char hword hbits, if_pos (by omega), hcount, hbyte]
    interval_cases index <;> omega

/-- The decoder keeps the bits of a letter inside of a byte, or gives the byte. -/
theorem decode32_low (h : index ≤ 3) (b : UInt8) {nBits : ℕ}
    (hpending : nBits % 2 ^ (index + 5) = b.toNat / 2 ^ (8 - index) * 32) (text : List UInt8) :
    ∃ nBits', (index ≠ 3 → nBits' % 2 ^ (index + 5 + 5) = b.toNat / 2 ^ (3 - index) * 32) ∧
      (index = 3 → nBits' % 32 = 0) ∧
      decode32 nBits index (base32Char (b.toNat / 2 ^ (3 - index) % 32) :: text) =
        if index = 3 then b :: decode32 nBits' 0 text else decode32 nBits' (index + 5) text := by
  have hb : b.toNat < 256 := b.toNat_lt
  have hbyte : ∀ n, n % 256 = b.toNat → UInt8.ofNat n = b := fun n hn => by
    rw [← UInt8.ofNat_toNat (x := b), ← hn]
    exact UInt8.toNat_inj.mp (by simp)
  have hbits : nBits % 32 = 0 := by interval_cases index <;> omega
  refine ⟨(nBits + b.toNat / 2 ^ (3 - index) % 32) * 32 % 2 ^ 32, fun hne => ?_, fun heq => ?_, ?_⟩
  · interval_cases index <;> omega
  · omega
  · rw [decode32_char (Nat.mod_lt _ (by omega)) hbits]
    by_cases hlast : index = 3
    · have hvalue : UInt8.ofNat ((nBits + b.toNat / 2 ^ (3 - index) % 32) / 2 ^ (index + 5 - 8)) = b := hbyte _ (by
        rw [hlast] at hpending ⊢
        omega)
      rw [if_pos (by omega), if_pos hlast, hvalue, hlast]
    · rw [if_neg (by omega), if_neg hlast]

/-- Bytes are read back from base 32, from any bit on. -/
theorem decode32_encode32 (hindex : index < 8) (bytes : List UInt8) {nBits : ℕ}
    (h : Pending index nBits bytes) : decode32 nBits index (encode32 index bytes) = bytes := by
  induction index, bytes using encode32.induct generalizing nBits with
  | case1 index => simp [encode32, decode32]
  | case2 index b bytes hhigh ih =>
    obtain ⟨next, hnext, hword, hsame⟩ : ∃ next < 256,
        (bytes.head?.elim 0 fun next => next.toNat >>> (8 - (index + 5) % 8)) = next >>> (8 - (index + 5) % 8) ∧
        ∀ b' rest, bytes = b' :: rest → next = b'.toNat := by
      cases bytes with
      | nil => exact ⟨0, by omega, by simp, by simp⟩
      | cons b' rest => exact ⟨b'.toNat, b'.toNat_lt, rfl, fun _ _ heq => by rw [(List.cons.inj heq).1]⟩
    have hmod : (index + 5) % 8 = index - 3 := by omega
    have hencode : encode32 index (b :: bytes) =
        base32Char (b.toNat % 2 ^ (8 - index) * 2 ^ (index - 3) + next / 2 ^ (11 - index)) ::
          encode32 (index - 3) bytes := by
      rw [encode32, if_pos hhigh]
      dsimp only
      rw [hword, word_high hhigh hindex b hnext, hmod]
    obtain ⟨nBits', hpending, hdecode⟩ := decode32_high hhigh hindex b hnext h (encode32 (index - 3) bytes)
    rw [hmod] at ih
    rw [hencode, hdecode, ih (by omega)]
    cases bytes with
    | nil => trivial
    | cons b' rest =>
      have hshift : 8 - (index - 3) = 11 - index := by omega
      rw [Pending, hpending, hsame b' rest rfl, hshift]
  | case3 index b bytes hlow ihnext ihsame =>
    obtain ⟨nBits', hmore, hfirst, hdecode⟩ := decode32_low (not_lt.mp hlow) b h
      (if index = 3 then encode32 0 bytes else encode32 (index + 5) (b :: bytes))
    rw [encode32, if_neg hlow, word_low (not_lt.mp hlow), hdecode]
    by_cases hlast : index = 3
    · rw [if_pos hlast, if_pos hlast, ihnext (by omega)]
      cases bytes with
      | nil => trivial
      | cons b' rest =>
        have hb := b'.toNat_lt
        have hzero := hfirst hlast
        rw [Pending]
        omega
    · have hshift : 8 - (index + 5) = 3 - index := by omega
      rw [if_neg hlast, if_neg hlast, ihsame (by omega)]
      rw [Pending, hmore hlast, hshift]

/-- A text of base 32 has a letter for each five bits. -/
theorem length_encode32 (hindex : index < 8) (bytes : List UInt8) :
    (encode32 index bytes).length = (8 * bytes.length - index + 4) / 5 := by
  induction index, bytes using encode32.induct with
  | case1 index => simp [encode32]
  | case2 index b bytes hhigh ih =>
    have hmod : (index + 5) % 8 = index - 3 := by omega
    rw [hmod] at ih
    rw [encode32, if_pos hhigh, List.length_cons, hmod, ih (by omega), List.length_cons]
    omega
  | case3 index b bytes hlow ihnext ihsame =>
    rw [encode32, if_neg hlow, List.length_cons, List.length_cons]
    split_ifs with hlast
    · rw [ihnext (by omega)]
      omega
    · rw [ihsame (by omega), List.length_cons]
      omega

end Base32

section Base64

/-- The letters of base 64 as a link has them. -/
def toLink (text : List UInt8) : List UInt8 :=
  (text.map fun c => if c = 43 then 45 else if c = 47 then 95 else c).filter (· ≠ 61)

/-- These letters as base 64 has them. -/
def ofLink (text : List UInt8) : List UInt8 := text.map fun c => if c = 45 then 43 else if c = 95 then 47 else c

/-- The letters and the sign that fills up. -/
def IsLetter (c : UInt8) : Prop := c ≠ 45 ∧ c ≠ 95

theorem base64Letter_ne {n : ℕ} (h : n < 64) : base64Letter n ≠ 61 ∧ IsLetter (base64Letter n) := by
  have hall : ∀ n < 64, base64Letter n ≠ 61 ∧ base64Letter n ≠ 45 ∧ base64Letter n ≠ 95 := by decide
  exact hall n h

/-- The signs of a link are in no text of base 64. -/
theorem isLetter_toBase64 (bytes : List UInt8) : ∀ c ∈ toBase64 bytes, IsLetter c := by
  have hfill : IsLetter 61 := ⟨by decide, by decide⟩
  induction bytes using toBase64.induct with
  | case1 => simp [toBase64]
  | case2 a =>
    have ha := a.toNat_lt
    rw [toBase64]
    simp only [List.forall_mem_cons]
    exact ⟨(base64Letter_ne (by omega)).2, (base64Letter_ne (by omega)).2, hfill, hfill, by simp⟩
  | case3 a b =>
    have ha := a.toNat_lt
    have hb := b.toNat_lt
    rw [toBase64]
    simp only [List.forall_mem_cons]
    exact ⟨(base64Letter_ne (by omega)).2, (base64Letter_ne (by omega)).2, (base64Letter_ne (by omega)).2, hfill,
      by simp⟩
  | case4 a b c bytes ih =>
    have ha := a.toNat_lt
    have hb := b.toNat_lt
    have hc := c.toNat_lt
    rw [toBase64]
    simp only [List.forall_mem_cons]
    exact ⟨(base64Letter_ne (by omega)).2, (base64Letter_ne (by omega)).2, (base64Letter_ne (by omega)).2,
      (base64Letter_ne (by omega)).2, ih⟩

/-- The letters are those of base 64 again, without the sign that fills up. -/
theorem ofLink_toLink {text : List UInt8} (h : ∀ c ∈ text, IsLetter c) :
    ofLink (toLink text) = text.filter (· ≠ 61) := by
  induction text with
  | nil => rfl
  | cons c text ih =>
    obtain ⟨⟨hminus, hunder⟩, hrest⟩ := List.forall_mem_cons.mp h
    have htail := ih hrest
    rw [ofLink, toLink] at htail ⊢
    simp only [ne_eq, decide_not] at htail
    by_cases hplus : c = 43
    · simp [hplus, htail]
    · by_cases hslash : c = 47
      · simp [hslash, htail]
      · by_cases hfill : c = 61
        · simp [hfill, htail]
        · simp [hplus, hslash, hfill, hminus, hunder, htail]

/-- The sign that fills up is skipped. -/
theorem fromBase64Loop_filter (buf nbits : ℕ) (text : List UInt8) :
    fromBase64Loop buf nbits (text.filter (· ≠ 61)) = fromBase64Loop buf nbits text := by
  induction text generalizing buf nbits with
  | nil => rfl
  | cons c text ih =>
    by_cases hfill : c = 61
    · have hnone : base64Value 61 = none := by decide
      simp only [ne_eq, decide_not] at ih
      simp [hfill, fromBase64Loop, hnone, ih]
    · have hkeep : (c :: text).filter (· ≠ 61) = c :: text.filter (· ≠ 61) := by simp [hfill]
      rw [hkeep, fromBase64Loop, fromBase64Loop]
      cases base64Value c with
      | none => exact ih buf nbits
      | some d =>
        simp only [ih]

/-- A text of base 64 has a letter for each six bits, without the sign that fills up. -/
theorem length_toLink (bytes : List UInt8) : (toLink (toBase64 bytes)).length = (4 * bytes.length + 2) / 3 := by
  have hlink : ∀ n < 64, toLink [base64Letter n] = [(if base64Letter n = 43 then 45
      else if base64Letter n = 47 then 95 else base64Letter n)] := by decide
  have hone : ∀ n < 64, ∀ text, (toLink (base64Letter n :: text)).length = (toLink text).length + 1 := by
    intro n hn text
    have happend : toLink (base64Letter n :: text) = toLink [base64Letter n] ++ toLink text := by
      simp [toLink, ← List.filter_append]
    rw [happend, hlink n hn, List.length_append, List.length_singleton, Nat.add_comm]
  have hfill : ∀ text, toLink (61 :: text) = toLink text := fun text => by simp [toLink]
  induction bytes using toBase64.induct with
  | case1 => rfl
  | case2 a =>
    have ha := a.toNat_lt
    rw [toBase64, hone _ (by omega), hone _ (by omega), hfill, hfill]
    simp [toLink]
  | case3 a b =>
    have ha := a.toNat_lt
    have hb := b.toNat_lt
    rw [toBase64, hone _ (by omega), hone _ (by omega), hone _ (by omega), hfill]
    simp [toLink]
  | case4 a b c bytes ih =>
    have ha := a.toNat_lt
    have hb := b.toNat_lt
    have hc := c.toNat_lt
    rw [toBase64, hone _ (by omega), hone _ (by omega), hone _ (by omega), hone _ (by omega), ih]
    simp only [List.length_cons]
    omega

end Base64

section Hashes

inductive EFileHashType where
  | HashNone
  | HashNeo
  | HashXNeo
  | HashTorrent
  | HashEd2k
  | HashArchive
  | HashMule
  | HashEdPr
  | HashTigerTree
  | HashMD5
  | HashSHA1
  | HashSHA2
  | HashSingle
  | HashMulti
  | HashUnknown
  deriving DecidableEq

open EFileHashType

def getSize : EFileHashType → ℕ
  | HashSHA2 | HashArchive | HashNeo | HashXNeo => 32
  | HashMD5 | HashEd2k => 16
  | HashMule | HashTorrent | HashSHA1 => 20
  | HashTigerTree => 24
  | _ => 8

def getBase : EFileHashType → ℤ
  | HashArchive | HashNeo | HashXNeo => 64
  | HashMD5 | HashEd2k | HashTorrent => 16
  | HashSHA1 | HashSHA2 | HashMule | HashTigerTree => 32
  | _ => 0

def encodeHash (eType : EFileHashType) (Hash : List UInt8) (Base : ℤ) : List UInt8 :=
  let Base := if Base = 0 then getBase eType else Base
  if Base = 16 then toHex Hash
  else if Base = 32 then encode32 0 Hash
  else if Base = 64 then toLink (toBase64 Hash)
  else []

/-- The base that `DecodeHash` takes for a text. -/
def guessBase (eType : EFileHashType) (uLength : ℕ) : ℤ :=
  if uLength / 2 = getSize eType then 16
  else if uLength * 5 / 8 = getSize eType then 32
  else if uLength * 3 / 4 = getSize eType then 64
  else getBase eType

def decodeHash (eType : EFileHashType) (String : List UInt8) : List UInt8 :=
  if String.length = 0 then []
  else
    let Base := guessBase eType String.length
    let Hash :=
      if Base = 16 then fromHex String
      else if Base = 32 then decode32 0 0 String
      else if Base = 64 then fromBase64 (ofLink String)
      else []
    if Hash.length = getSize eType then Hash else []

variable (eType : EFileHashType)

theorem getSize_mem : getSize eType ∈ [8, 16, 20, 24, 32] := by
  cases eType <;> decide

theorem length_toHex (Hash : List UInt8) : (toHex Hash).length = 2 * Hash.length := by
  induction Hash with
  | nil => rfl
  | cons b Hash ih =>
    rw [toHex] at ih
    rw [toHex, List.flatMap_cons, List.length_append, ih, List.length_cons]
    simp
    omega

theorem guessBase_length :
    guessBase eType (2 * getSize eType) = 16 ∧ guessBase eType ((8 * getSize eType - 0 + 4) / 5) = 32 ∧
      guessBase eType ((4 * getSize eType + 2) / 3) = 64 := by
  cases eType <;> decide

section

variable {eType : EFileHashType} {Hash : List UInt8} (h : Hash.length = getSize eType)

include h

theorem decodeHash_eq {String : List UInt8} (hne : String.length ≠ 0) {Base : ℤ}
    (hbase : guessBase eType String.length = Base)
    (hread : (if Base = 16 then fromHex String else if Base = 32 then decode32 0 0 String
      else if Base = 64 then fromBase64 (ofLink String) else []) = Hash) : decodeHash eType String = Hash := by
  rw [decodeHash, if_neg hne, hbase]
  simp only [hread, h, if_true]

/-- A hash is read back from its text in each of the three bases. -/
theorem decodeHash_text : decodeHash eType (toHex Hash) = Hash ∧ decodeHash eType (encode32 0 Hash) = Hash ∧
      decodeHash eType (toLink (toBase64 Hash)) = Hash := by
  obtain ⟨h16, h32, h64⟩ := guessBase_length eType
  have hsize := getSize_mem eType
  simp only [List.mem_cons, List.not_mem_nil, or_false] at hsize
  have hlength16 := length_toHex Hash
  have hlength32 := length_encode32 (show 0 < 8 by omega) Hash
  have hlength64 := length_toLink Hash
  rw [h] at hlength16 hlength32 hlength64
  refine ⟨decodeHash_eq h (by omega) ((congrArg _ hlength16).trans h16) ?_,
    decodeHash_eq h (by omega) ((congrArg _ hlength32).trans h32) ?_,
    decodeHash_eq h (by omega) ((congrArg _ hlength64).trans h64) ?_⟩
  · exact (if_pos rfl).trans (CollectionLinks.fromHex_toHex Hash)
  · have hpending : Pending 0 0 Hash := by
      cases Hash with
      | nil => trivial
      | cons b rest =>
        have hb := b.toNat_lt
        rw [Pending]
        omega
    exact (if_neg (by decide)).trans ((if_pos rfl).trans (decode32_encode32 (by omega) Hash hpending))
  · have hread : fromBase64 (ofLink (toLink (toBase64 Hash))) = Hash := by
      rw [ofLink_toLink (isLetter_toBase64 Hash), fromBase64, fromBase64Loop_filter]
      exact fromBase64_toBase64 Hash
    exact (if_neg (by decide)).trans ((if_neg (by decide)).trans ((if_pos rfl).trans hread))

end

theorem getBase_mem : getBase eType ∈ [0, 16, 32, 64] := by
  cases eType <;> decide

/-- A hash is read back from its text in exactly the bases 16, 32 and 64, and in that of its type if it has one. -/
theorem decodeHash_encodeHash_iff (eType : EFileHashType) {Hash : List UInt8} (h : Hash.length = getSize eType)
    (Base : ℤ) : decodeHash eType (encodeHash eType Hash Base) = Hash ↔
      Base = 16 ∨ Base = 32 ∨ Base = 64 ∨ Base = 0 ∧ getBase eType ≠ 0 := by
  obtain ⟨h16, h32, h64⟩ := decodeHash_text h
  have hbase := getBase_mem eType
  have hsize := getSize_mem eType
  simp only [List.mem_cons, List.not_mem_nil, or_false] at hbase hsize
  have hempty : decodeHash eType [] ≠ Hash := by
    rintro hread
    have hlength := congrArg List.length hread
    simp [decodeHash] at hlength
    omega
  constructor
  · intro hread
    by_contra hnone
    simp only [not_or, not_and, not_not] at hnone
    obtain ⟨hne16, hne32, hne64, hzero⟩ := hnone
    refine hempty (Eq.trans (congrArg (decodeHash eType) ?_) hread)
    by_cases hown : Base = 0
    · simp [encodeHash, hown, hzero hown]
    · simp [encodeHash, hown, hne16, hne32, hne64]
  · rintro (rfl | rfl | rfl | ⟨rfl, hown⟩)
    · exact h16
    · exact h32
    · exact h64
    · rcases hbase with hnone | hbase | hbase | hbase
      · exact absurd hnone hown
      · simpa [encodeHash, hbase] using h16
      · simpa [encodeHash, hbase] using h32
      · simpa [encodeHash, hbase] using h64

/-- A hash of eD2k is read back in base 32, although its own base is 16. -/
theorem decodeHash_encodeHash_ed2k : decodeHash HashEd2k (encodeHash HashEd2k (List.replicate 16 7) 32) =
    List.replicate 16 7 :=
  (decodeHash_encodeHash_iff HashEd2k (List.length_replicate) 32).mpr (Or.inr (Or.inl rfl))

/-- There is no text in base 2, so that nothing is read back. -/
theorem decodeHash_encodeHash_binary :
    decodeHash HashEd2k (encodeHash HashEd2k (List.replicate 16 7) 2) ≠ List.replicate 16 7 := by decide

end Hashes

end NeoLoader.HashEncodings
