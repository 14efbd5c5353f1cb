import NeoLoader.ByteReader
import NeoLoader.TextEncodings

/-!
# Bencoded maps

A bencoded byte array is the number of its bytes, a colon and the bytes. A bencoded map lists its keys with
their values, which stay encoded until they are asked for. The kinds of values that are no byte
arrays are parameters.
-/

namespace NeoLoader.Bencode

open ByteReader TextEncodings

section Code

/-- `QByteArray::number`. -/
def number (n : ℕ) : List UInt8 := (Nat.toDigits 10 n).map fun c => UInt8.ofNat c.toNat

/-- `Bencoder::write` of a byte array. -/
def encode (buf : List UInt8) : List UInt8 := number buf.length ++ 58 :: buf

/-- `Bencoder::write` of a map of encoded values. -/
def encodeMap (map : List (List UInt8 × List UInt8)) : List UInt8 :=
  100 :: ((map.flatMap fun i => encode i.1 ++ i.2) ++ [101])

def isSpace (c : UInt8) : Bool := c = 32 || 9 ≤ c && c ≤ 13

/-- `Bdecoder::validateInt`. -/
def validateInt (s : List UInt8) : Bool :=
  match s with
  | [] => true
  | [c] => !isSpace c
  | c :: d :: _ => !isSpace c && !(c = 48 || c = 45 && d = 48)

variable (toUInt : List UInt8 → Option ℕ)

/-- `Bdecoder::read` of a byte array. A length that is no `int` is left out. -/
def readString : Reader (List UInt8) := fun s =>
  let text := s.takeWhile (· ≠ 58)
  if text = [] ∨ 58 ∉ s ∨ validateInt text = false then none
  else (toUInt text).bind fun strlen => readBytes strlen (s.drop (text.length + 1))

/-- The values of other kinds: maps, lists, integers, booleans, texts and blobs. -/
def OtherKind (s : List UInt8) : Prop := ∃ c ∈ s.head?, c ∈ [100, 108, 105, 98, 115, 107]

/-- The kind of a value is known from its first byte. -/
instance decidableOtherKind (s : List UInt8) : Decidable (OtherKind s) :=
  inferInstanceAs (Decidable (∃ c ∈ s.head?, c ∈ [100, 108, 105, 98, 115, 107]))

variable (other : Reader (List UInt8)) (otherValue : List UInt8 → List UInt8)

/-- `Bdecoder::read` of a value that stays encoded. -/
def readRaw : Reader (List UInt8) := fun s =>
  if OtherKind s then other s
  else (readString toUInt s).map fun r => (s.take (s.length - r.2.length), r.2)

/-- A map from keys to encoded values. -/
abbrev BencodedMap := List UInt8 → Option (List UInt8)

/-- `QMap::insert`. -/
def BencodedMap.insert (map : BencodedMap) (key val : List UInt8) : BencodedMap :=
  Function.update map key (some val)

/-- The loop of `Bdecoder::read` of a map, within a number of rounds. -/
def readItems : ℕ → BencodedMap → Reader BencodedMap
  | 0, _ => fun _ => none
  | n + 1, map => fun s =>
    if s.head? = some 101 then some (map, s.drop 1)
    else (readString toUInt s).bind fun key => (readRaw toUInt other key.2).bind fun val =>
      readItems n (map.insert key.1 val.1) val.2

/-- `Bdecoder::read` of a map. -/
def readMap : Reader BencodedMap := fun s =>
  if s.head? = some 100 then readItems toUInt other s.length (fun _ => none) (s.drop 1) else none

/-- `BencodedMap::get` of a value as a byte array, empty if there is none. -/
def get (map : BencodedMap) (key : List UInt8) : List UInt8 :=
  match map key with
  | none => []
  | some raw =>
    if OtherKind raw then otherValue raw
    else ((readString toUInt raw).map Prod.fst).getD []

end Code

section Strings

variable {toUInt : List UInt8 → Option ℕ}

theorem digit_of_mem_number {n : ℕ} {b : UInt8} (h : b ∈ number n) : 48 ≤ b.toNat ∧ b.toNat ≤ 57 := by
  obtain ⟨c, hc, rfl⟩ := List.mem_map.mp h
  have hdigit := Nat.isDigit_of_mem_toDigits (by omega) (by omega) hc
  simp only [Char.isDigit, Bool.and_eq_true, decide_eq_true_eq] at hdigit
  have hlow : 48 ≤ c.toNat := hdigit.1
  have hhigh : c.toNat ≤ 57 := hdigit.2
  rw [UInt8.toNat_ofNat', Nat.mod_eq_of_lt (by omega)]
  exact ⟨hlow, hhigh⟩

theorem notMem_number {b : UInt8} (h : b.toNat < 48 ∨ 57 < b.toNat) (n : ℕ) : b ∉ number n := by
  intro hb
  have hdigit := digit_of_mem_number hb
  omega

theorem number_ne_nil (n : ℕ) : number n ≠ [] := by simp [number, Nat.toDigits_ne_nil]

theorem head_number {n : ℕ} (h : 0 < n) : (number n).head? ≠ some 48 := by
  induction n using Nat.strong_induction_on with
  | _ n ih =>
    by_cases hlt : n < 10
    · rw [number, Nat.toDigits_of_lt_base hlt]
      interval_cases n <;> simp [Nat.digitChar]
    · have hrest := ih (n / 10) (by omega) (by omega)
      rw [number, Nat.toDigits_of_base_le (by omega) (by omega), List.map_append]
      rw [number] at hrest
      rwa [List.head?_append_of_ne_nil _ (by simp [Nat.toDigits_ne_nil])]

/-- A number is a valid length. -/
theorem validateInt_number (n : ℕ) : validateInt (number n) = true := by
  have hspace : ∀ c ∈ number n, isSpace c = false := by
    intro c hc
    have hdigit := digit_of_mem_number hc
    simp only [isSpace, Bool.or_eq_false_iff, Bool.and_eq_false_iff, decide_eq_false_iff_not,
      UInt8.le_iff_toNat_le, UInt8.toNat_ofNat, ← UInt8.toNat_inj]
    omega
  have hminus : (45 : UInt8) ∉ number n := notMem_number (by decide) n
  rcases Nat.eq_zero_or_pos n with rfl | hpos
  · decide
  · have hhead := head_number hpos
    cases hnumber : number n with
    | nil => rfl
    | cons c rest =>
      rw [hnumber] at hhead hspace hminus
      have hc : isSpace c = false := hspace c (by simp)
      have hzero : c ≠ 48 := by simpa using hhead
      have hsign : c ≠ 45 := fun h => hminus (by simp [h])
      cases rest <;> simp [validateInt, hc, hzero, hsign]

/-- A byte array is no value of another kind. -/
theorem not_otherKind_encode (buf rest : List UInt8) : ¬OtherKind (encode buf ++ rest) := by
  rintro ⟨c, hhead, hc⟩
  have hmem : c ∈ number buf.length := by
    cases hnumber : number buf.length with
    | nil => exact absurd hnumber (number_ne_nil _)
    | cons d ds =>
      have hd : d = c := by simpa [encode, hnumber] using hhead
      simp [hd]
  have hdigit := digit_of_mem_number hmem
  simp only [List.mem_cons, List.not_mem_nil, or_false] at hc
  rcases hc with rfl | rfl | rfl | rfl | rfl | rfl <;> simp at hdigit

/-- A byte array is read back. -/
theorem reads_string (hnumber : ∀ n < 2 ^ 32, toUInt (number n) = some n) {buf : List UInt8}
    (h : buf.length < 2 ^ 32) : Reads (readString toUInt) (encode buf) buf := by
  intro rest
  have hplain : ∀ b ∈ number buf.length, (decide (b ≠ 58)) = true := fun b hb => by
    simpa using fun he : b = 58 => notMem_number (b := 58) (by decide) _ (he ▸ hb)
  have htext : (encode buf ++ rest).takeWhile (· ≠ 58) = number buf.length := by
    rw [encode, List.append_assoc, List.takeWhile_append_of_pos hplain]
    simp
  have hdrop : (encode buf ++ rest).drop ((number buf.length).length + 1) = buf ++ rest := by
    simp [encode, List.drop_append]
  have hcolon : (58 : UInt8) ∈ encode buf ++ rest := by simp [encode]
  simp only [readString, htext, number_ne_nil, hcolon, validateInt_number, hnumber _ h, hdrop, not_true,
    or_self, Bool.true_eq_false, if_false, Option.bind_some]
  exact reads_bytes buf rest

theorem reads_raw (hnumber : ∀ n < 2 ^ 32, toUInt (number n) = some n) (other : Reader (List UInt8))
    {buf : List UInt8} (h : buf.length < 2 ^ 32) : Reads (readRaw toUInt other) (encode buf) (encode buf) := by
  intro rest
  rw [readRaw, if_neg (not_otherKind_encode buf rest), reads_string hnumber h rest]
  simp

/-- The items of a map of byte arrays. -/
def itemBytes (items : List (List UInt8 × List UInt8)) : List UInt8 :=
  items.flatMap fun i => encode i.1 ++ encode i.2

/-- The map that the items make. -/
def mapOf (map : BencodedMap) (items : List (List UInt8 × List UInt8)) : BencodedMap :=
  items.foldl (fun map i => BencodedMap.insert map i.1 (encode i.2)) map

theorem head_encode (buf rest : List UInt8) : (encode buf ++ rest).head? ≠ some 101 := by
  cases htext : number buf.length with
  | nil => exact absurd htext (number_ne_nil _)
  | cons d ds =>
    have hd : d ≠ 101 := fun h => notMem_number (b := 101) (by decide) buf.length (by simp [htext, h])
    simp [encode, htext, hd]

theorem length_le_itemBytes (items : List (List UInt8 × List UInt8)) : items.length ≤ (itemBytes items).length := by
  induction items with
  | nil => simp
  | cons i items ih =>
    simp only [itemBytes, encode] at ih
    simp only [itemBytes, List.length_cons, List.flatMap_cons, List.length_append, encode]
    omega

section

variable (hnumber : ∀ n < 2 ^ 32, toUInt (number n) = some n) (other : Reader (List UInt8))
  {items : List (List UInt8 × List UInt8)} (hitems : ∀ i ∈ items, i.1.length < 2 ^ 32 ∧ i.2.length < 2 ^ 32)

include hnumber other hitems

/-- The items of a map of byte arrays are read one after the other. -/
theorem readItems_itemBytes {n : ℕ} (hn : items.length < n) (map : BencodedMap) (rest : List UInt8) :
    readItems toUInt other n map (itemBytes items ++ (101 :: rest)) = some (mapOf map items, rest) := by
  induction items generalizing n map with
  | nil =>
    obtain ⟨n, rfl⟩ : ∃ m, n = m + 1 := ⟨n - 1, by simp at hn; omega⟩
    simp [readItems, itemBytes, mapOf]
  | cons i items ih =>
    obtain ⟨n, rfl⟩ : ∃ m, n = m + 1 := ⟨n - 1, by omega⟩
    obtain ⟨hi, hrest⟩ := List.forall_mem_cons.mp hitems
    have hbytes : itemBytes (i :: items) ++ (101 :: rest) =
        encode i.1 ++ (encode i.2 ++ (itemBytes items ++ (101 :: rest))) := by simp [itemBytes]
    have hnext := ih hrest (n := n) (by simpa using hn) (BencodedMap.insert map i.1 (encode i.2))
    rw [hbytes]
    simp only [readItems, head_encode, if_false, reads_string hnumber hi.1 _, Option.bind_some,
      reads_raw hnumber other hi.2 _, hnext]
    rfl

/-- A map of byte arrays is read back. -/
theorem readMap_encodeMap : readMap toUInt other (encodeMap (items.map fun i => (i.1, encode i.2))) =
      some (mapOf (fun _ => none) items, []) := by
  have hbytes : encodeMap (items.map fun i => (i.1, encode i.2)) = 100 :: (itemBytes items ++ [101]) := by
    simp [encodeMap, itemBytes, List.flatMap_map]
  have hlen := length_le_itemBytes items
  have hread := readItems_itemBytes hnumber other hitems
    (n := (100 :: (itemBytes items ++ [101]) : List UInt8).length) (by simp; omega) (fun _ => none) []
  rw [hbytes, readMap, if_pos (by simp), List.drop_succ_cons, List.drop_zero, hread]

end

theorem get_encode (hnumber : ∀ n < 2 ^ 32, toUInt (number n) = some n)
    (otherValue : List UInt8 → List UInt8) {map : BencodedMap} {key buf : List UInt8}
    (hkey : map key = some (encode buf)) (h : buf.length < 2 ^ 32) : get toUInt otherValue map key = buf := by
  have hkind := not_otherKind_encode buf []
  have hread := reads_string hnumber h []
  rw [List.append_nil] at hkind hread
  simp [get, hkey, hkind, hread]

theorem get_none (otherValue : List UInt8 → List UInt8) {map : BencodedMap} {key : List UInt8}
    (hkey : map key = none) : get toUInt otherValue map key = [] := by
  simp [get, hkey]

end Strings

end NeoLoader.Bencode
