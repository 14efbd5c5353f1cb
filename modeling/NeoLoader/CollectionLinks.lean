import Mathlib.Data.Bool.AllAny
import NeoLoader.MuleCollection

/-!
# The links of a collection

The name of a file is written with percent signs, and what is filled in after it may take their place. A link is read
back exactly if none of them is a marker whose number is one of the first.
-/

namespace NeoLoader.CollectionLinks

open MuleCollection MuleTags PlaceMarkers TextEncodings
open Piece

section Characters

/-- A byte of ASCII is that of a character of its own. -/
theorem eq_of_mem_utf8EncodeChar {c : Char} {b : UInt8} (hb : b.toNat < 128) (h : b ∈ String.utf8EncodeChar c) :
    c.toNat = b.toNat := by
  have hbig : ∀ n : ℕ, 128 ≤ n → n < 256 → b ≠ UInt8.ofNat n := by
    intro n hn hlt heq
    have hvalue : (UInt8.ofNat n).toNat = n := UInt8.toNat_ofNat_of_lt' hlt
    rw [heq, hvalue] at hb
    omega
  unfold String.utf8EncodeChar at h
  simp only at h
  split_ifs at h with h1 h2 h3
  · have hvalue : c.val.toNat < 256 := by omega
    rw [List.mem_singleton.mp h]
    exact (UInt8.toNat_ofNat_of_lt' hvalue).symm
  · rcases h with _ | ⟨_, _ | ⟨_, ⟨⟩⟩⟩ <;> exact (hbig _ (by omega) (by omega) rfl).elim
  · rcases h with _ | ⟨_, _ | ⟨_, _ | ⟨_, ⟨⟩⟩⟩⟩ <;> exact (hbig _ (by omega) (by omega) rfl).elim
  · rcases h with _ | ⟨_, _ | ⟨_, _ | ⟨_, _ | ⟨_, ⟨⟩⟩⟩⟩⟩ <;> exact (hbig _ (by omega) (by omega) rfl).elim

theorem mem_of_mem_encodeUtf8 {cs : List Char} {b : UInt8} (hb : b.toNat < 128) (h : b ∈ encodeUtf8 cs) :
    ∃ c ∈ cs, c.toNat = b.toNat := by
  obtain ⟨c, hc, hmem⟩ := List.mem_flatMap.mp h
  exact ⟨c, hc, eq_of_mem_utf8EncodeChar hb hmem⟩

/-- A character of ASCII in UTF-8 is a byte. -/
theorem mem_of_mem_decodeUtf8 {bytes : List UInt8} {c : Char} (hc : c.toNat < 128) (h : c ∈ decodeUtf8 bytes) :
    UInt8.ofNat c.toNat ∈ bytes := by
  induction bytes using decodeUtf8.induct with
  | case1 => simp [decodeUtf8] at h
  | case2 b bs d hread ih =>
    rw [decodeUtf8, hread] at h
    rcases List.mem_cons.mp h with rfl | h
    · obtain ⟨l, hl⟩ := ByteArray.exists_of_utf8DecodeChar?_eq_some hread
      have hencode : String.utf8EncodeChar c = [UInt8.ofNat c.toNat] := by
        unfold String.utf8EncodeChar
        exact if_pos (by simpa using Nat.le_of_lt_succ hc)
      have hlist := congrArg (fun x => x.data.toList) hl
      rw [hencode] at hlist
      simp only [List.data_toByteArray, ByteArray.data_append, Array.toList_append, List.singleton_append] at hlist
      rw [(List.cons.inj hlist).1]
      exact List.mem_cons_self
    · exact List.mem_cons_of_mem _ (List.mem_of_mem_drop (ih h))
  | case3 b bs hread ih =>
    rw [decodeUtf8, hread] at h
    rcases List.mem_cons.mp h with rfl | h
    · exact absurd hc (by decide)
    · exact List.mem_cons_of_mem _ (ih h)

end Characters

section Pieces

/-- The pieces of a byte behind a percent sign. -/
def bytePieces (b : UInt8) : List Piece :=
  if unreserved b then [char b]
  else if 10 ≤ b.toNat / 16 then [char 37, char (hexDigit (b.toNat / 16)), char (hexDigit (b.toNat % 16))]
  else if 10 ≤ b.toNat % 16 then [one (b.toNat / 16), char (hexDigit (b.toNat % 16))]
  else [two (b.toNat / 16) (b.toNat % 16)]

/-- The number of the marker that a byte becomes, if it becomes one. -/
def marker (b : UInt8) : Option ℕ :=
  if unreserved b ∨ 10 ≤ b.toNat / 16 then none
  else if 10 ≤ b.toNat % 16 then some (b.toNat / 16)
  else some (10 * (b.toNat / 16) + b.toNat % 16)

/-- What stands behind the marker of a byte. -/
def letter (b : UInt8) : List UInt8 := if 10 ≤ b.toNat % 16 then [hexDigit (b.toNat % 16)] else []

theorem text_bytePieces (b : UInt8) : text (bytePieces b) = percentByte unreserved b := by
  have hdigit : ∀ n < 10, hexDigit n = UInt8.ofNat (48 + n) := by decide
  rw [bytePieces, percentByte]
  split_ifs with hkeep hhigh hlow
  · rfl
  · rfl
  · simp [text, Piece.bytes, hdigit _ (not_le.mp hhigh)]
  · simp [text, Piece.bytes, hdigit _ (not_le.mp hhigh), hdigit _ (not_le.mp hlow)]

theorem numbers_bytePieces (b : UInt8) : numbers (bytePieces b) = (marker b).toList := by
  rw [bytePieces, marker]
  by_cases hkeep : unreserved b = true
  · simp [hkeep, numbers, Piece.number]
  · by_cases hhigh : 10 ≤ b.toNat / 16
    · simp [hkeep, hhigh, numbers, Piece.number]
    · by_cases hlow : 10 ≤ b.toNat % 16 <;> simp [hkeep, hhigh, hlow, numbers, Piece.number]

theorem bytePieces_facts : unreserved 37 = false ∧ ∀ n < 16, 10 ≤ n → hexDigit n ≠ 37 ∧ digit (hexDigit n) = none := by
  decide

theorem hexDigit_ne : ∀ n < 16, hexDigit n ≠ 37 := by decide

variable (bytes : List UInt8)

/-- The pieces of a name stand apart, before others that do. -/
theorem apart_bytePieces {ps : List Piece} (h : Apart ps) : Apart (bytes.flatMap bytePieces ++ ps) := by
  induction bytes with
  | nil => exact h
  | cons b bytes ih =>
    obtain ⟨hpercent, hletter⟩ := bytePieces_facts
    have hbyte : b.toNat < 256 := b.toNat_lt
    have hlow : hexDigit (b.toNat % 16) ≠ 37 := hexDigit_ne _ (by omega)
    rw [List.flatMap_cons, List.append_assoc, bytePieces]
    split_ifs with hkeep hhigh hsmall
    · refine ⟨fun hb => ?_, ih⟩
      rw [hb, hpercent] at hkeep
      cases hkeep
    · have hapart := hletter _ (by omega) hhigh
      exact ⟨fun _ => hapart, fun hb => absurd hb hapart.1, fun hb => absurd hb hlow, ih⟩
    · exact ⟨not_le.mp hhigh, hletter _ (by omega) hsmall, fun hb => absurd hb hlow, ih⟩
    · exact ⟨not_le.mp hhigh, not_le.mp hsmall, ih⟩

/-- The pieces of a link before the name is filled in. -/
def templatePieces : List Piece :=
  (ascii "ed2k://|file|").map char ++ one 1 :: [char 124, one 2, char 124, one 3, char 124, one 4, char 47, char 13,
    char 10]

/-- The pieces behind the name. -/
def tailPieces : List Piece := [char 124, one 2, char 124, one 3, char 124, one 4, char 47, char 13, char 10]

/-- The pieces of a link with a name. -/
def namePieces (bytes : List UInt8) : List Piece :=
  (ascii "ed2k://|file|").map char ++ (bytes.flatMap bytePieces ++ tailPieces)

theorem head_ne : ∀ b ∈ ascii "ed2k://|file|", b ≠ 37 := List.all_iff_forall_prop.mp (by decide)

theorem apart_tailPieces : Apart tailPieces := by
  have hbar : BeginsApart [char 124] := ⟨by decide, by decide⟩
  simp [tailPieces, Apart, BeginsApart, digit]

theorem text_append (ps qs : List Piece) : text (ps ++ qs) = text ps ++ text qs := List.flatMap_append

theorem text_map_char (a : List UInt8) : text (a.map char) = a := by
  induction a with
  | nil => rfl
  | cons b a ih => exact congrArg (b :: ·) ih

theorem text_flatMap_bytePieces : text (bytes.flatMap bytePieces) = toPercent unreserved bytes := by
  induction bytes with
  | nil => rfl
  | cons b bytes ih =>
    rw [List.flatMap_cons, text_append, text_bytePieces, ih, toPercent, toPercent, List.flatMap_cons]

theorem arg_template : arg (toPercent unreserved bytes) linkTemplate = text (namePieces bytes) := by
  have htext : linkTemplate = text templatePieces := by decide
  have hpieces : Apart templatePieces := by
    refine apart_chars head_ne ⟨by decide, ⟨by decide, by decide⟩, apart_tailPieces⟩
  rw [htext, arg_text (n := 1) hpieces (by decide)]
  have hfill : fill 1 (toPercent unreserved bytes) templatePieces =
      (ascii "ed2k://|file|").map char ++ ((toPercent unreserved bytes).map char ++ tailPieces) := rfl
  rw [hfill, namePieces, text_append, text_append, text_append, text_append, text_map_char, text_map_char,
    text_flatMap_bytePieces]

end Pieces

section Filling

/-- A byte of a name after all was filled in, if its marker is one of those. -/
def filledByte (args : List (ℕ × List UInt8)) (b : UInt8) : List UInt8 :=
  match (marker b).bind fun n => args.lookup n with
  | none => percentByte unreserved b
  | some a => a ++ letter b

/-- What stands behind the marker of a byte is left. -/
theorem text_fills_bytePieces (args : List (ℕ × List UInt8)) (b : UInt8) :
    text (fills args (bytePieces b)) = filledByte args b := by
  have hkept : ∀ bytes : List UInt8, text (fills args (bytes.map char)) = bytes := fun bytes =>
    (congrArg text (fills_chars args bytes)).trans (text_map_char bytes)
  have hbyte := text_bytePieces b
  rw [filledByte]
  rw [bytePieces] at hbyte ⊢
  by_cases hkeep : unreserved b = true
  · rw [if_pos hkeep] at hbyte ⊢
    simp only [marker, hkeep, true_or, if_true, Option.bind_none]
    rw [← hbyte]
    exact (hkept [b]).trans (text_map_char [b]).symm
  · rw [if_neg hkeep] at hbyte ⊢
    by_cases hhigh : 10 ≤ b.toNat / 16
    · rw [if_pos hhigh] at hbyte ⊢
      simp only [marker, hhigh, or_true, if_true, Option.bind_none]
      rw [← hbyte]
      exact (hkept [37, _, _]).trans (text_map_char [37, _, _]).symm
    · rw [if_neg hhigh] at hbyte ⊢
      by_cases hlow : 10 ≤ b.toNat % 16
      · rw [if_pos hlow] at hbyte ⊢
        have hpieces : fills args [one (b.toNat / 16), char (hexDigit (b.toNat % 16))] =
            fills args [one (b.toNat / 16)] ++ [char (hexDigit (b.toNat % 16))] :=
          (fills_append args [_] [_]).trans (congrArg _ (fills_chars args [_]))
        rw [hpieces, fills_marker args (n := b.toNat / 16) rfl, text_append]
        have hmarker : marker b = some (b.toNat / 16) := by simp [marker, hkeep, hhigh, hlow]
        rw [hmarker, Option.bind_some, letter, if_pos hlow]
        cases hlookup : args.lookup (b.toNat / 16) with
        | none => exact hbyte
        | some a => exact congrArg (· ++ _) (text_map_char a)
      · rw [if_neg hlow] at hbyte ⊢
        rw [fills_marker args (n := 10 * (b.toNat / 16) + b.toNat % 16) rfl]
        have hmarker : marker b = some (10 * (b.toNat / 16) + b.toNat % 16) := by simp [marker, hkeep, hhigh, hlow]
        rw [hmarker, Option.bind_some, letter, if_neg hlow]
        cases hlookup : args.lookup (10 * (b.toNat / 16) + b.toNat % 16) with
        | none => exact hbyte
        | some a => exact (text_map_char a).trans (List.append_nil a).symm

/-- A name after all was filled in. -/
def filledName (args : List (ℕ × List UInt8)) (bytes : List UInt8) : List UInt8 := bytes.flatMap (filledByte args)

/-- What takes the place of a marker of one digit behind the name. -/
def filledMark (args : List (ℕ × List UInt8)) (n : ℕ) : List UInt8 := (args.lookup n).getD [37, UInt8.ofNat (48 + n)]

/-- A link after all was filled in. -/
theorem text_fills_namePieces (args : List (ℕ × List UInt8)) (bytes : List UInt8) :
    text (fills args (namePieces bytes)) = ascii "ed2k://|file|" ++ (filledName args bytes ++ 124 ::
      (filledMark args 2 ++ 124 :: (filledMark args 3 ++ 124 :: (filledMark args 4 ++ [47, 13, 10])))) := by
  have hmark : ∀ n, text (fills args [one n]) = filledMark args n := by
    intro n
    rw [fills_marker args (n := n) rfl, filledMark]
    cases args.lookup n with
    | none => rfl
    | some a => exact text_map_char a
  have hname : text (fills args (bytes.flatMap bytePieces)) = filledName args bytes := by
    induction bytes with
    | nil =>
      have hnil := fills_chars args []
      simp only [List.map_nil] at hnil
      simp [hnil, filledName, text]
    | cons b bytes ih =>
      rw [List.flatMap_cons, fills_append, text_append, text_fills_bytePieces, ih]
      rfl
  have hchars : ∀ a : List UInt8, text (fills args (a.map char)) = a := fun a =>
    (congrArg text (fills_chars args a)).trans (text_map_char a)
  have htail : tailPieces = [124].map char ++ ([one 2] ++ ([124].map char ++ ([one 3] ++ ([124].map char ++ ([one 4] ++
      [47, 13, 10].map char))))) := rfl
  rw [namePieces, htail]
  simp only [fills_append, text_append, hchars, hmark, hname]
  simp

/-- What is filled into a link for a name. -/
def linkArgs (File : SFileInfo) (first second third : ℕ) : List (ℕ × List UInt8) :=
  [(first, sizeText File.FileSize), (second, toHex File.HashEd2k), (third, aichText File)]

/-- The numbers of a link with a name. -/
theorem numbers_namePieces (bytes : List UInt8) : numbers (namePieces bytes) = bytes.filterMap marker ++ [2, 3, 4] := by
  have happend : ∀ ps ps' : List Piece, numbers (ps ++ ps') = numbers ps ++ numbers ps' :=
    fun _ _ => List.filterMap_append
  have hname : numbers (bytes.flatMap bytePieces) = bytes.filterMap marker := by
    induction bytes with
    | nil => rfl
    | cons b bytes ih =>
      rw [List.flatMap_cons, happend, numbers_bytePieces, ih]
      cases hmarker : marker b with
      | none => simp [hmarker]
      | some n => simp [hmarker]
  rw [namePieces, happend, happend, hname]
  rfl

end Filling

section Texts

/-- A letter or digit of base 32. -/
def isBase32 (b : UInt8) : Bool := (65 ≤ b.toNat ∧ b.toNat ≤ 90) ∨ (50 ≤ b.toNat ∧ b.toNat ≤ 55)

theorem unreserved_ne {b : UInt8} (h : unreserved b = true) : b ≠ 37 ∧ b ≠ 47 ∧ b ≠ 10 ∧ b ≠ 124 ∧ b ≠ 61 := by
  have hall : ∀ n < 256, unreserved (UInt8.ofNat n) = true → UInt8.ofNat n ≠ 37 ∧ UInt8.ofNat n ≠ 47 ∧
      UInt8.ofNat n ≠ 10 ∧ UInt8.ofNat n ≠ 124 ∧ UInt8.ofNat n ≠ 61 := by decide +kernel
  have hbyte := hall b.toNat b.toNat_lt
  rw [UInt8.ofNat_toNat] at hbyte
  exact hbyte h

theorem unreserved_digits : ∀ n < 16, unreserved (hexDigit n) = true ∧ unreserved (lowDigit n) = true := by decide

theorem unreserved_of_isBase32 {b : UInt8} (h : isBase32 b = true) : unreserved b = true := by
  simp only [isBase32, decide_eq_true_eq] at h
  simp only [unreserved, decide_eq_true_eq]
  omega

/-- A size is written in bytes that stay. -/
theorem unreserved_sizeText (n : UInt64) : ∀ b ∈ sizeText n, unreserved b = true := by
  have hdigits : ∀ k : ℕ, ∀ b ∈ digits k, unreserved b = true := by
    intro k b hb
    obtain ⟨c, hc, rfl⟩ := List.mem_map.mp hb
    have hdigit := Nat.isDigit_of_mem_toDigits (by omega) (by omega) hc
    simp only [Char.isDigit, Bool.and_eq_true, decide_eq_true_eq] at hdigit
    have hlow : 48 ≤ c.toNat := hdigit.1
    have hhigh : c.toNat ≤ 57 := hdigit.2
    have hvalue : (UInt8.ofNat c.toNat).toNat = c.toNat := UInt8.toNat_ofNat_of_lt' (by
      show c.toNat < 256
      omega)
    simp only [unreserved, hvalue, decide_eq_true_eq]
    omega
  rw [sizeText]
  split_ifs
  · exact hdigits _
  · exact List.forall_mem_cons.mpr ⟨by decide, hdigits _⟩

theorem unreserved_toHex (hash : List UInt8) : ∀ b ∈ toHex hash, unreserved b = true := by
  intro b hb
  obtain ⟨x, -, hmem⟩ := List.mem_flatMap.mp hb
  have hbyte : x.toNat < 256 := x.toNat_lt
  simp only [List.mem_cons, List.not_mem_nil, or_false] at hmem
  rcases hmem with rfl | rfl
  · exact (unreserved_digits _ (by omega)).2
  · exact (unreserved_digits _ (by omega)).2

theorem aichText_eq (File : SFileInfo) :
    aichText File = if File.HashAICH = [] then [] else ascii "h=" ++ File.HashAICH ++ [124] := by
  have htext : ascii "h=%1|" = text ([104, 61].map char ++ [one 1, char 124]) := by decide
  have hpieces : Apart ([104, 61].map char ++ [one 1, char 124]) := by
    have htail : Apart [one 1, char 124] := ⟨by decide, ⟨by decide, by decide⟩, fun h => absurd h (by decide), trivial⟩
    exact apart_chars (List.all_iff_forall_prop.mp (by decide)) htail
  have hfill : fill 1 File.HashAICH ([104, 61].map char ++ [one 1, char 124]) =
      [104, 61].map char ++ (File.HashAICH.map char ++ [124].map char) := rfl
  have hhead : ascii "h=" = [104, 61] := rfl
  rw [aichText]
  split_ifs with hempty
  · rfl
  · rw [htext, arg_text (n := 1) hpieces (by decide), hfill]
    simp only [text_append, text_map_char, hhead, List.append_assoc]

/-- Bytes without a slash and without an end of a line. -/
def Quiet (bytes : List UInt8) : Prop := ∀ b ∈ bytes, b ≠ 47 ∧ b ≠ 10

theorem quiet_of_unreserved {bytes : List UInt8} (h : ∀ b ∈ bytes, unreserved b = true) : Quiet bytes := fun b hb =>
  ⟨(unreserved_ne (h b hb)).2.1, (unreserved_ne (h b hb)).2.2.1⟩

theorem quiet_aichText {File : SFileInfo} (h : ∀ b ∈ File.HashAICH, isBase32 b = true) : Quiet (aichText File) := by
  have haich := quiet_of_unreserved fun b hb => unreserved_of_isBase32 (h b hb)
  have hhead : Quiet (ascii "h=") := List.all_iff_forall_prop.mp (by decide)
  rw [aichText_eq]
  split_ifs
  · simp [Quiet]
  · intro b hb
    simp only [List.mem_append, List.mem_singleton] at hb
    rcases hb with (hb | hb) | rfl
    · exact hhead b hb
    · exact haich b hb
    · decide

theorem quiet_percentByte (b : UInt8) : Quiet (percentByte unreserved b) := by
  have hbyte : b.toNat < 256 := b.toNat_lt
  rw [percentByte]
  split_ifs with hkeep
  · exact quiet_of_unreserved (List.forall_mem_singleton.mpr hkeep)
  · have hhigh := unreserved_ne (unreserved_digits (b.toNat / 16) (by omega)).1
    have hlow := unreserved_ne (unreserved_digits (b.toNat % 16) (by omega)).1
    simp only [Quiet, List.forall_mem_cons]
    simp [hhigh, hlow]

theorem unreserved_letter (b : UInt8) : ∀ x ∈ letter b, unreserved x = true := by
  have hbyte : b.toNat < 256 := b.toNat_lt
  rw [letter]
  split_ifs
  · exact List.forall_mem_singleton.mpr (unreserved_digits _ (by omega)).1
  · simp

theorem quiet_filledName {args : List (ℕ × List UInt8)} (h : ∀ e ∈ args, Quiet e.2) (bytes : List UInt8) :
    Quiet (filledName args bytes) := by
  intro x hx
  obtain ⟨b, -, hmem⟩ := List.mem_flatMap.mp hx
  rw [filledByte] at hmem
  cases hlookup : (marker b).bind fun n => args.lookup n with
  | none =>
    rw [hlookup] at hmem
    exact quiet_percentByte b x hmem
  | some a =>
    rw [hlookup] at hmem
    obtain ⟨n, -, hn⟩ := Option.bind_eq_some_iff.mp hlookup
    rcases List.mem_append.mp hmem with hmem | hmem
    · obtain ⟨pre, post, hargs, -⟩ := List.lookup_eq_some_iff.mp hn
      exact h (n, a) (by simp [hargs]) x hmem
    · exact quiet_of_unreserved (unreserved_letter b) x hmem

/-- What is filled in behind the name is quiet. -/
theorem quiet_filledMark {args : List (ℕ × List UInt8)} (h : ∀ e ∈ args, Quiet e.2) {n : ℕ} (hn : n < 10) :
    Quiet (filledMark args n) := by
  have hmarks : ∀ n < 10, (37 : UInt8) ≠ 47 ∧ (37 : UInt8) ≠ 10 ∧ UInt8.ofNat (48 + n) ≠ 47 ∧
      UInt8.ofNat (48 + n) ≠ 10 := by decide
  rw [filledMark]
  cases hlookup : args.lookup n with
  | none =>
    obtain ⟨h1, h2, h3, h4⟩ := hmarks n hn
    exact List.forall_mem_cons.mpr ⟨⟨h1, h2⟩, List.forall_mem_singleton.mpr ⟨h3, h4⟩⟩
  | some a =>
    obtain ⟨pre, post, hargs, -⟩ := List.lookup_eq_some_iff.mp hlookup
    exact h (n, a) (by simp [hargs])

end Texts

section Reading

variable (conv : Conversions)

/-- The sections of a link after all was filled in. -/
def linkSections (args : List (ℕ × List UInt8)) (bytes : List UInt8) : List (List UInt8) :=
  (filledName args bytes).splitOn 124 ++ ((filledMark args 2).splitOn 124 ++ ((filledMark args 3).splitOn 124 ++
    (filledMark args 4).splitOn 124))

/-- The file that is read from these sections. -/
def readSections (Sections : List (List UInt8)) : SFileInfo :=
  { SFileInfo.new with
    FileName := fromUtf8 (fromPercent (Sections.getD 0 []))
    FileSize := conv.toULongLong (Sections.getD 1 [])
    HashEd2k := fromHex (Sections.getD 2 [])
    HashAICH := (Sections.drop 3).foldl takeSection [] }

theorem length_linkSections (args : List (ℕ × List UInt8)) (bytes : List UInt8) :
    4 ≤ (linkSections args bytes).length := by
  have hpos : ∀ l : List UInt8, 1 ≤ (l.splitOn 124).length := fun l =>
    List.length_pos_iff.mpr (List.splitOn_ne_nil 124 l)
  have h1 := hpos (filledName args bytes)
  have h2 := hpos (filledMark args 2)
  have h3 := hpos (filledMark args 3)
  have h4 := hpos (filledMark args 4)
  simp only [linkSections, List.length_append]
  omega

theorem loadSegment_sections {Segment : List UInt8} {Sections : List (List UInt8)} (hlength : 4 ≤ Sections.length)
    (hsplit : Segment.splitOn 124 = [] :: ascii "file" :: Sections) :
    loadSegment conv SFileInfo.new Segment = some (readSections conv Sections) := by
  match Sections, hlength with
  | name :: size :: hash :: aich :: rest, _ =>
    have hlower : toLower (ascii "file") = ascii "file" := by decide
    simp [loadSegment, hsplit, hlower, readSections, SFileInfo.new]

theorem loadSegment_plain {Segment : List UInt8} (h : 124 ∉ Segment) (File : SFileInfo) :
    loadSegment conv File Segment = some File := by
  simp [loadSegment, List.splitOn_eq_singleton h]

/-- A link gives its file. -/
theorem loadLine_link {args : List (ℕ × List UInt8)} (h : ∀ e ∈ args, Quiet e.2) (bytes : List UInt8)
    (Files : List SFileInfo) : loadLine conv Files (text (fills args (namePieces bytes))) =
      some (Files ++ [readSections conv (linkSections args bytes)]) := by
  have hmark : ∀ n < 10, ∀ b ∈ filledMark args n, b ≠ 47 := fun n hn b hb => (quiet_filledMark h hn b hb).1
  let middle := ascii "|file|" ++ (filledName args bytes ++ 124 :: (filledMark args 2 ++ 124 :: (filledMark args 3 ++
    124 :: filledMark args 4)))
  have hmiddle : (47 : UInt8) ∉ middle := by
    intro hmem
    simp only [middle, List.mem_append, List.mem_cons] at hmem
    rcases hmem with hmem | hmem | hmem | hmem | hmem | hmem | hmem | hmem
    · exact absurd hmem (by decide)
    · exact (quiet_filledName h bytes 47 hmem).1 rfl
    · exact absurd hmem (by decide)
    · exact hmark 2 (by omega) 47 hmem rfl
    · exact absurd hmem (by decide)
    · exact hmark 3 (by omega) 47 hmem rfl
    · exact absurd hmem (by decide)
    · exact hmark 4 (by omega) 47 hmem rfl
  have htext : text (fills args (namePieces bytes)) =
      ascii "ed2k:" ++ 47 :: ([] ++ 47 :: (middle ++ 47 :: [13, 10])) := by
    have hhead : ascii "ed2k://|file|" = ascii "ed2k:" ++ 47 :: 47 :: ascii "|file|" := by decide
    rw [text_fills_namePieces, hhead]
    simp [middle]
  have hsegments : (text (fills args (namePieces bytes))).splitOn 47 = [ascii "ed2k:", [], middle, [13, 10]] := by
    rw [htext, List.splitOn_append_cons_self_of_not_mem (by decide), List.splitOn_append_cons_self_of_not_mem (by simp),
      List.splitOn_append_cons_self_of_not_mem hmiddle, List.splitOn_eq_singleton (by decide)]
  have hsections : middle.splitOn 124 = [] :: ascii "file" :: linkSections args bytes := by
    have hhead : ascii "|file|" = [] ++ 124 :: (ascii "file" ++ [124]) := by decide
    simp only [middle, hhead, List.nil_append, List.cons_append, List.append_assoc]
    rw [← List.nil_append (124 :: _), List.splitOn_append_cons_self_of_not_mem (by simp),
      List.splitOn_append_cons_self_of_not_mem (by decide)]
    simp only [linkSections, List.splitOn_append_cons_self]
  have hfirst : (text (fills args (namePieces bytes)))[0]? = some 101 := by
    rw [htext]
    rfl
  have hnone : ∀ Segment, (124 : UInt8) ∉ Segment → ∀ File, loadSegment conv File Segment = some File :=
    fun Segment hplain File => loadSegment_plain conv hplain File
  rw [loadLine, hfirst, hsegments]
  have hne : (101 : UInt8) ≠ 35 := by decide
  simp [hne, hnone _ (show (124 : UInt8) ∉ ascii "ed2k:" by decide), hnone _ (show (124 : UInt8) ∉ [] by simp),
    hnone _ (show (124 : UInt8) ∉ [13, 10] by decide),
    loadSegment_sections conv (length_linkSections args bytes) hsections]

theorem lines_flatMap {l : List (List UInt8)} (h : ∀ line ∈ l, (10 : UInt8) ∉ line) :
    lines (l.flatMap (· ++ [10])) = l.map (· ++ [10]) := by
  have hsplit : (l.flatMap (· ++ [10])).splitOn 10 = l ++ [[]] := by
    induction l with
    | nil => rfl
    | cons line l ih =>
      obtain ⟨hline, hrest⟩ := List.forall_mem_cons.mp h
      rw [List.flatMap_cons, List.append_assoc, List.singleton_append,
        List.splitOn_append_cons_self_of_not_mem hline, ih hrest, List.cons_append]
  rw [lines, hsplit, List.dropLast_concat]

end Reading

section Hexadecimal

theorem digitValue_lowDigit : ∀ n < 16, digitValue (lowDigit n) = some n := by decide

/-- Bytes are read back from their digits. -/
theorem fromHex_toHex (bytes : List UInt8) : fromHex (toHex bytes) = bytes := by
  have hvalues : (toHex bytes).filterMap digitValue = bytes.flatMap fun b => [b.toNat / 16, b.toNat % 16] := by
    induction bytes with
    | nil => rfl
    | cons b bytes ih =>
      have hbyte : b.toNat < 256 := b.toNat_lt
      have hhigh := digitValue_lowDigit (b.toNat / 16) (by omega)
      have hlow := digitValue_lowDigit (b.toNat % 16) (by omega)
      rw [toHex] at ih
      rw [toHex, List.flatMap_cons, List.filterMap_append, ih, List.flatMap_cons]
      simp [hhigh, hlow]
  have hread : ∀ l : List UInt8, hexBytes (l.flatMap fun b => [b.toNat % 16, b.toNat / 16]) = l := by
    intro l
    induction l with
    | nil => rfl
    | cons b l ih =>
      have hbyte : 16 * (b.toNat / 16) + b.toNat % 16 = b.toNat := Nat.div_add_mod _ _
      rw [List.flatMap_cons, List.cons_append, List.cons_append, List.nil_append, hexBytes, hbyte, ih,
        UInt8.ofNat_toNat]
  have hreverse : ((bytes.flatMap fun b => [b.toNat / 16, b.toNat % 16]).reverse) =
      bytes.reverse.flatMap fun b => [b.toNat % 16, b.toNat / 16] := by
    rw [List.reverse_flatMap]
    rfl
  rw [fromHex, hvalues, hreverse, hread, List.reverse_reverse]

end Hexadecimal

section Names

/-- A byte of a name whose marker is not among the first ones of a link. -/
def IsUnmarked (b : UInt8) : Prop := ∀ n, marker b = some n → 4 < n

/-- A name whose link is as it should be. -/
def NameUnmarked (name : QString) : Prop := ∀ b ∈ toUtf8 name, IsUnmarked b

/-- A file as it is read from the link of another one. -/
def IsRead (conv : Conversions) (File File' : SFileInfo) : Prop :=
  ∃ first second third, Least ((toUtf8 File.FileName).filterMap marker ++ [2, 3, 4]) first second third ∧
    File' = readSections conv (linkSections (linkArgs File first second third) (toUtf8 File.FileName))

/-- The link of a file is filled in with three least markers. -/
theorem link_eq (File : SFileInfo) : ∃ first second third,
    Least ((toUtf8 File.FileName).filterMap marker ++ [2, 3, 4]) first second third ∧
      link File = text (fills (linkArgs File first second third) (namePieces (toUtf8 File.FileName))) := by
  have hapart : Apart (namePieces (toUtf8 File.FileName)) :=
    apart_chars head_ne (apart_bytePieces _ apart_tailPieces)
  have hmem : ∀ n ∈ [2, 3, 4], n ∈ numbers (namePieces (toUtf8 File.FileName)) := fun n hn => by
    rw [numbers_namePieces]
    exact List.mem_append_right _ hn
  have hsize : ∀ b ∈ sizeText File.FileSize, b ≠ 37 := fun b hb => (unreserved_ne (unreserved_sizeText _ b hb)).1
  have hhash : ∀ b ∈ toHex File.HashEd2k, b ≠ 37 := fun b hb => (unreserved_ne (unreserved_toHex _ b hb)).1
  obtain ⟨first, second, third, hleast, htext⟩ := arg_arg_arg hapart (show 2 < 3 by omega) (show 3 < 4 by omega)
    (hmem 2 (by simp)) (hmem 3 (by simp)) (hmem 4 (by simp)) hsize hhash (aichText File)
  rw [numbers_namePieces] at hleast
  refine ⟨first, second, third, hleast, ?_⟩
  rw [link, arg_template, htext]
  rfl

variable {File : SFileInfo}

theorem quiet_linkArgs (h : ∀ b ∈ File.HashAICH, isBase32 b = true) (first second third : ℕ) :
    ∀ e ∈ linkArgs File first second third, Quiet e.2 := by
  have hsize := quiet_of_unreserved (unreserved_sizeText File.FileSize)
  have hhash := quiet_of_unreserved (unreserved_toHex File.HashEd2k)
  simp only [linkArgs, List.forall_mem_cons]
  exact ⟨hsize, hhash, quiet_aichText h, by simp⟩

variable {bytes : List UInt8} {first second third : ℕ}

/-- The three markers are those of the link itself if no byte of the name is marked. -/
theorem least_of_unmarked (h : ∀ b ∈ bytes, IsUnmarked b)
    (hleast : Least (bytes.filterMap marker ++ [2, 3, 4]) first second third) : first = 2 ∧ second = 3 ∧ third = 4 := by
  have hlow : ∀ n ∈ bytes.filterMap marker ++ [2, 3, 4], 2 ≤ n := by
    intro n hn
    rcases List.mem_append.mp hn with hn | hn
    · obtain ⟨b, hb, hmarker⟩ := List.mem_filterMap.mp hn
      have hlarge := h b hb n hmarker
      omega
    · simp only [List.mem_cons, List.not_mem_nil, or_false] at hn
      omega
  have hfirst := hlow first hleast.first_mem
  have h12 := hleast.first_lt
  have h23 := hleast.second_lt
  have h2 := hleast.rest 2 (by simp)
  have h3 := hleast.rest 3 (by simp)
  have h4 := hleast.rest 4 (by simp)
  omega

/-- The hash `HashAICH` is found behind its mark. -/
theorem takeSection_aichText (h : ∀ b ∈ File.HashAICH, isBase32 b = true) :
    ((aichText File).splitOn 124).foldl takeSection [] = File.HashAICH := by
  rw [aichText_eq]
  split_ifs with hempty
  · rw [hempty]
    decide
  · have hnot : (124 : UInt8) ∉ ascii "h=" ++ File.HashAICH := by
      intro hmem
      rcases List.mem_append.mp hmem with hmem | hmem
      · exact absurd hmem (by decide)
      · exact (unreserved_ne (unreserved_of_isBase32 (h _ hmem))).2.2.2.1 rfl
    have hhead : ascii "h=" = [104, 61] := rfl
    rw [List.splitOn_append_cons_self_of_not_mem hnot]
    simp [takeSection, hhead]

/-- A file whose name has no marked byte is read back, with its name as UTF-8 carries it. -/
theorem isRead_unmarked {conv : Conversions} {File File' : SFileInfo} (hread : IsRead conv File File')
    (haich : ∀ b ∈ File.HashAICH, isBase32 b = true) (h : NameUnmarked File.FileName) :
    File'.FileName = fromUtf8 (toUtf8 File.FileName) ∧ File'.HashEd2k = File.HashEd2k ∧
      File'.HashAICH = File.HashAICH := by
  obtain ⟨first, second, third, hleast, rfl⟩ := hread
  obtain ⟨rfl, rfl, rfl⟩ := least_of_unmarked h hleast
  have hname : filledName (linkArgs File 2 3 4) (toUtf8 File.FileName) =
      toPercent unreserved (toUtf8 File.FileName) := by
    have hbyte : ∀ b ∈ toUtf8 File.FileName, filledByte (linkArgs File 2 3 4) b = percentByte unreserved b := by
      intro b hb
      rw [filledByte]
      cases hmarker : marker b with
      | none => rfl
      | some n =>
        have hn := h b hb n hmarker
        have hlookup : (linkArgs File 2 3 4).lookup n = none := by
          have h2 : n ≠ 2 := by omega
          have h3 : n ≠ 3 := by omega
          have h4 : n ≠ 4 := by omega
          simp [linkArgs, List.lookup_cons, beq_false_of_ne h2, beq_false_of_ne h3, beq_false_of_ne h4]
        simp [hlookup]
    exact List.flatMap_congr hbyte
  have hbar : (124 : UInt8) ∉ toPercent unreserved (toUtf8 File.FileName) := by
    intro hmem
    obtain ⟨b, -, hb⟩ := List.mem_flatMap.mp hmem
    have hbyte : b.toNat < 256 := b.toNat_lt
    rw [percentByte] at hb
    split_ifs at hb with hkeep
    · exact (unreserved_ne hkeep).2.2.2.1 (List.mem_singleton.mp hb).symm
    · simp only [List.mem_cons, List.not_mem_nil, or_false] at hb
      rcases hb with hb | hb | hb
      · exact absurd hb (by decide)
      · exact (unreserved_ne (unreserved_digits (b.toNat / 16) (by omega)).1).2.2.2.1 hb.symm
      · exact (unreserved_ne (unreserved_digits (b.toNat % 16) (by omega)).1).2.2.2.1 hb.symm
  have hplain : ∀ bytes : List UInt8, (∀ b ∈ bytes, unreserved b = true) → bytes.splitOn 124 = [bytes] :=
    fun bytes hall => List.splitOn_eq_singleton fun hmem => (unreserved_ne (hall _ hmem)).2.2.2.1 rfl
  have hsections : linkSections (linkArgs File 2 3 4) (toUtf8 File.FileName) =
      [toPercent unreserved (toUtf8 File.FileName), sizeText File.FileSize, toHex File.HashEd2k] ++
        (aichText File).splitOn 124 := by
    have h2 : filledMark (linkArgs File 2 3 4) 2 = sizeText File.FileSize := rfl
    have h3 : filledMark (linkArgs File 2 3 4) 3 = toHex File.HashEd2k := rfl
    have h4 : filledMark (linkArgs File 2 3 4) 4 = aichText File := rfl
    rw [linkSections, hname, h2, h3, h4, List.splitOn_eq_singleton hbar, hplain _ (unreserved_sizeText _),
      hplain _ (unreserved_toHex _)]
    rfl
  rw [hsections]
  refine ⟨?_, fromHex_toHex _, takeSection_aichText haich⟩
  exact congrArg fromUtf8 (fromPercent_toPercent (by decide) _)

/-- A byte as the end of a name keeps it, and what is filled in for it. -/
def keptByte (args : List (ℕ × List UInt8)) (b : UInt8) : List UInt8 :=
  match (marker b).bind fun n => args.lookup n with
  | none => [b]
  | some a => a ++ letter b

theorem fromPercent_append (h : ∀ b ∈ bytes, b ≠ 37) (rest : List UInt8) :
    fromPercent (bytes ++ rest) = bytes ++ fromPercent rest := by
  induction bytes with
  | nil => rfl
  | cons b bytes ih =>
    obtain ⟨hb, hrest⟩ := List.forall_mem_cons.mp h
    rw [List.cons_append, fromPercent_cons hb, ih hrest, List.cons_append]

theorem percentByte_ne (b : UInt8) : ∀ x ∈ percentByte unreserved b, x ≠ 124 := by
  have hbyte : b.toNat < 256 := b.toNat_lt
  rw [percentByte]
  split_ifs with hkeep
  · exact List.forall_mem_singleton.mpr (unreserved_ne hkeep).2.2.2.1
  · have hhigh := unreserved_ne (unreserved_digits (b.toNat / 16) (by omega)).1
    have hlow := unreserved_ne (unreserved_digits (b.toNat % 16) (by omega)).1
    simp only [List.forall_mem_cons]
    simp [hhigh, hlow]

/-- The bytes of a name that is read are those of unmarked ones, and what was filled in. -/
theorem mem_fromPercent {args : List (ℕ × List UInt8)} (h : ∀ e ∈ args, ∀ b ∈ e.2, b ≠ 37)
    {x : UInt8} (hx : x ∈ fromPercent ((filledName args bytes).takeWhile (· ≠ 124))) :
    ∃ b ∈ bytes, x ∈ keptByte args b := by
  induction bytes with
  | nil => simp [filledName, fromPercent] at hx
  | cons b bytes ih =>
    have hcons : filledName args (b :: bytes) = filledByte args b ++ filledName args bytes := rfl
    have hlater : x ∈ fromPercent ((filledName args bytes).takeWhile (· ≠ 124)) →
        ∃ b' ∈ b :: bytes, x ∈ keptByte args b' := fun hmem => by
      obtain ⟨b', hb', hkept⟩ := ih hmem
      exact ⟨b', List.mem_cons_of_mem _ hb', hkept⟩
    have hhere : x ∈ keptByte args b → ∃ b' ∈ b :: bytes, x ∈ keptByte args b' := fun hkept =>
      ⟨b, List.mem_cons_self, hkept⟩
    rw [hcons] at hx
    cases hlookup : (marker b).bind fun n => args.lookup n with
    | none =>
      have hbyte : filledByte args b = percentByte unreserved b := by simp only [filledByte, hlookup]
      have hkept : keptByte args b = [b] := by simp only [keptByte, hlookup]
      have hall : ∀ x ∈ percentByte unreserved b, decide (x ≠ 124) = true := fun x hmem =>
        decide_eq_true (percentByte_ne b x hmem)
      rw [hbyte, List.takeWhile_append_of_pos hall, fromPercent_percentByte (by decide)] at hx
      rcases List.mem_cons.mp hx with rfl | hx
      · exact hhere (by simp [hkept])
      · exact hlater hx
    | some a =>
      have hbyte : filledByte args b = a ++ letter b := by simp only [filledByte, hlookup]
      have hkept : keptByte args b = a ++ letter b := by simp only [keptByte, hlookup]
      have hplain : ∀ x ∈ a ++ letter b, x ≠ 37 := by
        intro x hmem
        obtain ⟨n, -, hn⟩ := Option.bind_eq_some_iff.mp hlookup
        obtain ⟨pre, post, hargs, -⟩ := List.lookup_eq_some_iff.mp hn
        rcases List.mem_append.mp hmem with hmem | hmem
        · exact h (n, a) (by simp [hargs]) x hmem
        · exact (unreserved_ne (unreserved_letter b x hmem)).1
      rw [hbyte, List.takeWhile_append] at hx
      split_ifs at hx with hwhole
      · rw [fromPercent_append hplain] at hx
        rcases List.mem_append.mp hx with hx | hx
        · exact hhere (hkept ▸ hx)
        · exact hlater hx
      · have hpart : ∀ x ∈ (a ++ letter b).takeWhile (· ≠ 124), x ∈ a ++ letter b := fun x hmem =>
          List.takeWhile_subset _ hmem
        have hread := fromPercent_append (fun x hmem => hplain x (hpart x hmem)) []
        rw [List.append_nil] at hread
        rw [hread, fromPercent, List.append_nil] at hx
        exact hhere (hkept ▸ hpart x hx)

/-- The first section of a link is the name up to a bar. -/
theorem getD_splitOn (bytes : List UInt8) (rest : List (List UInt8)) :
    (bytes.splitOn 124 ++ rest).getD 0 [] = bytes.takeWhile (· ≠ 124) := by
  induction bytes with
  | nil => rfl
  | cons b bytes ih =>
    rw [List.splitOn_cons_eq_if_modifyHead]
    by_cases hb : b = 124
    · simp [hb]
    · cases hsplit : bytes.splitOn 124 with
      | nil => exact absurd hsplit (List.splitOn_ne_nil _ _)
      | cons first others =>
        simp [hsplit] at ih
        simp [hb, ih]

/-- A character of a name that is read is a byte of it. -/
theorem mem_of_mem_fromUtf8 {c : Char} (hc : c.toNat < 128)
    (h : c ∈ fromUtf16 (fromUtf8 bytes)) : UInt8.ofNat c.toNat ∈ bytes := by
  rw [fromUtf8, fromUtf16_flatMap] at h
  have hskip : ∀ cs : List Char, c ∈ skipMark cs → c ∈ cs := by
    intro cs hmem
    cases cs with
    | nil => exact hmem
    | cons d cs =>
      rw [skipMark] at hmem
      split_ifs at hmem
      · exact List.mem_cons_of_mem _ hmem
      · exact hmem
  exact List.takeWhile_subset _ (mem_of_mem_decodeUtf8 hc (hskip _ h))

/-- What is filled in consists of bytes that stay, apart from the signs of the text for `HashAICH`. -/
theorem mem_linkArgs (haich : ∀ b ∈ File.HashAICH, isBase32 b = true) :
    ∀ e ∈ linkArgs File first second third, ∀ x ∈ e.2, unreserved x = true ∨ e.1 = third ∧ (x = 61 ∨ x = 124) := by
  have htext : ∀ x ∈ aichText File, unreserved x = true ∨ x = 61 ∨ x = 124 := by
    intro x hx
    have hhead : ascii "h=" = [104, 61] := rfl
    rw [aichText_eq, hhead] at hx
    split_ifs at hx
    · simp at hx
    · simp only [List.mem_append, List.mem_cons, List.not_mem_nil, or_false] at hx
      rcases hx with ((rfl | rfl) | hx) | rfl
      · exact Or.inl (by decide)
      · exact Or.inr (Or.inl rfl)
      · exact Or.inl (unreserved_of_isBase32 (haich x hx))
      · exact Or.inr (Or.inr rfl)
  simp only [linkArgs, List.forall_mem_cons]
  refine ⟨fun x hx => Or.inl (unreserved_sizeText _ x hx), fun x hx => Or.inl (unreserved_toHex _ x hx),
    fun x hx => (htext x hx).imp id fun hsign => ⟨trivial, hsign⟩, by simp⟩

/-- Exactly three markers are filled in behind a name. -/
theorem lookup_linkArgs {first second third n : ℕ} :
    (∃ a, (linkArgs File first second third).lookup n = some a) ↔ n = first ∨ n = second ∨ n = third := by
  constructor
  · rintro ⟨a, hlookup⟩
    obtain ⟨pre, post, hargs, -⟩ := List.lookup_eq_some_iff.mp hlookup
    have hmem : (n, a) ∈ linkArgs File first second third := by simp [hargs]
    simp only [linkArgs, List.mem_cons, List.not_mem_nil, or_false, Prod.mk.injEq] at hmem
    rcases hmem with ⟨h, -⟩ | ⟨h, -⟩ | ⟨h, -⟩ <;> simp [h]
  · intro h
    by_cases h1 : n = first
    · exact ⟨sizeText File.FileSize, by simp [linkArgs, h1]⟩
    · by_cases h2 : n = second
      · exact ⟨toHex File.HashEd2k, by simp [linkArgs, List.lookup_cons, beq_false_of_ne h1, ← h2]⟩
      · have h3 : n = third := (h.resolve_left h1).resolve_left h2
        exact ⟨aichText File, by simp [linkArgs, List.lookup_cons, beq_false_of_ne h1, beq_false_of_ne h2, ← h3]⟩

theorem marker_facts {b : UInt8} {n : ℕ} (h : marker b = some n) (hn : n ≤ 4) :
    unreserved b = false ∧ b.toNat < 128 ∧ b ≠ 124 ∧ (b = 61 → n = 3) := by
  have hall : ∀ k < 256, ∀ m ∈ marker (UInt8.ofNat k), m ≤ 4 → unreserved (UInt8.ofNat k) = false ∧
      (UInt8.ofNat k).toNat < 128 ∧ UInt8.ofNat k ≠ 124 ∧ (UInt8.ofNat k = 61 → m = 3) := by decide +kernel
  have hbyte := hall b.toNat b.toNat_lt
  rw [UInt8.ofNat_toNat] at hbyte
  exact hbyte n h hn

/-- A marked byte is lost from the name, unless it is the sign in the text for `HashAICH`. -/
theorem marked_byte {conv : Conversions} (haich : ∀ b ∈ File.HashAICH, isBase32 b = true)
    (hname : (readSections conv (linkSections (linkArgs File first second third) (toUtf8 File.FileName))).FileName =
      File.FileName) {b : UInt8} (hb : b ∈ toUtf8 File.FileName) {n : ℕ} (hmarker : marker b = some n) (hn : n ≤ 4)
    (htaken : n = first ∨ n = second ∨ n = third) : b = 61 ∧ ∃ b' ∈ toUtf8 File.FileName, marker b' = some third := by
  obtain ⟨hkeep, hascii, hbar, -⟩ := marker_facts hmarker hn
  have hplain : ∀ e ∈ linkArgs File first second third, ∀ x ∈ e.2, x ≠ 37 := by
    intro e he x hx
    rcases mem_linkArgs haich e he x hx with hx | ⟨-, rfl | rfl⟩
    · exact (unreserved_ne hx).1
    · decide
    · decide
  obtain ⟨c, hc, hvalue⟩ := mem_of_mem_encodeUtf8 hascii hb
  have hloaded : (readSections conv (linkSections (linkArgs File first second third) (toUtf8 File.FileName))).FileName =
      fromUtf8 (fromPercent ((filledName (linkArgs File first second third) (toUtf8 File.FileName)).takeWhile
        (· ≠ 124))) := by
    rw [readSections, linkSections, getD_splitOn]
  rw [← hname, hloaded] at hc
  have hmem := mem_of_mem_fromUtf8 (hvalue ▸ hascii) hc
  rw [hvalue, UInt8.ofNat_toNat] at hmem
  obtain ⟨b', hb', hkept⟩ := mem_fromPercent hplain hmem
  cases hmarker' : marker b' with
  | none =>
    simp only [keptByte, hmarker', Option.bind_none, List.mem_singleton] at hkept
    rw [hkept, hmarker'] at hmarker
    cases hmarker
  | some m =>
    cases hlookup : (linkArgs File first second third).lookup m with
    | none =>
      simp only [keptByte, hmarker', Option.bind_some, hlookup, List.mem_singleton] at hkept
      rw [hkept, hmarker'] at hmarker
      obtain ⟨a, ha⟩ := lookup_linkArgs.mpr htaken
      rw [← Option.some.inj hmarker, hlookup] at ha
      cases ha
    | some a =>
      simp only [keptByte, hmarker', Option.bind_some, hlookup] at hkept
      have hno : unreserved b ≠ true := by simp [hkeep]
      obtain ⟨pre, post, hargs, -⟩ := List.lookup_eq_some_iff.mp hlookup
      have hin : (m, a) ∈ linkArgs File first second third := by simp [hargs]
      rcases List.mem_append.mp hkept with hx | hx
      · obtain ⟨hthird, hsign⟩ := (mem_linkArgs haich _ hin b hx).resolve_left hno
        exact ⟨hsign.resolve_right hbar, b', hb', hmarker'.trans (congrArg some hthird)⟩
      · exact absurd (unreserved_letter b' b hx) hno

/-- A file whose name has a marked byte is read with another name. -/
theorem isRead_marked {conv : Conversions} {File File' : SFileInfo} (hread : IsRead conv File File')
    (haich : ∀ b ∈ File.HashAICH, isBase32 b = true) (h : ¬ NameUnmarked File.FileName) :
    File'.FileName ≠ File.FileName := by
  obtain ⟨first, second, third, hleast, rfl⟩ := hread
  intro hname
  have h12 := hleast.first_lt
  have h23 := hleast.second_lt
  have h2 := hleast.rest 2 (by simp)
  have h3 := hleast.rest 3 (by simp)
  have h4 := hleast.rest 4 (by simp)
  have hlost : ∀ b ∈ toUtf8 File.FileName, ∀ n, marker b = some n → n = first ∨ n = second ∨ n = third →
      n = 3 ∧ third = 3 := by
    intro b hb n hmarker htaken
    obtain ⟨hb61, b', hb', hmarker'⟩ := marked_byte haich hname hb hmarker (by omega) htaken
    obtain ⟨hb61', -⟩ := marked_byte haich hname hb' hmarker' (by omega) (Or.inr (Or.inr rfl))
    exact ⟨(marker_facts hmarker (by omega)).2.2.2 hb61, (marker_facts hmarker' (by omega)).2.2.2 hb61'⟩
  -- A first marker below 2 is that of a byte of the name.
  have hfirst : 2 ≤ first := by
    by_contra hlow
    rcases List.mem_append.mp hleast.first_mem with hmem | hmem
    · obtain ⟨b, hb, hmarker⟩ := List.mem_filterMap.mp hmem
      have hvalue := hlost b hb first hmarker (Or.inl rfl)
      omega
    · simp only [List.mem_cons, List.not_mem_nil, or_false] at hmem
      omega
  have hsmall : ∃ b ∈ toUtf8 File.FileName, ∃ n, marker b = some n ∧ n ≤ 4 := by
    simp only [NameUnmarked, IsUnmarked, not_forall, not_lt] at h
    obtain ⟨b, hb, n, hmarker, hn⟩ := h
    exact ⟨b, hb, n, hmarker, hn⟩
  obtain ⟨b, hb, n, hmarker, hn⟩ := hsmall
  have hrest := hleast.rest n (List.mem_append_left _ (List.mem_filterMap.mpr ⟨b, hb, hmarker⟩))
  have hvalue := hlost b hb n hmarker (by omega)
  omega

end Names

section Files

/-- What the text of a collection keeps of a file. -/
def named (File : SFileInfo) : QString × List UInt8 × List UInt8 := (File.FileName, File.HashEd2k, File.HashAICH)

/-- The text of a collection is read back. -/
def TextRight (conv : Conversions) (c : CMuleCollection) (FileName : QString) : Prop :=
  ∃ c', loadFromData conv (saveToSimpleFile c) FileName = some (true, c') ∧ c'.m_Files.map named = c.m_Files.map named

theorem link_line {File : SFileInfo} (haich : ∀ b ∈ File.HashAICH, isBase32 b = true) :
    ∃ body, link File = body ++ [10] ∧ (10 : UInt8) ∉ body := by
  obtain ⟨first, second, third, -, hlink⟩ := link_eq File
  have hquiet := quiet_linkArgs haich first second third
  have hname := quiet_filledName hquiet (toUtf8 File.FileName)
  have h2 := quiet_filledMark hquiet (show 2 < 10 by omega)
  have h3 := quiet_filledMark hquiet (show 3 < 10 by omega)
  have h4 := quiet_filledMark hquiet (show 4 < 10 by omega)
  refine ⟨ascii "ed2k://|file|" ++ (filledName (linkArgs File first second third) (toUtf8 File.FileName) ++
    124 :: (filledMark (linkArgs File first second third) 2 ++ 124 ::
    (filledMark (linkArgs File first second third) 3 ++ 124 ::
    (filledMark (linkArgs File first second third) 4 ++ [47, 13])))), ?_, fun hmem => ?_⟩
  · rw [hlink, text_fills_namePieces]
    simp
  · simp only [List.mem_append, List.mem_cons] at hmem
    rcases hmem with hmem | hmem | hmem | hmem | hmem | hmem | hmem | hmem | hmem
    · exact absurd hmem (by decide)
    · exact (hname 10 hmem).2 rfl
    · exact absurd hmem (by decide)
    · exact (h2 10 hmem).2 rfl
    · exact absurd hmem (by decide)
    · exact (h3 10 hmem).2 rfl
    · exact absurd hmem (by decide)
    · exact (h4 10 hmem).2 rfl
    · exact absurd hmem (by simp)

theorem loadLine_links (conv : Conversions) {l : List SFileInfo}
    (haich : ∀ File ∈ l, ∀ b ∈ File.HashAICH, isBase32 b = true) (Files : List SFileInfo) :
    ∃ l', (l.map link).foldlM (loadLine conv) Files = some (Files ++ l') ∧ List.Forall₂ (IsRead conv) l l' := by
  induction l generalizing Files with
  | nil => exact ⟨[], by simp, List.Forall₂.nil⟩
  | cons File l ih =>
    obtain ⟨hfile, hrest⟩ := List.forall_mem_cons.mp haich
    obtain ⟨first, second, third, hleast, hlink⟩ := link_eq File
    have hline := loadLine_link conv (quiet_linkArgs hfile first second third) (toUtf8 File.FileName) Files
    rw [← hlink] at hline
    obtain ⟨l', hfold, hread⟩ := ih hrest (Files ++ [readSections conv
      (linkSections (linkArgs File first second third) (toUtf8 File.FileName))])
    refine ⟨_, ?_, List.Forall₂.cons ⟨first, second, third, hleast, rfl⟩ hread⟩
    rw [List.map_cons, List.foldlM_cons, hline, Option.bind_eq_bind, Option.bind_some, hfold, List.append_assoc,
      List.singleton_append]

section

variable (conv : Conversions) {c : CMuleCollection} (FileName : QString)
  (haich : ∀ File ∈ c.m_Files, ∀ b ∈ File.HashAICH, isBase32 b = true)

include conv FileName haich

/-- The text of a collection gives a file for each link. -/
theorem loadFromData_simple :
    ∃ Files, loadFromData conv (saveToSimpleFile c) FileName = some (true,
      { CMuleCollection.new with m_CollectionName := conv.baseName FileName, m_Files := Files }) ∧
      List.Forall₂ (IsRead conv) c.m_Files Files := by
  let comment := ascii "# eMule collection (simple text format)\r"
  have hcomment : ascii "# eMule collection (simple text format)\r\n" = comment ++ [10] := by decide
  have hbody : ∀ File ∈ c.m_Files, link File = (link File).dropLast ++ [10] ∧ (10 : UInt8) ∉ (link File).dropLast := by
    intro File hmem
    obtain ⟨body, hlink, hbody⟩ := link_line (haich File hmem)
    have hlast : (link File).dropLast = body := by rw [hlink, List.dropLast_concat]
    rw [hlast]
    exact ⟨hlink, hbody⟩
  have hdata : saveToSimpleFile c =
      (comment :: c.m_Files.map fun File => (link File).dropLast).flatMap (· ++ [10]) := by
    rw [List.flatMap_cons, List.flatMap_map, saveToSimpleFile, hcomment]
    exact congrArg _ (List.flatMap_congr fun File hmem => (hbody File hmem).1)
  have hlines : lines (saveToSimpleFile c) = (comment ++ [10]) :: c.m_Files.map link := by
    rw [hdata, lines_flatMap, List.map_cons, List.map_map]
    · exact congrArg _ (List.map_congr_left fun File hmem => (hbody File hmem).1.symm)
    · refine List.forall_mem_cons.mpr ⟨by decide, fun line hline => ?_⟩
      obtain ⟨File, hmem, rfl⟩ := List.mem_map.mp hline
      exact (hbody File hmem).2
  have hfirst : (saveToSimpleFile c)[0]? = some 35 := rfl
  have hskip : loadLine conv [] (comment ++ [10]) = some [] := rfl
  obtain ⟨Files, hfold, hread⟩ := loadLine_links conv haich []
  refine ⟨Files, ?_, hread⟩
  rw [loadFromData, hfirst, hlines]
  simp [hskip, hfold]

/-- The text of a collection is read back exactly if UTF-8 carries all names and none of their bytes is marked. -/
theorem textRight_iff :
    TextRight conv c FileName ↔ ∀ File ∈ c.m_Files, IsPlain File.FileName ∧ NameUnmarked File.FileName := by
  obtain ⟨Files, hload, hread⟩ := loadFromData_simple conv FileName haich
  have hfiles : TextRight conv c FileName ↔ Files.map named = c.m_Files.map named := by
    constructor
    · rintro ⟨c', hc', hnamed⟩
      rw [hload] at hc'
      cases hc'
      exact hnamed
    · exact fun hnamed => ⟨_, hload, hnamed⟩
  rw [hfiles]
  clear hfiles hload
  generalize c.m_Files = files at haich hread ⊢
  induction hread with
  | nil => simp
  | @cons File File' l l' hfile hrest ih =>
    obtain ⟨haichfile, haichrest⟩ := List.forall_mem_cons.mp haich
    have hone : named File' = named File ↔ IsPlain File.FileName ∧ NameUnmarked File.FileName := by
      by_cases hname : NameUnmarked File.FileName
      · obtain ⟨h1, h2, h3⟩ := isRead_unmarked hfile haichfile hname
        simp [named, h1, h2, h3, hname, fromUtf8_toUtf8_iff]
      · have hlost := isRead_marked hfile haichfile hname
        simp [named, hlost, hname]
    rw [List.map_cons, List.map_cons, List.cons.injEq, hone, List.forall_mem_cons]
    exact and_congr_right fun _ => ih haichrest

end

end Files

end NeoLoader.CollectionLinks
