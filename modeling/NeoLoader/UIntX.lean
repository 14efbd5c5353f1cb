import Mathlib.Data.List.OfFn
import Mathlib.Tactic.Ring
import NeoLoader.ByteReader

/-!
# Numbers of 128 bits

`CUIntX` keeps sixteen bytes, the least one first, that are also four digits of 32 bits. Sums carry from
the lowest digit to the highest one. Differences run the other way, so they are right only if no digit
borrows. A shift moves bytes and then bits; a shift by all bits leaves the array.
-/

namespace NeoLoader.UIntX

open ByteReader

section Digits

/-- The bytes of a number. -/
abbrev Data := Fin 16 → BitVec 8

/-- The number. -/
def value (d : Data) : ℕ := ofLittleEndian (List.ofFn fun i => UInt8.ofBitVec (d i))

def getDWord (d : Data) (i : Fin 4) : ℕ :=
  (d ⟨4 * i, by omega⟩).toNat + 256 * (d ⟨4 * i + 1, by omega⟩).toNat +
    256 ^ 2 * (d ⟨4 * i + 2, by omega⟩).toNat + 256 ^ 3 * (d ⟨4 * i + 3, by omega⟩).toNat

/-- `SetDWord`: the lowest 32 bits of a number. -/
def setDWord (d : Data) (i : Fin 4) (v : ℤ) : Data := fun j =>
  if j.val / 4 = i then BitVec.ofInt 8 (v / 256 ^ (j.val % 4)) else d j

def isNull (d : Data) : Bool := (List.finRange 4).all fun i => getDWord d i = 0

/-- One digit of a sum, with what is carried. -/
def addDigit (uValue : Data) (s : Data × ℤ) (i : Fin 4) : Data × ℤ :=
  let iSum := s.2 + getDWord s.1 i + getDWord uValue i
  (setDWord s.1 i iSum, iSum / 2 ^ 32)

/-- `CUIntX::Add`. -/
def add (d uValue : Data) : Data :=
  if isNull uValue then d else ((List.finRange 4).foldl (addDigit uValue) (d, 0)).1

/-- One digit of a difference, with what is borrowed. -/
def subtractDigit (uValue : Data) (s : Data × ℤ) (i : Fin 4) : Data × ℤ :=
  let iSum := s.2 + getDWord s.1 i - getDWord uValue i
  (setDWord s.1 i iSum, iSum / 2 ^ 32)

/-- `CUIntX::Subtract`: from the highest digit down. -/
def subtract (d uValue : Data) : Data :=
  if isNull uValue then d else ((List.finRange 4).reverse.foldl (subtractDigit uValue) (d, 0)).1

end Digits

section Shifts

/-- Reads a byte, if there is one. -/
def getByte (d : Data) (i : ℤ) : Option (BitVec 8) :=
  if h : 0 ≤ i ∧ i < 16 then some (d ⟨i.toNat, by omega⟩) else none

/-- Writes a byte, if there is one. -/
def setByte (d : Data) (i : ℤ) (b : BitVec 8) : Option Data :=
  if h : 0 ≤ i ∧ i < 16 then some (Function.update d ⟨i.toNat, by omega⟩ b) else none

/-- `Init(false)`. -/
def zero : Data := fun _ => 0

/-- A byte in a `short`, shifted to the left. -/
def shifted (b : BitVec 8) (n : ℕ) : BitVec 16 := b.setWidth 16 <<< n

/-- The low byte of a `short`. -/
def lowByte (s : BitVec 16) : BitVec 8 := s.setWidth 8

/-- The high byte of a `short`, which keeps its sign when it is shifted. -/
def highByte (s : BitVec 16) : BitVec 8 := (s.sshiftRight 8).setWidth 8

/-- The loop of `ShiftLeft` over the bytes below some one, from the highest one down. -/
def leftLoop (iIndexShift : ℕ) (n : ℕ) : ℕ → Data → Option Data
  | 0, d => some d
  | i + 1, d => do
    let b ← getByte d i
    let d ← setByte d (i + iIndexShift) (lowByte (shifted b n))
    let above ← getByte d (i + iIndexShift + 1)
    let d ← setByte d (i + iIndexShift + 1) (above ||| highByte (shifted b n))
    leftLoop iIndexShift n i d

/-- The lowest bytes become zero, from some one up. -/
def clearLow (d : Data) : ℕ → Option Data
  | 0 => some d
  | n + 1 => do
    let d ← clearLow d n
    setByte d n 0

/-- `CUIntX::ShiftLeft`, unless it leaves the array. -/
def shiftLeft (d : Data) (uBits : ℕ) : Option Data :=
  if uBits = 0 ∨ isNull d then some d
  else if uBits > 128 then some zero
  else do
    let iIndexShift := uBits / 8
    let i : ℤ := 16 - iIndexShift - 1
    let b ← getByte d i
    let d ← setByte d (i + iIndexShift) (lowByte (shifted b (uBits % 8)))
    let d ← leftLoop iIndexShift (uBits % 8) i.toNat d
    clearLow d iIndexShift

/-- The loop of `ShiftRight` over so many bytes up to the last one, with the `short` of the byte before
them. -/
def rightLoop (iIndexShift : ℕ) (n : ℕ) : ℕ → BitVec 16 → Data → Option (BitVec 16 × Data)
  | 0, iShifted, d => some (iShifted, d)
  | k + 1, iShifted, d => do
    let i : ℤ := 16 - (k + 1)
    let d ← setByte d (i - iIndexShift - 1) (highByte iShifted)
    let b ← getByte d i
    let below ← getByte d (i - iIndexShift - 1)
    let d ← setByte d (i - iIndexShift - 1) (below ||| lowByte (shifted b (8 - n)))
    rightLoop iIndexShift n k (shifted b (8 - n)) d

/-- The loop that clears the highest bytes, before the byte of some index is looked at. The index is
compared as a `size_t`, so minus one is not below any bound, and then the array is left. -/
def clearHigh (iIndexShift : ℕ) : ℕ → Data → Option Data
  | 0, _ => none
  | i + 1, d => if 16 - iIndexShift ≤ i then do
      let d ← setByte d i 0
      clearHigh iIndexShift i d
    else some d

/-- `CUIntX::ShiftRight`, unless it leaves the array. -/
def shiftRight (d : Data) (uBits : ℕ) : Option Data :=
  if uBits = 0 ∨ isNull d then some d
  else if uBits > 128 then some zero
  else do
    let iIndexShift := uBits / 8
    let b ← getByte d iIndexShift
    let (iShifted, d) ←
      rightLoop iIndexShift (uBits % 8) (16 - (iIndexShift + 1)) (shifted b (8 - uBits % 8)) d
    -- the index has run to the end of the array, or one behind it if there was no byte to begin with
    let i : ℤ := max 16 (iIndexShift + 1)
    let d ← setByte d (i - iIndexShift - 1) (highByte iShifted)
    clearHigh iIndexShift 16 d

end Shifts

section Values

/-- The byte of an index, zero behind the last one. -/
def byteAt (d : Data) (j : ℕ) : BitVec 8 := if h : j < 16 then d ⟨j, h⟩ else 0

/-- The bits of a number of bytes. -/
theorem testBit_ofLittleEndian (l : List UInt8) (k : ℕ) :
    (ofLittleEndian l).testBit k = (l.getD (k / 8) 0).toNat.testBit (k % 8) := by
  induction l generalizing k with
  | nil => simp [ofLittleEndian]
  | cons b l ih =>
    have hbyte : b.toNat < 2 ^ 8 := b.toNat_lt
    rw [ofLittleEndian, Nat.add_comm, show 256 = 2 ^ 8 from rfl, Nat.testBit_two_pow_mul_add _ hbyte]
    by_cases hk : k < 8
    · simp [hk, Nat.div_eq_of_lt hk, Nat.mod_eq_of_lt hk]
    · have hdiv : k / 8 = (k - 8) / 8 + 1 := by omega
      have hmod : k % 8 = (k - 8) % 8 := by omega
      rw [if_neg hk, ih, hdiv, hmod, List.getD_cons_succ]

variable (d : Data)

theorem testBit_value (k : ℕ) : (value d).testBit k = (byteAt d (k / 8)).getLsbD (k % 8) := by
  rw [value, testBit_ofLittleEndian, byteAt]
  by_cases h : k / 8 < 16
  · simp only [List.getD_eq_getElem?_getD, List.getElem?_ofFn, dif_pos h, Option.getD_some]
    exact BitVec.testBit_toNat _
  · simp [List.getD_eq_getElem?_getD, h, -List.ofFn_succ]

theorem value_lt : value d < 2 ^ 128 := by
  have h := ofLittleEndian_lt (List.ofFn fun i => UInt8.ofBitVec (d i))
  rw [List.length_ofFn] at h
  exact h.trans_eq (by norm_num)

theorem getDWord_lt (i : Fin 4) : getDWord d i < 2 ^ 32 := by
  have h0 := (d ⟨4 * i, by omega⟩).isLt
  have h1 := (d ⟨4 * i + 1, by omega⟩).isLt
  have h2 := (d ⟨4 * i + 2, by omega⟩).isLt
  have h3 := (d ⟨4 * i + 3, by omega⟩).isLt
  rw [getDWord]
  omega

/-- A number by its digits. -/
theorem value_digits :
    value d = getDWord d 0 + 2 ^ 32 * getDWord d 1 + 2 ^ 64 * getDWord d 2 + 2 ^ 96 * getDWord d 3 := by
  have hbyte : ∀ b : BitVec 8, (UInt8.ofBitVec b).toNat = b.toNat := fun _ => rfl
  have h0 : getDWord d 0 = (d 0).toNat + 256 * (d 1).toNat + 256 ^ 2 * (d 2).toNat + 256 ^ 3 * (d 3).toNat := rfl
  have h1 : getDWord d 1 = (d 4).toNat + 256 * (d 5).toNat + 256 ^ 2 * (d 6).toNat + 256 ^ 3 * (d 7).toNat := rfl
  have h2 : getDWord d 2 = (d 8).toNat + 256 * (d 9).toNat + 256 ^ 2 * (d 10).toNat + 256 ^ 3 * (d 11).toNat := rfl
  have h3 : getDWord d 3 = (d 12).toNat + 256 * (d 13).toNat + 256 ^ 2 * (d 14).toNat + 256 ^ 3 * (d 15).toNat := rfl
  have hvalue : value d = ofLittleEndian (List.map UInt8.ofBitVec [d 0, d 1, d 2, d 3, d 4, d 5, d 6,
      d 7, d 8, d 9, d 10, d 11, d 12, d 13, d 14, d 15]) := by
    simp [value]
  simp only [hvalue, List.map_cons, List.map_nil, ofLittleEndian, hbyte, h0, h1, h2, h3]
  ring

theorem setDWord_byte (i j : Fin 4) (v : ℤ) {k : ℕ} (hk : k < 4) (h : 4 * j.val + k < 16) :
    setDWord d i v ⟨4 * j + k, h⟩ = if j = i then BitVec.ofInt 8 (v / 256 ^ k) else d ⟨4 * j + k, h⟩ := by
  have hdiv : (4 * j.val + k) / 4 = j.val := by omega
  have hmod : (4 * j.val + k) % 4 = k := by omega
  simp [setDWord, hdiv, hmod, Fin.ext_iff]

theorem toNat_byte (n : ℤ) : ((BitVec.ofInt 8 n).toNat : ℤ) = n % 256 := by
  rw [BitVec.toNat_ofInt, Int.toNat_of_nonneg (Int.emod_nonneg n (by decide))]
  rfl

/-- The digits after one was set. -/
theorem getDWord_setDWord (i j : Fin 4) (v : ℤ) :
    (getDWord (setDWord d i v) j : ℤ) = if j = i then v % 2 ^ 32 else (getDWord d j : ℤ) := by
  have hfirst := setDWord_byte d i j v (k := 0) (by decide) (by omega)
  rw [getDWord, setDWord_byte d i j v (by decide), setDWord_byte d i j v (by decide), setDWord_byte d i j v (by decide)]
  erw [hfirst]
  by_cases h : j = i
  · simp only [if_pos h, Nat.cast_add, Nat.cast_mul, toNat_byte]
    omega
  · simp only [if_neg h]
    rfl

end Values

section Sums

theorem finRange_four : List.finRange 4 = [0, 1, 2, 3] := rfl

theorem isNull_iff (d : Data) : isNull d = true ↔ ∀ i, getDWord d i = 0 := by simp [isNull]

theorem isNull_iff_value (d : Data) : isNull d = true ↔ value d = 0 := by
  rw [isNull_iff, Fin.forall_fin_succ, Fin.forall_fin_succ, Fin.forall_fin_two, value_digits]
  change getDWord d 0 = 0 ∧ getDWord d 1 = 0 ∧ getDWord d 2 = 0 ∧ getDWord d 3 = 0 ↔ _
  omega

variable (d u : Data)

/-- The digits of a sum. -/
theorem add_digits (hu : isNull u = false) : ∃ c1 c2 c3 : ℤ,
      (getDWord (add d u) 0 : ℤ) = ((getDWord d 0 : ℤ) + getDWord u 0) % 2 ^ 32 ∧
      c1 = ((getDWord d 0 : ℤ) + getDWord u 0) / 2 ^ 32 ∧
      (getDWord (add d u) 1 : ℤ) = (c1 + getDWord d 1 + getDWord u 1) % 2 ^ 32 ∧
      c2 = (c1 + getDWord d 1 + getDWord u 1) / 2 ^ 32 ∧
      (getDWord (add d u) 2 : ℤ) = (c2 + getDWord d 2 + getDWord u 2) % 2 ^ 32 ∧
      c3 = (c2 + getDWord d 2 + getDWord u 2) / 2 ^ 32 ∧
      (getDWord (add d u) 3 : ℤ) = (c3 + getDWord d 3 + getDWord u 3) % 2 ^ 32 := by
  refine ⟨_, _, _, ?_, rfl, ?_, rfl, ?_, rfl, ?_⟩ <;> simp [add, hu, finRange_four, addDigit, getDWord_setDWord]

/-- A sum is right. -/
theorem value_add : value (add d u) = (value d + value u) % 2 ^ 128 := by
  cases hu : isNull u with
  | true =>
    have hzero := (isNull_iff_value u).mp hu
    rw [add, if_pos hu, hzero, Nat.add_zero, Nat.mod_eq_of_lt (value_lt d)]
  | false =>
    obtain ⟨c1, c2, c3, h0, hc1, h1, hc2, h2, hc3, h3⟩ := add_digits d u hu
    have hd := value_digits d
    have hv := value_digits u
    have hs := value_digits (add d u)
    omega

/-- The digits of a difference. -/
theorem subtract_digits (hu : isNull u = false) : ∃ c3 c2 c1 : ℤ,
      (getDWord (subtract d u) 3 : ℤ) = ((getDWord d 3 : ℤ) - getDWord u 3) % 2 ^ 32 ∧
      c3 = ((getDWord d 3 : ℤ) - getDWord u 3) / 2 ^ 32 ∧
      (getDWord (subtract d u) 2 : ℤ) = (c3 + getDWord d 2 - getDWord u 2) % 2 ^ 32 ∧
      c2 = (c3 + getDWord d 2 - getDWord u 2) / 2 ^ 32 ∧
      (getDWord (subtract d u) 1 : ℤ) = (c2 + getDWord d 1 - getDWord u 1) % 2 ^ 32 ∧
      c1 = (c2 + getDWord d 1 - getDWord u 1) / 2 ^ 32 ∧
      (getDWord (subtract d u) 0 : ℤ) = (c1 + getDWord d 0 - getDWord u 0) % 2 ^ 32 := by
  refine ⟨_, _, _, ?_, rfl, ?_, rfl, ?_, rfl, ?_⟩ <;>
    simp [subtract, hu, finRange_four, subtractDigit, getDWord_setDWord]

/-- The digits of the right difference, with what the lower digits borrow. -/
theorem difference_digits : ∃ e0 e1 e2 : ℤ, e0 = ((getDWord d 0 : ℤ) - getDWord u 0) / 2 ^ 32 ∧
      e1 = (e0 + getDWord d 1 - getDWord u 1) / 2 ^ 32 ∧
      e2 = (e1 + getDWord d 2 - getDWord u 2) / 2 ^ 32 ∧
      ((value d : ℤ) - value u) % 2 ^ 128 = ((getDWord d 0 : ℤ) - getDWord u 0) % 2 ^ 32 +
        2 ^ 32 * ((e0 + getDWord d 1 - getDWord u 1) % 2 ^ 32) +
        2 ^ 64 * ((e1 + getDWord d 2 - getDWord u 2) % 2 ^ 32) +
        2 ^ 96 * ((e2 + getDWord d 3 - getDWord u 3) % 2 ^ 32) := by
  refine ⟨_, _, _, rfl, rfl, rfl, ?_⟩
  have hd := value_digits d
  have hv := value_digits u
  omega

theorem borrow_bit {b c p : ℤ} (hc : c = 0 ∨ c = -1) (hp : -2 ^ 32 < p ∧ p < 2 ^ 32)
    (hb : b = (c + p) / 2 ^ 32) : b = 0 ∨ b = -1 := by omega

theorem nonneg_of_noBorrow {p : ℤ} (h : (0 + p) / 2 ^ 32 = 0) : 0 ≤ p := by omega

theorem borrow_unique {c e p : ℤ} (hc : c = 0 ∨ c = -1) (he : e = 0 ∨ e = -1)
    (h : (c + p) % 2 ^ 32 = (e + p) % 2 ^ 32) : c = e := by omega

/-- If the borrows run down and all digits are right, then no digit borrows. -/
theorem nonneg_of_digits {p0 p1 p2 p3 c1 c2 c3 e0 e1 e2 : ℤ} (hp0 : -2 ^ 32 < p0 ∧ p0 < 2 ^ 32)
    (hp1 : -2 ^ 32 < p1 ∧ p1 < 2 ^ 32) (hp2 : -2 ^ 32 < p2 ∧ p2 < 2 ^ 32)
    (hp3 : -2 ^ 32 < p3 ∧ p3 < 2 ^ 32) (hc3 : c3 = (0 + p3) / 2 ^ 32) (hc2 : c2 = (c3 + p2) / 2 ^ 32)
    (hc1 : c1 = (c2 + p1) / 2 ^ 32) (he0 : e0 = (0 + p0) / 2 ^ 32) (he1 : e1 = (e0 + p1) / 2 ^ 32)
    (he2 : e2 = (e1 + p2) / 2 ^ 32) (h0 : (c1 + p0) % 2 ^ 32 = (0 + p0) % 2 ^ 32)
    (h1 : (c2 + p1) % 2 ^ 32 = (e0 + p1) % 2 ^ 32) (h2 : (c3 + p2) % 2 ^ 32 = (e1 + p2) % 2 ^ 32)
    (h3 : (0 + p3) % 2 ^ 32 = (e2 + p3) % 2 ^ 32) : 0 ≤ p0 ∧ 0 ≤ p1 ∧ 0 ≤ p2 ∧ 0 ≤ p3 := by
  have hc3' := borrow_bit (Or.inl rfl) hp3 hc3
  have hc2' := borrow_bit hc3' hp2 hc2
  have hc1' := borrow_bit hc2' hp1 hc1
  have he0' := borrow_bit (Or.inl rfl) hp0 he0
  have he1' := borrow_bit he0' hp1 he1
  have he2' := borrow_bit he1' hp2 he2
  -- the highest digit borrows nothing from below, and then none does
  have hnone : 0 = e2 := borrow_unique (Or.inl rfl) he2' h3
  have hsame2 : c3 = e1 := borrow_unique hc3' he1' h2
  have hsame1 : c2 = e0 := borrow_unique hc2' he0' h1
  have hsame0 : c1 = 0 := borrow_unique hc1' (Or.inl rfl) h0
  have hfirst : e1 = 0 := by rw [he1, ← hsame1, ← hc1, hsame0]
  have hlast : e0 = 0 := by rw [← hsame1, hc2, hsame2, ← he2, hnone]
  have hp3' : (0 + p3) / 2 ^ 32 = 0 := by rw [← hc3, hsame2, hfirst]
  have hp2' : (0 + p2) / 2 ^ 32 = 0 := by rw [← hfirst, ← he2, ← hnone, hfirst]
  have hp1' : (0 + p1) / 2 ^ 32 = 0 := by rw [← hlast, ← he1, hfirst, hlast]
  have hp0' : (0 + p0) / 2 ^ 32 = 0 := by rw [← he0, hlast]
  exact ⟨nonneg_of_noBorrow hp0', nonneg_of_noBorrow hp1', nonneg_of_noBorrow hp2', nonneg_of_noBorrow hp3'⟩

theorem digits_unique {x0 x1 x2 x3 y0 y1 y2 y3 : ℤ} (hx0 : 0 ≤ x0 ∧ x0 < 2 ^ 32)
    (hx1 : 0 ≤ x1 ∧ x1 < 2 ^ 32) (hx2 : 0 ≤ x2 ∧ x2 < 2 ^ 32) (hy0 : 0 ≤ y0 ∧ y0 < 2 ^ 32)
    (hy1 : 0 ≤ y1 ∧ y1 < 2 ^ 32) (hy2 : 0 ≤ y2 ∧ y2 < 2 ^ 32)
    (h : x0 + 2 ^ 32 * x1 + 2 ^ 64 * x2 + 2 ^ 96 * x3 = y0 + 2 ^ 32 * y1 + 2 ^ 64 * y2 + 2 ^ 96 * y3) :
    x0 = y0 ∧ x1 = y1 ∧ x2 = y2 ∧ x3 = y3 := by
  have h0 : x0 = y0 := by omega
  have h1 : x1 = y1 := by omega
  have h2 : x2 = y2 := by omega
  exact ⟨h0, h1, h2, by omega⟩

/-- A difference is right if and only if no digit borrows. -/
theorem value_subtract_iff : (value (subtract d u) : ℤ) = ((value d : ℤ) - value u) % 2 ^ 128 ↔
      ∀ i, getDWord u i ≤ getDWord d i := by
  cases hu : isNull u with
  | true =>
    have hzero := (isNull_iff u).mp hu
    have hlt := value_lt d
    have hnull := (isNull_iff_value u).mp hu
    rw [subtract, if_pos hu, hnull]
    simp only [hzero, Nat.zero_le, implies_true, iff_true]
    omega
  | false =>
    obtain ⟨c3, c2, c1, h3, hc3, h2, hc2, h1, hc1, h0⟩ := subtract_digits d u hu
    obtain ⟨e0, e1, e2, he0, he1, he2, htrue⟩ := difference_digits d u
    have hs : (value (subtract d u) : ℤ) = getDWord (subtract d u) 0 +
        2 ^ 32 * getDWord (subtract d u) 1 + 2 ^ 64 * getDWord (subtract d u) 2 +
        2 ^ 96 * getDWord (subtract d u) 3 := mod_cast value_digits (subtract d u)
    have hp : ∀ i, -2 ^ 32 < (getDWord d i : ℤ) - getDWord u i ∧ (getDWord d i : ℤ) - getDWord u i < 2 ^ 32 := by
      intro i
      have hd := getDWord_lt d i
      have hv := getDWord_lt u i
      omega
    have hmod : ∀ n : ℤ, 0 ≤ n % 2 ^ 32 ∧ n % 2 ^ 32 < 2 ^ 32 := by omega
    rw [hs, htrue, h0, h1, h2, h3]
    constructor
    · intro h
      obtain ⟨hd0, hd1, hd2, hd3⟩ := digits_unique (hmod _) (hmod _) (hmod _) (hmod _) (hmod _) (hmod _) h
      simp only [add_sub_assoc] at *
      have hnonneg := nonneg_of_digits (hp 0) (hp 1) (hp 2) (hp 3) (by simpa using hc3) hc2 hc1
        (by simpa using he0) he1 he2 (by simpa using hd0) hd1 hd2 (by simpa using hd3)
      rw [Fin.forall_fin_succ, Fin.forall_fin_succ, Fin.forall_fin_two]
      change getDWord u 0 ≤ getDWord d 0 ∧ getDWord u 1 ≤ getDWord d 1 ∧
        getDWord u 2 ≤ getDWord d 2 ∧ getDWord u 3 ≤ getDWord d 3
      omega
    · intro h
      have hzero : ∀ i, ((getDWord d i : ℤ) - getDWord u i) / 2 ^ 32 = 0 := by
        intro i
        have hi := h i
        have hpi := hp i
        omega
      have hc3' : c3 = 0 := hc3.trans (hzero 3)
      have hc2' : c2 = 0 := by rw [hc2, hc3', zero_add, hzero 2]
      have hc1' : c1 = 0 := by rw [hc1, hc2', zero_add, hzero 1]
      have he0' : e0 = 0 := he0.trans (hzero 0)
      have he1' : e1 = 0 := by rw [he1, he0', zero_add, hzero 1]
      have he2' : e2 = 0 := by rw [he2, he1', zero_add, hzero 2]
      rw [hc1', hc2', hc3', he0', he1', he2']
      simp only [zero_add]

end Sums

section Shifted

theorem getLsbD_lowByte (b : BitVec 8) (n : ℕ) {t : ℕ} (ht : t < 8) :
    (lowByte (shifted b n)).getLsbD t = (decide (n ≤ t) && b.getLsbD (t - n)) := by
  have hwide : t < 16 := by omega
  have hin : t - n < 16 := by omega
  have hnot : decide (t < n) = !decide (n ≤ t) := by
    rw [← decide_not]
    simp only [Nat.not_le]
  rw [lowByte, shifted, BitVec.getLsbD_setWidth, BitVec.getLsbD_shiftLeft, BitVec.getLsbD_setWidth, hnot]
  simp only [ht, hwide, hin, decide_true, Bool.true_and, Bool.not_not]

theorem getLsbD_highByte (b : BitVec 8) {n t : ℕ} (hn : n ≤ 8) (ht : t < 8) :
    (highByte (shifted b n)).getLsbD t = b.getLsbD (8 + t - n) := by
  have hwide : 8 + t < 16 := by omega
  have hin : 8 + t - n < 16 := by omega
  have habove : ¬ 8 + t < n := by omega
  have hnone : ¬ 16 ≤ t := by omega
  rw [highByte, shifted, BitVec.getLsbD_setWidth, BitVec.getLsbD_sshiftRight, if_pos hwide,
    BitVec.getLsbD_shiftLeft, BitVec.getLsbD_setWidth]
  simp only [ht, hwide, hin, habove, hnone, decide_true, decide_false, Bool.true_and, Bool.not_false]

variable (d : Data)

theorem getByte_eq {i : ℕ} (h : i < 16) : getByte d i = some (byteAt d i) := by
  rw [getByte, dif_pos ⟨by omega, by omega⟩, byteAt, dif_pos h]
  rfl

theorem setByte_eq {i : ℕ} (h : i < 16) (b : BitVec 8) : setByte d i b = some (Function.update d ⟨i, h⟩ b) := by
  rw [setByte, dif_pos ⟨by omega, by omega⟩]
  rfl

theorem byteAt_update {i : ℕ} (h : i < 16) (b : BitVec 8) (j : ℕ) :
    byteAt (Function.update d ⟨i, h⟩ b) j = if j = i then b else byteAt d j := by
  by_cases hj : j < 16
  · by_cases hij : j = i
    · subst hij
      simp [byteAt, hj]
    · simp [byteAt, hj, hij, Function.update_of_ne]
  · have hne : j ≠ i := by omega
    simp [byteAt, hj, hne]

/-- The bytes below some one become zero. -/
theorem clearLow_eq {n : ℕ} (hn : n ≤ 16) :
    ∃ d', clearLow d n = some d' ∧ ∀ j, byteAt d' j = if j < n then 0 else byteAt d j := by
  induction n with
  | zero => exact ⟨d, rfl, by simp⟩
  | succ n ih =>
    obtain ⟨d', heq, hbytes⟩ := ih (by omega)
    refine ⟨Function.update d' ⟨n, by omega⟩ 0, ?_, ?_⟩
    · simp [clearLow, heq, setByte_eq d' (show n < 16 by omega)]
    · intro j
      rw [byteAt_update, hbytes]
      by_cases hj : j = n
      · simp [hj]
      · have hlt : j < n + 1 ↔ j < n := by omega
        simp [hj, hlt]

/-- The bytes above some one become zero. -/
theorem clearHigh_eq {iIndexShift i : ℕ} (hi : i ≤ 16) (hshift : iIndexShift < 16)
    (hle : 16 - iIndexShift ≤ i) (d : Data) : ∃ d', clearHigh iIndexShift i d = some d' ∧
      ∀ j, byteAt d' j = if 16 - iIndexShift ≤ j ∧ j < i then 0 else byteAt d j := by
  induction i generalizing d with
  | zero => omega
  | succ i ih =>
    by_cases h : 16 - iIndexShift ≤ i
    · obtain ⟨d', heq, hbytes⟩ := ih (by omega) h (Function.update d ⟨i, by omega⟩ 0)
      refine ⟨d', ?_, ?_⟩
      · rw [← heq]
        simp [clearHigh, h, setByte_eq d (show i < 16 by omega)]
      · intro j
        rw [hbytes, byteAt_update]
        by_cases hj : j = i
        · simp [hj, h]
        · have hlt : j < i + 1 ↔ j < i := by omega
          simp [hj, hlt]
    · refine ⟨d, by simp [clearHigh, h], ?_⟩
      intro j
      have hnone : ¬ (16 - iIndexShift ≤ j ∧ j < i + 1) := by omega
      rw [if_neg hnone]

/-- The bytes after the loop of a shift to the left. -/
theorem leftLoop_eq {s n i : ℕ} (h : s + i < 16) : ∃ d', leftLoop s n i d = some d' ∧ ∀ j, byteAt d' j =
      if j < s ∨ s + i < j then byteAt d j
      else (if j = s + i then byteAt d j else lowByte (shifted (byteAt d (j - s)) n)) |||
        (if s < j then highByte (shifted (byteAt d (j - s - 1)) n) else 0) := by
  induction i generalizing d with
  | zero =>
    refine ⟨d, rfl, ?_⟩
    intro j
    by_cases hj : j < s ∨ s + 0 < j
    · rw [if_pos hj]
    · have heq : j = s + 0 := by omega
      have hlast : ¬ s < j := by omega
      rw [if_neg hj, if_pos heq, if_neg hlast]
      simp
  | succ i ih =>
    have hindex : (i : ℤ) + s = (i + s : ℕ) := by push_cast; ring
    have habove : ((i + s : ℕ) : ℤ) + 1 = (i + s + 1 : ℕ) := by push_cast; ring
    have hi : i + s < 16 := by omega
    have hi' : i + s + 1 < 16 := by omega
    obtain ⟨d', heq, hbytes⟩ := ih (Function.update (Function.update d ⟨i + s, hi⟩
      (lowByte (shifted (byteAt d i) n))) ⟨i + s + 1, hi'⟩
      (byteAt d (i + s + 1) ||| highByte (shifted (byteAt d i) n))) (by omega)
    refine ⟨d', ?_, ?_⟩
    · have hread := byteAt_update d hi (lowByte (shifted (byteAt d i) n)) (i + s + 1)
      rw [if_neg (by omega)] at hread
      rw [leftLoop]
      simp only [hindex, habove, getByte_eq d (show i < 16 by omega), setByte_eq _ hi, setByte_eq _ hi',
        getByte_eq _ hi', Option.bind_eq_bind, Option.bind_some, hread]
      exact heq
    · intro j
      simp only [hbytes, byteAt_update]
      rcases Nat.lt_trichotomy j (s + i) with hj | hj | hj
      · have h1 : ¬ j = i + s + 1 := by omega
        have h2 : ¬ j = i + s := by omega
        have h3 : ¬ j = s + i := by omega
        have h4 : ¬ j = s + (i + 1) := by omega
        have h5 : ¬ s + i < j := by omega
        have h6 : ¬ s + (i + 1) < j := by omega
        have h7 : ¬ j - s = i + s + 1 := by omega
        have h8 : ¬ j - s - 1 = i + s + 1 := by omega
        have h9 : ¬ j < s → ¬ j - s = i + s := by omega
        have h10 : s < j → ¬ j - s - 1 = i + s := by omega
        by_cases hlow : j < s
        · simp [hlow, h1, h2]
        · by_cases hs : s < j
          · simp [hlow, hs, h3, h4, h5, h6, h7, h8, h9 hlow, h10 hs]
          · simp [hlow, hs, h3, h4, h5, h6, h7, h9 hlow]
      · have h1 : ¬ (j < s ∨ s + i < j) := by omega
        have h2 : ¬ (j < s ∨ s + (i + 1) < j) := by omega
        have h3 : ¬ j = i + s + 1 := by omega
        have h4 : j = i + s := by omega
        have h5 : ¬ j = s + (i + 1) := by omega
        have h6 : j - s = i := by omega
        have h7 : ¬ j - s - 1 = i + s + 1 := by omega
        have h8 : s < j → ¬ j - s - 1 = i + s := by omega
        rw [if_neg h1, if_neg h2, if_pos hj, if_neg h3, if_pos h4, if_neg h5, h6]
        by_cases hs : s < j
        · rw [h6] at h7 h8
          rw [if_pos hs, if_pos hs, if_neg h7, if_neg (h8 hs)]
        · rw [if_neg hs, if_neg hs]
      · by_cases hlast : j = i + s + 1
        · have h1 : s + i < j := hj
          have h2 : ¬ (j < s ∨ s + (i + 1) < j) := by omega
          have h3 : j = s + (i + 1) := by omega
          have h4 : s < j := by omega
          have h5 : j - s - 1 = i := by omega
          rw [if_pos (Or.inr h1), if_pos hlast, if_neg h2, if_pos h3, if_pos h4, h5, hlast]
        · have h1 : s + (i + 1) < j := by omega
          have h2 : ¬ j = i + s := by omega
          rw [if_pos (Or.inr hj), if_neg hlast, if_neg h2, if_pos (Or.inr h1)]

variable {uBits : ℕ}

theorem shiftLeft_bytes (hpos : uBits ≠ 0) (h : uBits < 128) (hd : isNull d = false) :
    ∃ d', shiftLeft d uBits = some d' ∧ ∀ j < 16, byteAt d' j = if j < uBits / 8 then 0
      else lowByte (shifted (byteAt d (j - uBits / 8)) (uBits % 8)) |||
        (if uBits / 8 < j then highByte (shifted (byteAt d (j - uBits / 8 - 1)) (uBits % 8)) else 0) := by
  have hs : uBits / 8 < 16 := by omega
  have hsum : uBits / 8 + (15 - uBits / 8) < 16 := by omega
  have hindex : (16 : ℤ) - (uBits / 8 : ℕ) - 1 = (15 - uBits / 8 : ℕ) := by omega
  have hlast : ((15 - uBits / 8 : ℕ) : ℤ) + (uBits / 8 : ℕ) = (15 : ℕ) := by omega
  obtain ⟨d1, hloop, hbytes1⟩ := leftLoop_eq (n := uBits % 8) (Function.update d ⟨15, by decide⟩
    (lowByte (shifted (byteAt d (15 - uBits / 8)) (uBits % 8)))) hsum
  obtain ⟨d2, hclear, hbytes2⟩ := clearLow_eq d1 hs.le
  refine ⟨d2, ?_, ?_⟩
  · rw [shiftLeft, if_neg (by simp [hpos, hd]), if_neg (by omega)]
    simp only [hindex, hlast, Int.toNat_natCast, getByte_eq d (show 15 - uBits / 8 < 16 by omega),
      setByte_eq d (show 15 < 16 by decide), Option.bind_eq_bind, Option.bind_some, hloop, hclear]
  · intro j hj
    rw [hbytes2, hbytes1]
    by_cases hlow : j < uBits / 8
    · simp [hlow]
    · have h1 : ¬ (j < uBits / 8 ∨ uBits / 8 + (15 - uBits / 8) < j) := by omega
      have h2 : j = uBits / 8 + (15 - uBits / 8) ↔ j = 15 := by omega
      have h3 : ¬ j - uBits / 8 - 1 = 15 := by omega
      rw [if_neg hlow, if_neg h1, if_neg hlow]
      simp only [h2, byteAt_update, if_neg h3]
      by_cases h15 : j = 15
      · simp [h15]
      · have h4 : ¬ j - uBits / 8 = 15 := by omega
        simp [h15, h4]

/-- The bytes after the loop of a shift to the right. -/
theorem rightLoop_eq {s n k : ℕ} (h : s + k < 16) : ∃ d', rightLoop s n k (shifted (byteAt d (15 - k)) (8 - n)) d =
        some (shifted (byteAt d 15) (8 - n), d') ∧ ∀ j, byteAt d' j =
      if 15 - k - s ≤ j ∧ j < 15 - s then highByte (shifted (byteAt d (j + s)) (8 - n)) |||
        lowByte (shifted (byteAt d (j + s + 1)) (8 - n))
      else byteAt d j := by
  induction k generalizing d with
  | zero =>
    refine ⟨d, rfl, ?_⟩
    intro j
    have hnone : ¬ (15 - 0 - s ≤ j ∧ j < 15 - s) := by omega
    rw [if_neg hnone]
  | succ k ih =>
    have hindex : (16 : ℤ) - ((k : ℤ) + 1) = (15 - k : ℕ) := by omega
    have hbelow : ((15 - k : ℕ) : ℤ) - s - 1 = (14 - k - s : ℕ) := by omega
    have hp : 14 - k - s < 16 := by omega
    have hk : 15 - k < 16 := by omega
    have hfirst : 15 - (k + 1) = 14 - k := by omega
    obtain ⟨d', heq, hbytes⟩ := ih (Function.update (Function.update d ⟨14 - k - s, hp⟩
      (highByte (shifted (byteAt d (14 - k)) (8 - n)))) ⟨14 - k - s, hp⟩
      (highByte (shifted (byteAt d (14 - k)) (8 - n)) ||| lowByte (shifted (byteAt d (15 - k)) (8 - n))))
      (by omega)
    have hne : ¬ 15 - k = 14 - k - s := by omega
    have hlast : ¬ 15 = 14 - k - s := by omega
    simp only [byteAt_update, if_neg hne, if_neg hlast] at heq hbytes
    refine ⟨d', ?_, ?_⟩
    · rw [rightLoop, hfirst]
      simp only [hindex, hbelow, setByte_eq _ hp, getByte_eq _ hk, getByte_eq _ hp, byteAt_update,
        if_neg hne, if_true, Option.bind_eq_bind, Option.bind_some]
      exact heq
    · intro j
      rw [hbytes]
      by_cases hj : 15 - k - s ≤ j ∧ j < 15 - s
      · have h1 : 15 - (k + 1) - s ≤ j ∧ j < 15 - s := by omega
        have h2 : ¬ j + s = 14 - k - s := by omega
        have h3 : ¬ j + s + 1 = 14 - k - s := by omega
        simp only [if_pos hj, if_pos h1, if_neg h2, if_neg h3]
      · by_cases hnew : j = 14 - k - s
        · have h1 : 15 - (k + 1) - s ≤ j ∧ j < 15 - s := by omega
          have h2 : j + s = 14 - k := by omega
          have h3 : 14 - k + 1 = 15 - k := by omega
          simp only [if_neg hj, if_pos hnew, if_pos h1, h2, h3]
        · have h1 : ¬ (15 - (k + 1) - s ≤ j ∧ j < 15 - s) := by omega
          simp only [if_neg hj, if_neg hnew, if_neg h1]

theorem short_zero (n : ℕ) : highByte (shifted 0 n) = 0 ∧ lowByte (shifted 0 n) = 0 := by
  simp [highByte, lowByte, shifted]

theorem shiftRight_bytes (hpos : uBits ≠ 0) (h : uBits < 128) (hd : isNull d = false) :
    ∃ d', shiftRight d uBits = some d' ∧ ∀ j < 16, byteAt d' j =
      highByte (shifted (byteAt d (j + uBits / 8)) (8 - uBits % 8)) |||
        lowByte (shifted (byteAt d (j + uBits / 8 + 1)) (8 - uBits % 8)) := by
  have hs : uBits / 8 < 16 := by omega
  have hsum : uBits / 8 + (15 - uBits / 8) < 16 := by omega
  have hcount : 16 - (uBits / 8 + 1) = 15 - uBits / 8 := by omega
  have hstart : 15 - (15 - uBits / 8) = uBits / 8 := by omega
  have hindex : max (16 : ℤ) ((uBits / 8 : ℕ) + 1) - (uBits / 8 : ℕ) - 1 = (15 - uBits / 8 : ℕ) := by
    omega
  have hlast : 15 - uBits / 8 < 16 := by omega
  obtain ⟨d1, hloop, hbytes1⟩ := rightLoop_eq (n := uBits % 8) d hsum
  obtain ⟨d2, hclear, hbytes2⟩ := clearHigh_eq (le_refl 16) hs (by omega)
    (Function.update d1 ⟨15 - uBits / 8, hlast⟩ (highByte (shifted (byteAt d 15) (8 - uBits % 8))))
  rw [hstart] at hloop hbytes1
  refine ⟨d2, ?_, ?_⟩
  · rw [shiftRight, if_neg (by simp [hpos, hd]), if_neg (by omega)]
    simp only [getByte_eq d hs, hcount, hloop, hindex, setByte_eq d1 hlast, Option.bind_eq_bind,
      Option.bind_some, hclear]
  · intro j hj
    rw [hbytes2]
    by_cases hhigh : 16 - uBits / 8 ≤ j ∧ j < 16
    · have hnone : ∀ i, 16 ≤ i → byteAt d i = 0 := by
        intro i hi
        rw [byteAt, dif_neg (by omega)]
      rw [if_pos hhigh, hnone _ (by omega), hnone _ (by omega), (short_zero _).1, (short_zero _).2]
      simp
    · rw [if_neg hhigh, byteAt_update]
      by_cases hj15 : j = 15 - uBits / 8
      · have h1 : j + uBits / 8 = 15 := by omega
        have h2 : byteAt d 16 = 0 := by rw [byteAt, dif_neg (by omega)]
        rw [if_pos hj15, h1, h2, (short_zero _).2]
        simp
      · have h1 : 15 - (15 - uBits / 8) - uBits / 8 ≤ j ∧ j < 15 - uBits / 8 := by omega
        rw [if_neg hj15, hbytes1, if_pos (by omega)]

theorem value_eq_of_bits {d : Data} {n : ℕ} (hn : n < 2 ^ 128)
    (h : ∀ j < 16, ∀ t < 8, (byteAt d j).getLsbD t = n.testBit (8 * j + t)) : value d = n := by
  apply Nat.eq_of_testBit_eq
  intro k
  rw [testBit_value]
  by_cases hk : k / 8 < 16
  · rw [h (k / 8) hk (k % 8) (by omega), Nat.div_add_mod]
  · have hlarge : n < 2 ^ k := hn.trans_le (Nat.pow_le_pow_right (by decide) (by omega))
    rw [byteAt, dif_neg hk, Nat.testBit_lt_two_pow hlarge]
    simp

/-- A shift to the left is right. -/
theorem value_shiftLeft (h : uBits < 128) : (shiftLeft d uBits).map value = some (value d * 2 ^ uBits % 2 ^ 128) := by
  by_cases hnone : uBits = 0 ∨ isNull d = true
  · have hsame : value d * 2 ^ uBits % 2 ^ 128 = value d := by
      rcases hnone with rfl | hd
      · rw [pow_zero, Nat.mul_one, Nat.mod_eq_of_lt (value_lt d)]
      · rw [(isNull_iff_value d).mp hd, Nat.zero_mul, Nat.zero_mod]
    rw [shiftLeft, if_pos hnone, hsame, Option.map_some]
  · push Not at hnone
    obtain ⟨d', heq, hbytes⟩ := shiftLeft_bytes d hnone.1 h (by simpa using hnone.2)
    rw [heq, Option.map_some]
    refine congrArg some (value_eq_of_bits (Nat.mod_lt _ (Nat.two_pow_pos 128)) ?_)
    intro j hj t ht
    have hwide : 8 * j + t < 128 := by omega
    rw [hbytes j hj, Nat.testBit_mod_two_pow, Nat.testBit_mul_two_pow, testBit_value]
    by_cases hlow : j < uBits / 8
    · have hbelow : ¬ 8 * j + t ≥ uBits := by omega
      simp [hlow, hbelow]
    · rw [if_neg hlow, BitVec.getLsbD_or, getLsbD_lowByte _ _ ht]
      by_cases hbit : uBits % 8 ≤ t
      · have hdiv : (8 * j + t - uBits) / 8 = j - uBits / 8 := by omega
        have hmod : (8 * j + t - uBits) % 8 = t - uBits % 8 := by omega
        have hge : 8 * j + t ≥ uBits := by omega
        have hnone : (if uBits / 8 < j then
            highByte (shifted (byteAt d (j - uBits / 8 - 1)) (uBits % 8)) else 0).getLsbD t = false := by
          split
          · rw [getLsbD_highByte _ (by omega) ht, BitVec.getLsbD_of_ge _ _ (by omega)]
          · simp
        rw [hdiv, hmod, hnone]
        simp only [hwide, hge, hbit, decide_true, Bool.true_and, Bool.or_false]
      · by_cases hs : uBits / 8 < j
        · have hdiv : (8 * j + t - uBits) / 8 = j - uBits / 8 - 1 := by omega
          have hmod : (8 * j + t - uBits) % 8 = 8 + t - uBits % 8 := by omega
          have hge : 8 * j + t ≥ uBits := by omega
          rw [if_pos hs, getLsbD_highByte _ (by omega) ht, hdiv, hmod]
          simp only [hwide, hge, hbit, decide_true, decide_false, Bool.true_and, Bool.false_and, Bool.false_or]
        · have hbelow : ¬ 8 * j + t ≥ uBits := by omega
          simp [hs, hbelow, hbit]

theorem value_shiftRight (h : uBits < 128) : (shiftRight d uBits).map value = some (value d / 2 ^ uBits) := by
  by_cases hnone : uBits = 0 ∨ isNull d = true
  · have hsame : value d / 2 ^ uBits = value d := by
      rcases hnone with rfl | hd
      · rw [pow_zero, Nat.div_one]
      · rw [(isNull_iff_value d).mp hd, Nat.zero_div]
    rw [shiftRight, if_pos hnone, hsame, Option.map_some]
  · push Not at hnone
    obtain ⟨d', heq, hbytes⟩ := shiftRight_bytes d hnone.1 h (by simpa using hnone.2)
    rw [heq, Option.map_some]
    refine congrArg some (value_eq_of_bits ((Nat.div_le_self _ _).trans_lt (value_lt d)) ?_)
    intro j hj t ht
    rw [hbytes j hj, Nat.testBit_div_two_pow, testBit_value, BitVec.getLsbD_or,
      getLsbD_highByte _ (by omega) ht, getLsbD_lowByte _ _ ht]
    by_cases hbit : 8 - uBits % 8 ≤ t
    · have hdiv : (8 * j + t + uBits) / 8 = j + uBits / 8 + 1 := by omega
      have hmod : (8 * j + t + uBits) % 8 = t - (8 - uBits % 8) := by omega
      rw [BitVec.getLsbD_of_ge _ _ (show 8 ≤ 8 + t - (8 - uBits % 8) by omega), hdiv, hmod]
      simp only [hbit, decide_true, Bool.true_and, Bool.false_or]
    · have hdiv : (8 * j + t + uBits) / 8 = j + uBits / 8 := by omega
      have hmod : (8 * j + t + uBits) % 8 = 8 + t - (8 - uBits % 8) := by omega
      rw [hdiv, hmod]
      simp only [hbit, decide_false, Bool.false_and, Bool.or_false]

end Shifted

section Results

/-- What is expected of the operations for two numbers and an amount: the sum, the difference and both
shifts are right, and no shift leaves the array. -/
def Right (a b : Data) (n : ℕ) : Prop :=
  value (add a b) = (value a + value b) % 2 ^ 128 ∧ (value (subtract a b) : ℤ) = ((value a : ℤ) - value b) % 2 ^ 128 ∧
    (shiftLeft a n).map value = some (value a * 2 ^ n % 2 ^ 128) ∧
    (shiftRight a n).map value = some (value a / 2 ^ n)

theorem shift_null {d : Data} (hd : value d = 0) (n : ℕ) : shiftLeft d n = some d ∧ shiftRight d n = some d := by
  have hnull := (isNull_iff_value d).mpr hd
  simp [shiftLeft, shiftRight, hnull]

theorem shiftLeft_all {d : Data} (hd : value d ≠ 0) : shiftLeft d 128 = none := by
  have hnull : isNull d = false := by
    rw [← Bool.not_eq_true, isNull_iff_value]
    exact hd
  simp [shiftLeft, hnull, getByte]

theorem shiftRight_all {d : Data} (hd : value d ≠ 0) : shiftRight d 128 = none := by
  have hnull : isNull d = false := by
    rw [← Bool.not_eq_true, isNull_iff_value]
    exact hd
  simp [shiftRight, hnull, getByte]

/-- The operations are right if and only if no digit of the difference borrows, and not all bits of a
number other than zero are shifted out. -/
theorem arithmetic_right_iff (a b : Data) (n : ℕ) (hn : n ≤ 128) :
    Right a b n ↔ (∀ i, getDWord b i ≤ getDWord a i) ∧ (n < 128 ∨ value a = 0) := by
  rw [Right, value_subtract_iff]
  constructor
  · rintro ⟨-, hborrow, hleft, -⟩
    refine ⟨hborrow, ?_⟩
    by_contra hnot
    push Not at hnot
    have hall : n = 128 := by omega
    rw [hall, shiftLeft_all hnot.2] at hleft
    simp at hleft
  · rintro ⟨hborrow, hshift⟩
    refine ⟨value_add a b, hborrow, ?_⟩
    by_cases hnull : value a = 0
    · simp [shift_null hnull, hnull]
    · have hlt : n < 128 := hshift.resolve_right hnull
      exact ⟨value_shiftLeft a hlt, value_shiftRight a hlt⟩

/-- A number with one byte. -/
def ofByte (i : Fin 16) (b : BitVec 8) : Data := Function.update zero i b

/-- The operations are right for five, three and a shift by one. -/
theorem arithmetic_right_iff_five : Right (ofByte 0 5) (ofByte 0 3) 1 :=
  (arithmetic_right_iff (ofByte 0 5) (ofByte 0 3) 1 (by decide)).mpr ⟨by decide, Or.inl (by decide)⟩

/-- One taken from `2 ^ 32` gives too much, and a shift of `2 ^ 32` by 128 leaves the array. -/
theorem operations_wrong : value (ofByte 4 1) = 2 ^ 32 ∧ value (ofByte 0 1) = 1 ∧
      value (subtract (ofByte 4 1) (ofByte 0 1)) = 2 ^ 33 - 1 ∧
      shiftLeft (ofByte 4 1) 128 = none ∧ shiftRight (ofByte 4 1) 128 = none ∧
      ¬ Right (ofByte 4 1) (ofByte 0 1) 128 := by
  have hvalue : value (ofByte 4 1) = 2 ^ 32 := by decide
  have hne : value (ofByte 4 1) ≠ 0 := by rw [hvalue]; norm_num
  refine ⟨hvalue, by decide, by decide, shiftLeft_all hne, shiftRight_all hne, ?_⟩
  rintro ⟨-, -, hleft, -⟩
  rw [shiftLeft_all hne] at hleft
  simp at hleft

end Results

end NeoLoader.UIntX
