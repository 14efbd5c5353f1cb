import NeoLoader.ShareMapBits

/-!
# Bit arrays as bytes

A bit array is sent as bytes of eight bits. The first bit of a byte is its highest one, or
its lowest one in the style of eDonkey.
-/

namespace NeoLoader.BitArrays

open ShareMapBits

/-- The place of a bit in its byte. -/
def shift (bED2kStyle : Bool) (bit : ℕ) : ℕ := if bED2kStyle then bit else 7 - bit

/-- A byte of `CShareMap::Bits2Bytes`, with the bits from an index on. -/
def packByte (bED2kStyle : Bool) (bits : List Bool) (index : ℕ) : BitVec 8 :=
  (List.range 8).foldl (fun byte bit =>
    if bits.getD (index + bit) false then byte ||| (1#8 <<< shift bED2kStyle bit) else byte) 0

/-- `CShareMap::Bits2Bytes`. -/
def bits2Bytes (bits : List Bool) (bED2kStyle : Bool) : List (BitVec 8) :=
  (List.range (divUp bits.length 8)).map fun byte => packByte bED2kStyle bits (byte * 8)

/-- A bit of `CShareMap::Bytes2Bits`, which is not set where there is no byte. -/
def bitOf (bytes : List (BitVec 8)) (bED2kStyle : Bool) (bitIndex : ℕ) : Bool :=
  bytes.getD (bitIndex / 8) 0 &&& (1#8 <<< shift bED2kStyle (bitIndex % 8)) ≠ 0

/-- `CShareMap::Bytes2Bits`. -/
def bytes2Bits (bytes : List (BitVec 8)) (partCount : ℕ) (bED2kStyle : Bool) : List Bool :=
  (List.range partCount).map (bitOf bytes bED2kStyle)

@[simp] theorem length_bytes2Bits (bytes : List (BitVec 8)) (partCount : ℕ) (bED2kStyle : Bool) :
    (bytes2Bits bytes partCount bED2kStyle).length = partCount := by
  rw [bytes2Bits, List.length_map, List.length_range]

variable (bED2kStyle : Bool)

theorem shift_lt {bit : ℕ} (hbit : bit < 8) : shift bED2kStyle bit < 8 := by
  unfold shift
  split_ifs <;> omega

theorem shift_inj {bit bit' : ℕ} (hbit : bit < 8) (hbit' : bit' < 8)
    (h : shift bED2kStyle bit = shift bED2kStyle bit') : bit = bit' := by
  unfold shift at h
  split_ifs at h <;> omega

theorem getLsbD_one_shift {s j : ℕ} (hs : s < 8) : (1#8 <<< s).getLsbD j = decide (j = s) := by
  rw [BitVec.getLsbD_shiftLeft, BitVec.getLsbD_one]
  by_cases hj : j = s
  · subst hj
    simp [hs]
  · simp only [hj, decide_false]
    by_cases hlt : j < s
    · simp [hlt]
    · have hne : j - s ≠ 0 := by omega
      simp [hne]

/-- A test of one bit. -/
theorem and_shift_ne_zero (byte : BitVec 8) {s : ℕ} (hs : s < 8) :
    (decide (byte &&& (1#8 <<< s) ≠ 0)) = byte.getLsbD s := by
  by_cases hbit : byte.getLsbD s = true
  · rw [hbit]
    refine decide_eq_true fun hzero => ?_
    have hand := congrArg (fun b => BitVec.getLsbD b s) hzero
    simp only [BitVec.getLsbD_and, hbit, getLsbD_one_shift hs, decide_true, Bool.and_self] at hand
    simp at hand
  · rw [Bool.eq_false_iff.mpr hbit]
    refine decide_eq_false (not_not.mpr ?_)
    refine BitVec.eq_of_getLsbD_eq fun j hj => ?_
    rw [BitVec.getLsbD_and, getLsbD_one_shift hs]
    by_cases hj' : j = s
    · rw [hj', Bool.eq_false_iff.mpr hbit]
      simp
    · simp [hj']

/-- The bits of a byte that is put together. -/
theorem getLsbD_foldl (f : ℕ → Bool) (l : List ℕ) (hl : ∀ k ∈ l, k < 8) (byte : BitVec 8) (j : ℕ) :
    (l.foldl (fun byte bit =>
      if f bit then byte ||| (1#8 <<< shift bED2kStyle bit) else byte) byte).getLsbD j =
      (byte.getLsbD j || l.any fun k => f k && (j = shift bED2kStyle k)) := by
  induction l generalizing byte with
  | nil => simp
  | cons k rest ih =>
    rw [List.foldl_cons, ih fun k hk => hl k (List.mem_cons_of_mem _ hk), List.any_cons]
    split_ifs with hf
    · rw [BitVec.getLsbD_or, getLsbD_one_shift (shift_lt _ (hl k List.mem_cons_self)), hf, Bool.true_and, Bool.or_assoc]
    · rw [Bool.eq_false_iff.mpr hf, Bool.false_and, Bool.false_or]

/-- A bit of a byte that is put together. -/
theorem getLsbD_packByte (bits : List Bool) (index : ℕ) {bit : ℕ} (hbit : bit < 8) :
    (packByte bED2kStyle bits index).getLsbD (shift bED2kStyle bit) = bits.getD (index + bit) false := by
  rw [packByte, getLsbD_foldl bED2kStyle (fun bit => bits.getD (index + bit) false) _ fun k hk => List.mem_range.mp hk]
  cases hval : bits.getD (index + bit) false with
  | true =>
    rw [Bool.or_eq_true, List.any_eq_true]
    exact Or.inr ⟨bit, List.mem_range.mpr hbit, by rw [hval, decide_eq_true rfl, Bool.and_self]⟩
  | false =>
    rw [Bool.or_eq_false_iff, List.any_eq_false]
    refine ⟨by simp, fun k hk hyes => ?_⟩
    simp only [Bool.and_eq_true, decide_eq_true_eq] at hyes
    rw [shift_inj bED2kStyle hbit (List.mem_range.mp hk) hyes.2, hyes.1] at hval
    exact absurd hval.symm Bool.false_ne_true

/-- What was written is read. -/
theorem bitOf_bits2Bytes (bits : List Bool) (bED2kStyle : Bool) {i : ℕ} (hi : i < bits.length) :
    bitOf (bits2Bytes bits bED2kStyle) bED2kStyle i = bits.getD i false := by
  have hmod := Nat.mod_lt i (by omega : 0 < 8)
  have hbyte : i / 8 < divUp bits.length 8 := by
    unfold divUp
    omega
  have hdm : i / 8 * 8 + i % 8 = i := by omega
  unfold bitOf
  rw [List.getD_eq_getElem _ _ (by rw [bits2Bytes, List.length_map, List.length_range]; exact hbyte),
    and_shift_ne_zero _ (shift_lt _ hmod)]
  simp only [bits2Bytes, List.getElem_map, List.getElem_range]
  rw [getLsbD_packByte bED2kStyle bits _ hmod, hdm]

theorem bytes2Bits_bits2Bytes (bits : List Bool) (bED2kStyle : Bool) :
    bytes2Bits (bits2Bytes bits bED2kStyle) bits.length bED2kStyle = bits := by
  refine List.ext_getElem (length_bytes2Bits _ _ _) fun i _ hi => ?_
  have hread := bitOf_bits2Bytes bits bED2kStyle hi
  rw [List.getD_eq_getElem _ _ hi] at hread
  simp only [bytes2Bits, List.getElem_map, List.getElem_range]
  exact hread

end NeoLoader.BitArrays
