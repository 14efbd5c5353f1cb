import Mathlib.Order.Monotone.Basic
import NeoLoader.HashTreeRanges
import NeoLoader.ShareMapBits

/-!
# Bit arrays from part maps

`ToBitArray` walks the ranges of a map and sets the bits of the parts, or of the blocks of the
parts, that end in each range. What was before the last range of a part has no influence on its
bit, and a last part that is shorter gets no bit at all.
-/

namespace NeoLoader.PartMapBits

open StepFunction RangeMap PartStates ShareMapBits HashTreeRanges

section Walk

variable {V : Type*} (ops : StateOps V)

/-- A state passes the test. -/
def carries (uTest uState : V) : Bool := ops.stateSet (ops.mergeState uState uTest EMerge.eInter)

/-- `while(Index < Next) Array.setBit(Index++, bit)`, for a number of bits. -/
def setRun (bit : Bool) : ℕ → ℕ → List Bool → List Bool
  | 0, _, Array => Array
  | n + 1, Index, Array => setRun bit n (Index + 1) (Array.set Index bit)

/-- The variables of the loop of `ToBitArray`. -/
structure BitWalk (V : Type*) where
  uBegin : ℕ
  uEnd : ℕ
  uState : V
  uLast : V
  Index : ℕ
  Array : List Bool

/-- The body of the loop, for the range that was found. -/
def bitStep (uPartSize uBlockCount uBlockSize : ℕ) (uTest : V) (next : NextRange V) (walk : BitWalk V) :
    BitWalk V :=
  let Prev := toInt (getBitMapIndex next.uBegin uPartSize uBlockCount uBlockSize)
  let walk :=
    if Prev > walk.Index then
      { walk with
        Index := walk.Index + 1
        Array := walk.Array.set walk.Index (carries ops uTest walk.uLast && carries ops uTest next.uState) }
    else walk
  let Next := toInt (getBitMapIndex next.uEnd uPartSize uBlockCount uBlockSize)
  let count := (Next - walk.Index).toNat
  { uBegin := next.uBegin
    uEnd := next.uEnd
    uState := next.uState
    uLast := next.uState
    Index := walk.Index + count
    Array := setRun (carries ops uTest next.uState) count walk.Index walk.Array }

/-- The loop of `ToBitArray`. -/
def bitWalk (map : CRangeMap V) (uPartSize uBlockCount uBlockSize : ℕ) (uTest : V) : ℕ → BitWalk V → Option (List Bool)
  | 0, _ => none
  | fuel + 1, walk =>
    let next := map.getNextRange ops walk.uBegin walk.uEnd walk.uState ops.default none
    if next.found then
      bitWalk map uPartSize uBlockCount uBlockSize uTest fuel
        (bitStep ops uPartSize uBlockCount uBlockSize uTest next walk)
    else some walk.Array

/-- `CPartMap::ToBitArray`. -/
def toBitArray (map : CRangeMap V) (uPartSize uBlockSize : ℕ) (uTest : V) : Option (List Bool) :=
  let Size := map.getSize
  let uBlockCount := blockCountOf uPartSize uBlockSize
  let bits :=
    if uBlockSize ≠ 0 then
      Size / uPartSize * uBlockCount + ShareMapBits.divUp (Size % uPartSize) uBlockSize
    else ShareMapBits.divUp Size uPartSize
  bitWalk ops map uPartSize uBlockCount uBlockSize uTest (Size + 1)
    ⟨0, 0, ops.default, ops.default, 0, List.replicate (toInt bits).toNat false⟩

end Walk

section Runs

@[simp] theorem length_setRun (bit : Bool) (n Index : ℕ) (Array : List Bool) :
    (setRun bit n Index Array).length = Array.length := by
  induction n generalizing Index Array with
  | zero => rfl
  | succ n ih => rw [setRun, ih, List.length_set]

/-- The bits after some of them were set. -/
theorem getD_setRun (bit : Bool) (n Index : ℕ) (Array : List Bool) (hlen : Index + n ≤ Array.length) (i : ℕ) :
    (setRun bit n Index Array).getD i false = if Index ≤ i ∧ i < Index + n then bit else Array.getD i false := by
  induction n generalizing Index Array with
  | zero => rw [setRun, if_neg (by omega)]
  | succ n ih =>
    rw [setRun, ih _ _ (by rw [List.length_set]; omega)]
    by_cases hi : Index = i
    · subst hi
      rw [if_neg (by omega), if_pos (by omega), List.getD_eq_getElem?_getD, List.getElem?_set_self (by omega)]
      rfl
    · have hother : (Array.set Index bit).getD i false = Array.getD i false := by
        rw [List.getD_eq_getElem?_getD, List.getElem?_set_ne hi, List.getD_eq_getElem?_getD]
      rw [hother]
      by_cases hin : Index + 1 ≤ i ∧ i < Index + 1 + n
      · rw [if_pos hin, if_pos (by omega)]
      · rw [if_neg hin, if_neg (by omega)]

end Runs

section Layout

variable (L : BitLayout)

theorem index_mono {x y : ℕ} (h : x ≤ y) : L.index x ≤ L.index y := by
  have hx := (L.offset_index x).1
  have hy := (L.offset_index y).2
  have hlt : L.index x < L.index y + 1 := L.offset_strictMono.lt_iff_lt.mp (by omega)
  omega

theorem lt_index_iff {i x : ℕ} : i < L.index x ↔ L.offset (i + 1) ≤ x := by
  obtain ⟨h1, h2⟩ := L.offset_index x
  constructor
  · intro hi
    exact (L.offset_strictMono.monotone hi).trans h1
  · intro hle
    have hlt : i + 1 < L.index x + 1 := L.offset_strictMono.lt_iff_lt.mp (hle.trans_lt h2)
    omega

theorem index_size_le : L.index L.size ≤ L.bitCount := by
  have hreach := L.bitCount_spec.2
  have hstart := (L.offset_index L.size).1
  exact L.offset_strictMono.le_iff_le.mp (hstart.trans hreach)

end Layout

section Spec

variable {V : Type*} {ops : StateOps V} {map : CRangeMap V} (L : BitLayout)

/-- The loop has come to an offset. The bits that end there or before have the test result of their
last byte, the other ones are not set. -/
structure WalkedTo (ops : StateOps V) (map : CRangeMap V) (uTest : V) (cur : ℕ) (walk : BitWalk V) :
    Prop where
  /-- The range before is not turned around. -/
  uBegin_le : walk.uBegin ≤ walk.uEnd
  /-- It ends at the offset. -/
  uEnd_eq : walk.uEnd = cur
  /-- The next bit is the one of the offset. -/
  index_eq : walk.Index = L.index cur
  /-- The array has its length. -/
  length_eq : walk.Array.length = L.bitCount
  /-- The bits. -/
  bits : ∀ i, walk.Array.getD i false =
    (decide (L.offset (i + 1) ≤ cur) && carries ops uTest (stateAt ops map (L.offset (i + 1) - 1)))

/-- No range is found without its bits being set. -/
theorem walkedTo_bitStep (h : Canonical ops L.size map) (hint : L.bitCount < 2 ^ 31) {uTest : V} {cur : ℕ}
    {walk : BitWalk V} (hw : WalkedTo L ops map uTest cur walk) {next : NextRange V}
    (hf : FoundAt ops L.size map ops.default cur next) :
    WalkedTo L ops map uTest next.uEnd (bitStep ops L.partSize L.blockCount L.blockSize uTest next walk) := by
  have hcur := hf.lt_uEnd
  have hbegin := hf.uBegin_le
  have hend := hf.uEnd_le
  have hsize := index_size_le L
  have hlast := index_mono L hend
  have hprev := index_mono L hbegin
  have hnext := index_mono L hcur.le
  have hmask : ∀ v, CRangeMap.masked ops ops.default v = v := fun v => by
    rw [CRangeMap.masked, ops.stateSet_default, if_neg Bool.false_ne_true]
  have hsame : ∀ x, next.uBegin ≤ x → x < next.uEnd → stateAt ops map x = next.uState := by
    intro x h1 h2
    have hseen := hf.same x h1 h2
    rw [seen, h.valueAt_eq_stateAt (by omega), Option.map_some, hmask, Option.some.injEq] at hseen
    exact hseen
  -- the range starts in the part or block that the loop has come to, or before
  have hskip : ¬toInt (L.index next.uBegin) > walk.Index := by
    rw [toInt_eq (by omega), hw.index_eq]
    omega
  have hcount : (toInt (L.index next.uEnd) - walk.Index).toNat = L.index next.uEnd - L.index cur := by
    rw [toInt_eq (by omega), hw.index_eq]
    omega
  have hstep : bitStep ops L.partSize L.blockCount L.blockSize uTest next walk =
      { uBegin := next.uBegin, uEnd := next.uEnd, uState := next.uState, uLast := next.uState
        Index := L.index next.uEnd
        Array := setRun (carries ops uTest next.uState) (L.index next.uEnd - L.index cur) (L.index cur)
          walk.Array } := by
    have hindex : ∀ x, getBitMapIndex x L.partSize L.blockCount L.blockSize = L.index x := fun _ => rfl
    unfold bitStep
    dsimp only
    rw [hindex, hindex, if_neg hskip, hcount, hw.index_eq, Nat.add_sub_cancel' hnext]
  rw [hstep]
  refine ⟨by dsimp only; omega, rfl, rfl, ?_, fun i => ?_⟩
  · dsimp only
    rw [length_setRun, hw.length_eq]
  · dsimp only
    rw [getD_setRun _ _ _ _ (by rw [hw.length_eq]; omega), hw.bits]
    have hiff := lt_index_iff L (i := i) (x := next.uEnd)
    have hiff' := lt_index_iff L (i := i) (x := cur)
    by_cases hin : L.index cur ≤ i ∧ i < L.index cur + (L.index next.uEnd - L.index cur)
    · have hle : L.offset (i + 1) ≤ next.uEnd := hiff.mp (by omega)
      have hgt : ¬L.offset (i + 1) ≤ cur := fun hle' => by have := hiff'.mpr hle'; omega
      rw [if_pos hin, decide_eq_true hle, Bool.true_and, hsame _ (by omega) (by omega)]
    · rw [if_neg hin]
      have hboth : L.offset (i + 1) ≤ cur ↔ L.offset (i + 1) ≤ next.uEnd := by
        rw [← hiff, ← hiff']
        omega
      rw [decide_eq_decide.mpr hboth]

/-- The loop ends behind the file. -/
theorem bitWalk_spec (h : Canonical ops L.size map) (hint : L.bitCount < 2 ^ 31)
    (hsize : L.size + 1 < 2 ^ 64) {uTest : V} {fuel cur : ℕ} {walk : BitWalk V}
    (hw : WalkedTo L ops map uTest cur walk) (hle : cur ≤ L.size) (hfuel : L.size - cur < fuel) :
    ∃ array, bitWalk ops map L.partSize L.blockCount L.blockSize uTest fuel walk = some array ∧
      array.length = L.bitCount ∧ ∀ i, array.getD i false = (decide (L.offset (i + 1) ≤ L.size) &&
        carries ops uTest (stateAt ops map (L.offset (i + 1) - 1))) := by
  induction fuel generalizing cur walk with
  | zero => omega
  | succ fuel ih =>
    have hbegin := hw.uBegin_le
    have hcur : (if walk.uBegin > walk.uEnd then walk.uBegin else walk.uEnd) = cur := by
      rw [if_neg (by omega), hw.uEnd_eq]
    unfold bitWalk
    dsimp only
    rcases Nat.lt_or_ge cur L.size with hlt | hge
    · obtain ⟨hf, -⟩ := getNextRange_found h (by omega) hcur hlt walk.uState ops.default (hintOk_none map)
      have hend := hf.lt_uEnd
      rw [if_pos hf.found]
      exact ih (walkedTo_bitStep L h hint hw hf) hf.uEnd_le (by omega)
    · have hend : cur = L.size := by omega
      rw [getNextRange_not_found h (by omega) hcur (by omega) hge walk.uState ops.default
        (hintOk_none map), if_neg Bool.false_ne_true]
      exact ⟨walk.Array, rfl, hw.length_eq, hend ▸ hw.bits⟩

/-- A file whose bits fit in an array ends before the last offset. -/
theorem size_succ_lt (hint : L.bitCount < 2 ^ 31) : L.size + 1 < 2 ^ 64 := by
  have hfit := L.fits
  have hpos := L.partSize_pos
  have hreach := L.bitCount_spec.2
  have hmul : ∀ n, L.offset n ≤ n * L.partSize := by
    intro n
    induction n with
    | zero => rw [L.offset_zero]; exact Nat.zero_le _
    | succ n ih =>
      have hstep := (L.offset_succ n).2
      rw [Nat.add_mul, Nat.one_mul]
      omega
  rcases Nat.lt_or_ge 1 L.partSize with hlarge | hone
  · omega
  · have hle := hmul L.bitCount
    have heq : L.partSize = 1 := by omega
    rw [heq, Nat.mul_one] at hle
    omega

/-- `ToBitArray` gives each bit the test result of the last byte of its part or block, and none to one
that the file ends in. -/
theorem toBitArray_spec (h : Canonical ops L.size map) (hint : L.bitCount < 2 ^ 31) (uTest : V) :
    ∃ array, toBitArray ops map L.partSize L.blockSize uTest = some array ∧
      array.length = L.bitCount ∧ ∀ i, array.getD i false = (decide (L.offset (i + 1) ≤ L.size) &&
        carries ops uTest (stateAt ops map (L.offset (i + 1) - 1))) := by
  have hsize := size_succ_lt L hint
  have hindex : L.index 0 = 0 := by
    have hone := L.offset_strictMono Nat.one_pos
    rw [L.offset_zero] at hone
    exact L.index_eq_of_offset L.offset_zero.le hone
  unfold toBitArray
  dsimp only
  rw [h.getSize]
  change ∃ array, bitWalk ops map L.partSize L.blockCount L.blockSize uTest (L.size + 1)
    ⟨0, 0, ops.default, ops.default, 0, List.replicate (toInt L.bitCount).toNat false⟩ = some array ∧ _
  rw [toInt_eq hint, Int.toNat_natCast]
  refine bitWalk_spec L h hint hsize ⟨le_rfl, rfl, hindex.symm, List.length_replicate, fun i => ?_⟩
    (Nat.zero_le _) (by omega)
  have hpos : 0 < L.offset (i + 1) := L.offset_zero ▸ L.offset_strictMono (Nat.succ_pos i)
  have hnone : ¬L.offset (i + 1) ≤ 0 := by omega
  rw [decide_eq_false hnone, Bool.false_and, List.getD_eq_getElem?_getD, List.getElem?_replicate]
  split_ifs <;> rfl

end Spec

section Correct

variable (L : BitLayout) (uTest : SPartRange) (map : CRangeMap SPartRange)

/-- A byte passes the test. -/
def ByteCarries (x : ℕ) : Prop := carries partMapOps uTest (stateAt partMapOps map x) = true

/-- A bit is set if and only if all bytes of its part or block in the file pass the test. -/
def BitsCorrect (array : List Bool) : Prop :=
  array.length = L.bitCount ∧ ∀ i < L.bitCount, array.getD i false = true ↔
    ∀ x, L.offset i ≤ x → x < L.offset (i + 1) → x < L.size → ByteCarries uTest map x

/-- A part or block whose last byte passes the test passes it wholly, and one that the file ends in
does not pass it. -/
def LastBytesDecide : Prop :=
  ∀ i < L.bitCount, (L.offset (i + 1) ≤ L.size → ByteCarries uTest map (L.offset (i + 1) - 1) →
      ∀ x, L.offset i ≤ x → x < L.offset (i + 1) → ByteCarries uTest map x) ∧
    (L.size < L.offset (i + 1) → ∃ x, L.offset i ≤ x ∧ x < L.size ∧ ¬ByteCarries uTest map x)

variable {map}

/-- A layout of ten bytes in parts of four. -/
def tenBytes : BitLayout where
  size := 10
  partSize := 4
  blockSize := 0
  size_pos := by decide
  partSize_pos := by decide
  fits := by decide
  count_lt := fun h => absurd rfl h

/-- Ten bytes of which all are available except the first one of the second part. -/
def allButFifth : CRangeMap SPartRange :=
  ((CRangeMap.create partMapOps 10).setRange partMapOps 0 4
    (SPartRange.ofStates (BitVec.ofNat 32 Part.Available)) ESet.eAdd).setRange partMapOps 5 10
      (SPartRange.ofStates (BitVec.ofNat 32 Part.Available)) ESet.eAdd

end Correct

end NeoLoader.PartMapBits
