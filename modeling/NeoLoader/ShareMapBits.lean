import Mathlib.Algebra.BigOperators.Intervals
import Mathlib.Data.List.GetD
import Mathlib.Tactic.IntervalCases
import Mathlib.Tactic.Linarith
import Mathlib.Algebra.Module.Basic
import NeoLoader.PartStates
import NeoLoader.RangeMapIteration

/-!
# Share maps from bit arrays

A peer announces what it has as one bit for each part, or for each block of
a part. `FromBitArray` walks the runs of equal bits, collects the difference
to the current map, and sets or clears each run. A run ends at the offset of
the next bit, except the first one, which starts out with the end of the
first part even where bits stand for blocks.
-/

namespace NeoLoader.ShareMapBits

open StepFunction Tiling RangeMap PartStates

/-- `DivUp`: division that rounds up. -/
def divUp (a b : ℕ) : ℕ := (a + b - 1) / b

/-- `GetBitMapIndex`: the bit of an offset. -/
def getBitMapIndex (uOffset uPartSize uBlockCount uBlockSize : ℕ) : ℕ :=
  uOffset / uPartSize * uBlockCount + if uBlockSize ≠ 0 then uOffset % uPartSize / uBlockSize else 0

/-- `GetBitMapOffset`: the first offset of a bit. -/
def getBitMapOffset (bitIndex uPartSize uBlockCount uBlockSize : ℕ) : ℕ :=
  bitIndex / uBlockCount * uPartSize + bitIndex % uBlockCount * uBlockSize

/-- `SAvailDiff`: a range whose announced state changed. -/
structure SAvailDiff where
  /-- First offset of the range. -/
  uBegin : ℕ
  /-- First offset after the range. -/
  uEnd : ℕ
  /-- State after the change. -/
  uNew : BitVec 32
  /-- State before the change. -/
  uOld : BitVec 32
  deriving DecidableEq, Repr

/-- The entry contains the offset. -/
def SAvailDiff.Covers (diff : SAvailDiff) (x : ℕ) : Prop := diff.uBegin ≤ x ∧ x < diff.uEnd

instance (diff : SAvailDiff) (x : ℕ) : Decidable (diff.Covers x) :=
  inferInstanceAs (Decidable (_ ∧ _))

/-- `CAvailDiff::Update`: add every range of the window whose masked state is
not the new one. -/
def availUpdate (diffList : List SAvailDiff) (uBegin uEnd : ℕ) (uNew : BitVec 32)
    (map : CRangeMap (BitVec 16)) (uMask : BitVec 32) : List SAvailDiff :=
  (rangesOf shareMapOps map uBegin uEnd (uMask.setWidth 16)).foldl (fun diffList range =>
    let bOld := range.value.setWidth 32 &&& uMask
    if bOld ≠ uNew then diffList ++ [⟨range.first, range.last, uNew, bOld⟩] else diffList) diffList

/-- The variables of `FromBitArray`. -/
structure BitRun where
  /-- Bytes of the closed runs of set bits. -/
  uAvailSize : ℕ
  /-- First offset of the open run. -/
  uBegin : ℕ
  /-- End of the open run so far. -/
  uEnd : ℕ
  /-- Bit of the open run. -/
  bCur : Bool
  /-- Differences collected. -/
  availDiff : List SAvailDiff
  /-- The map. -/
  map : CRangeMap (BitVec 16)
  deriving DecidableEq, Repr

/-- Close a run: count it, collect the difference, and set or clear the flags
up to the given offset. -/
def closeRun (uState : BitVec 16) (run : BitRun) (uSetEnd : ℕ) : BitRun :=
  { run with
    uAvailSize := run.uAvailSize + if run.bCur then run.uEnd - run.uBegin else 0
    availDiff := availUpdate run.availDiff run.uBegin run.uEnd
      (if run.bCur then uState.setWidth 32 else 0) run.map (uState.setWidth 32)
    map := run.map.setRange shareMapOps run.uBegin uSetEnd uState (if run.bCur then ESet.eAdd else ESet.eClr) }

/-- The loop of `FromBitArray` over the bits from an index on. -/
def bitLoop (uPartSize uBlockCount uBlockSize : ℕ) (uState : BitVec 16) : List Bool → ℕ → BitRun → BitRun
  | [], _, run => run
  | bVal :: bits, i, run =>
    let run := if run.bCur ≠ bVal then
      { closeRun uState run run.uEnd with
        bCur := bVal
        uBegin := getBitMapOffset i uPartSize uBlockCount uBlockSize } else run
    bitLoop uPartSize uBlockCount uBlockSize uState bits (i + 1)
      { run with uEnd := getBitMapOffset (i + 1) uPartSize uBlockCount uBlockSize }

/-- The block count of a part; the source keeps it in 16 bits. -/
def blockCountOf (uPartSize uBlockSize : ℕ) : ℕ :=
  (if uBlockSize ≠ 0 then divUp uPartSize uBlockSize else 1) % 2 ^ 16

/-- `FromBitArray`: the first run starts with the end of the first part, and
the last one is clipped to the size. -/
def fromBitArray (map : CRangeMap (BitVec 16)) (bits : List Bool) (uPartSize uBlockSize : ℕ)
    (uState : BitVec 16) (availDiff : List SAvailDiff) : BitRun :=
  let size := map.getSize
  let run := bitLoop uPartSize (blockCountOf uPartSize uBlockSize) uBlockSize uState bits.tail 1
    ⟨0, 0, uPartSize, bits.headD false, availDiff, map⟩
  closeRun uState { run with uEnd := min run.uEnd size } size

/-- The sizes a bit array is made for. The end of the last part is an offset,
and the block count of a part fits in its 16 bits. -/
structure BitLayout where
  /-- Size of the file. -/
  size : ℕ
  /-- Size of a part. -/
  partSize : ℕ
  /-- Size of a block, or zero if the bits stand for parts. -/
  blockSize : ℕ
  /-- The file is not empty. -/
  size_pos : 0 < size
  /-- The parts are not empty. -/
  partSize_pos : 0 < partSize
  /-- The end of the last part is an offset. -/
  fits : size + partSize ≤ 2 ^ 64
  /-- The block count of a part fits. -/
  count_lt : blockSize ≠ 0 → divUp partSize blockSize < 2 ^ 16

namespace BitLayout

variable (L : BitLayout)

/-- Bits of a part. -/
def blockCount : ℕ := blockCountOf L.partSize L.blockSize

/-- Bits of the file, as `ToBitArray` sizes its array. -/
def bitCount : ℕ :=
  if L.blockSize ≠ 0 then
    L.size / L.partSize * L.blockCount + divUp (L.size % L.partSize) L.blockSize
  else divUp L.size L.partSize

/-- The bit of an offset. -/
def index (x : ℕ) : ℕ := getBitMapIndex x L.partSize L.blockCount L.blockSize

/-- The first offset of a bit. -/
def offset (i : ℕ) : ℕ := getBitMapOffset i L.partSize L.blockCount L.blockSize

/-- What one bit stands for: a block, or a whole part. -/
def unit : ℕ := if L.blockSize ≠ 0 then L.blockSize else L.partSize

end BitLayout

theorem le_divUp_mul (a : ℕ) {b : ℕ} (hb : 0 < b) : a ≤ divUp a b * b := by
  have hdm := Nat.div_add_mod (a + b - 1) b
  have hlt := Nat.mod_lt (a + b - 1) hb
  rw [divUp, Nat.mul_comm]
  omega

theorem divUp_mul_lt (a : ℕ) {b : ℕ} (hb : 0 < b) : divUp a b * b < a + b := by
  have hle := Nat.div_mul_le_self (a + b - 1) b
  rw [divUp]
  omega

namespace BitLayout

variable (L : BitLayout)

theorem unit_pos : 0 < L.unit := by
  have hp := L.partSize_pos
  rw [unit]
  split <;> omega

theorem blockCount_of_part (hb : ¬L.blockSize ≠ 0) : L.blockCount = 1 := by
  rw [blockCount, blockCountOf, if_neg hb]
  rfl

theorem blockCount_eq : L.blockCount = divUp L.partSize L.unit := by
  by_cases hb : L.blockSize ≠ 0
  · rw [blockCount, blockCountOf, unit, if_pos hb, if_pos hb, Nat.mod_eq_of_lt (L.count_lt hb)]
  · have hp := L.partSize_pos
    have hone : divUp L.partSize L.partSize = 1 := by
      have hlt := divUp_mul_lt L.partSize hp
      have hle := le_divUp_mul L.partSize hp
      generalize divUp L.partSize L.partSize = d at *
      nlinarith
    rw [L.blockCount_of_part hb, unit, if_neg hb, hone]

theorem blockCount_spec : 0 < L.blockCount ∧ L.partSize ≤ L.blockCount * L.unit ∧
    L.blockCount * L.unit < L.partSize + L.unit := by
  have hp := L.partSize_pos
  have hle := le_divUp_mul L.partSize L.unit_pos
  rw [L.blockCount_eq]
  refine ⟨?_, hle, divUp_mul_lt _ L.unit_pos⟩
  by_contra hzero
  have h0 : divUp L.partSize L.unit = 0 := by omega
  rw [h0, Nat.zero_mul] at hle
  omega

/-- The offset of a unit of a part. -/
theorem offset_eq {q s : ℕ} (hs : s < L.blockCount) :
    L.offset (q * L.blockCount + s) = q * L.partSize + s * L.unit := by
  have hc := L.blockCount_spec.1
  have hdiv : (q * L.blockCount + s) / L.blockCount = q := by
    rw [Nat.mul_comm, Nat.mul_add_div hc, Nat.div_eq_of_lt hs, Nat.add_zero]
  have hmod : (q * L.blockCount + s) % L.blockCount = s := by
    rw [Nat.mul_comm, Nat.mul_add_mod, Nat.mod_eq_of_lt hs]
  rw [offset, getBitMapOffset, hdiv, hmod, unit]
  split
  · rfl
  · rename_i hb
    have hone := L.blockCount_of_part hb
    have hzero : s = 0 := by omega
    rw [hzero, Nat.zero_mul, Nat.zero_mul]

theorem offset_zero : L.offset 0 = 0 := by
  have h := L.offset_eq (q := 0) (s := 0) L.blockCount_spec.1
  simpa only [Nat.zero_mul, Nat.add_zero] using h

/-- From one offset to the next lies at least a byte and at most a part. -/
theorem offset_succ (i : ℕ) : L.offset i < L.offset (i + 1) ∧ L.offset (i + 1) ≤ L.offset i + L.partSize := by
  obtain ⟨hc, hle, hlt⟩ := L.blockCount_spec
  have hu := L.unit_pos
  have hs := Nat.mod_lt i hc
  have hi : i = i / L.blockCount * L.blockCount + i % L.blockCount := by
    rw [Nat.mul_comm, Nat.div_add_mod]
  generalize i / L.blockCount = q at hi
  generalize i % L.blockCount = s at hi hs
  rw [hi, L.offset_eq hs]
  by_cases hnext : s + 1 < L.blockCount
  · rw [Nat.add_assoc, L.offset_eq hnext, Nat.add_mul s 1, Nat.one_mul]
    have hmul : (s + 1) * L.unit ≤ (L.blockCount - 1) * L.unit :=
      Nat.mul_le_mul_right _ (by omega)
    rw [Nat.sub_mul, Nat.add_mul, Nat.one_mul] at hmul
    constructor <;> omega
  · have hlast : s + 1 = L.blockCount := by omega
    have he : q * L.blockCount + s + 1 = (q + 1) * L.blockCount + 0 := by
      rw [Nat.add_assoc, hlast, Nat.add_mul, Nat.one_mul, Nat.add_zero]
    rw [he, L.offset_eq hc, Nat.zero_mul, Nat.add_zero, Nat.add_mul, Nat.one_mul]
    rw [← hlast, Nat.add_mul, Nat.one_mul] at hle hlt
    constructor <;> omega

theorem offset_strictMono : StrictMono L.offset :=
  strictMono_nat_of_lt_succ fun i => (L.offset_succ i).1

/-- An offset lies between the offset of its bit and the next one. -/
theorem offset_index (x : ℕ) : L.offset (L.index x) ≤ x ∧ x < L.offset (L.index x + 1) := by
  obtain ⟨hc, hle, hlt⟩ := L.blockCount_spec
  have hu := L.unit_pos
  have hr := Nat.mod_lt x L.partSize_pos
  have hx : L.partSize * (x / L.partSize) + x % L.partSize = x := Nat.div_add_mod x L.partSize
  have hindex : L.index x = x / L.partSize * L.blockCount + x % L.partSize / L.unit := by
    rw [index, getBitMapIndex, unit]
    split
    · rfl
    · rw [Nat.div_eq_of_lt hr]
  rw [Nat.mul_comm] at hx
  generalize x / L.partSize = q at *
  generalize x % L.partSize = r at *
  have hs : r / L.unit < L.blockCount := by
    rw [Nat.div_lt_iff_lt_mul hu]
    omega
  have hdm := Nat.div_add_mod r L.unit
  have hm := Nat.mod_lt r hu
  rw [Nat.mul_comm] at hdm
  rw [hindex, L.offset_eq hs]
  generalize r / L.unit = s at *
  refine ⟨by omega, ?_⟩
  by_cases hnext : s + 1 < L.blockCount
  · rw [Nat.add_assoc, L.offset_eq hnext, Nat.add_mul s 1, Nat.one_mul]
    omega
  · have hlast : s + 1 = L.blockCount := by omega
    have he : q * L.blockCount + s + 1 = (q + 1) * L.blockCount + 0 := by
      rw [Nat.add_assoc, hlast, Nat.add_mul, Nat.one_mul, Nat.add_zero]
    rw [he, L.offset_eq hc, Nat.zero_mul, Nat.add_zero, Nat.add_mul, Nat.one_mul]
    omega

theorem index_eq_of_offset {i x : ℕ} (h : L.offset i ≤ x) (h' : x < L.offset (i + 1)) : L.index x = i := by
  obtain ⟨h1, h2⟩ := L.offset_index x
  have hle : L.index x < i + 1 := L.offset_strictMono.lt_iff_lt.mp (by omega)
  have hge : i < L.index x + 1 := L.offset_strictMono.lt_iff_lt.mp (by omega)
  omega

theorem bitCount_eq : L.bitCount = L.size / L.partSize * L.blockCount + divUp (L.size % L.partSize) L.unit := by
  rw [bitCount, unit]
  by_cases hb : L.blockSize ≠ 0
  · rw [if_pos hb, if_pos hb]
  · have hp := L.partSize_pos
    have hdm := Nat.div_add_mod L.size L.partSize
    rw [if_neg hb, if_neg hb, L.blockCount_of_part hb, Nat.mul_one, divUp, divUp]
    conv_lhs => rw [← hdm]
    rw [Nat.add_assoc, Nat.add_sub_assoc (by omega), Nat.mul_add_div hp]

/-- The bits of the file start in it and reach its end. -/
theorem bitCount_spec : (∀ i < L.bitCount, L.offset i < L.size) ∧ L.size ≤ L.offset L.bitCount := by
  obtain ⟨hc, hle, hlt⟩ := L.blockCount_spec
  have hu := L.unit_pos
  have hr := Nat.mod_lt L.size L.partSize_pos
  have hdm : L.partSize * (L.size / L.partSize) + L.size % L.partSize = L.size :=
    Nat.div_add_mod L.size L.partSize
  have hreach := le_divUp_mul (L.size % L.partSize) hu
  have hstart := divUp_mul_lt (L.size % L.partSize) hu
  rw [Nat.mul_comm] at hdm
  rw [L.bitCount_eq]
  generalize L.size / L.partSize = q at *
  generalize L.size % L.partSize = r at *
  generalize divUp r L.unit = m at *
  have hmc : m ≤ L.blockCount := by
    by_contra hgt
    have hmul : (L.blockCount + 1) * L.unit ≤ m * L.unit := Nat.mul_le_mul_right _ (by omega)
    rw [Nat.add_mul, Nat.one_mul] at hmul
    omega
  have hpart : L.offset (q * L.blockCount) = q * L.partSize := by
    have he := L.offset_eq (q := q) (s := 0) hc
    rwa [Nat.zero_mul, Nat.add_zero, Nat.add_zero] at he
  constructor
  · intro i hi
    by_cases hlow : i < q * L.blockCount
    · have hlt' := L.offset_strictMono hlow
      omega
    · have he : i = q * L.blockCount + (i - q * L.blockCount) := by omega
      have hmul : (i - q * L.blockCount + 1) * L.unit ≤ m * L.unit :=
        Nat.mul_le_mul_right _ (by omega)
      rw [Nat.add_mul, Nat.one_mul] at hmul
      rw [he, L.offset_eq (by omega)]
      omega
  · by_cases hfull : m < L.blockCount
    · rw [L.offset_eq hfull]
      omega
    · have he : q * L.blockCount + m = (q + 1) * L.blockCount + 0 := by
        rw [Nat.add_mul]
        omega
      rw [he, L.offset_eq hc, Nat.zero_mul, Nat.add_zero, Nat.add_mul]
      omega

theorem bitCount_pos : 0 < L.bitCount := by
  have hreach := L.bitCount_spec.2
  have hp := L.size_pos
  by_contra hzero
  have h0 : L.bitCount = 0 := by omega
  rw [h0, L.offset_zero] at hreach
  omega

/-- The ends of the bits are offsets. -/
theorem offset_lt {i : ℕ} (hi : i ≤ L.bitCount) : L.offset i < 2 ^ 64 := by
  have hfit := L.fits
  have hp := L.partSize_pos
  cases i with
  | zero =>
    rw [L.offset_zero]
    omega
  | succ i =>
    have hstart := L.bitCount_spec.1 i (by omega)
    have hstep := (L.offset_succ i).2
    omega

end BitLayout

section Close

/-- Entries that contain the offset. -/
def entriesAt (diffList : List SAvailDiff) (x : ℕ) : ℕ :=
  diffList.countP fun diff => diff.Covers x

/-- New and old states of the entries that contain the offset, in order. -/
def changesAt (diffList : List SAvailDiff) (x : ℕ) : List (BitVec 32 × BitVec 32) :=
  (diffList.filter fun diff => diff.Covers x).map fun diff => (diff.uNew, diff.uOld)

theorem entriesAt_eq (diffList : List SAvailDiff) (x : ℕ) : entriesAt diffList x = (changesAt diffList x).length := by
  rw [entriesAt, changesAt, List.length_map, List.countP_eq_length_filter]

theorem changesAt_singleton (diff : SAvailDiff) (x : ℕ) :
    changesAt [diff] x = if diff.Covers x then [(diff.uNew, diff.uOld)] else [] := by
  unfold changesAt
  rw [List.filter_singleton]
  by_cases hx : diff.Covers x
  · rw [decide_eq_true hx, if_pos hx]
    rfl
  · rw [decide_eq_false hx, if_neg hx]
    rfl

/-- The flags of a state that a bit stands for. -/
def bitFlags (uState : BitVec 16) (bit : Bool) : BitVec 16 := if bit then uState else 0

/-- The state after a bit was applied to it. -/
def applyBit (uState v : BitVec 16) (bit : Bool) : BitVec 16 :=
  valueMakeState v uState (if bit then ESet.eAdd else ESet.eClr)

/-- The flags of the given state after a bit was applied. -/
theorem applyBit_and (uState v : BitVec 16) (bit : Bool) : applyBit uState v bit &&& uState = bitFlags uState bit := by
  cases bit with
  | true =>
    simp only [applyBit, bitFlags, if_true, valueMakeState]
    ext i
    simp only [BitVec.getElem_and, BitVec.getElem_or]
    cases v[i] <;> cases uState[i] <;> rfl
  | false =>
    simp only [applyBit, bitFlags, Bool.false_eq_true, if_false, valueMakeState]
    rw [BitVec.and_assoc, BitVec.and_comm (~~~uState), BitVec.and_not_self]
    exact BitVec.and_zero

/-- The wide comparison of `Update` is the one of the flags. -/
theorem wide_ne_iff (uState v : BitVec 16) (bit : Bool) :
    (v.setWidth 32 &&& uState.setWidth 32 ≠ if bit then uState.setWidth 32 else 0) ↔
      v &&& uState ≠ bitFlags uState bit := by
  have hwide : (if bit then uState.setWidth 32 else 0) = (bitFlags uState bit).setWidth 32 := by
    cases bit <;> rfl
  rw [hwide, ← BitVec.setWidth_and, not_iff_not]
  constructor
  · intro he
    have hnarrow := congrArg (BitVec.setWidth 16) he
    simpa only [BitVec.setWidth_setWidth_of_le, BitVec.setWidth_eq, Nat.reduceLeDiff] using hnarrow
  · intro he
    rw [he]

/-- `Update` appends the ranges that differ. -/
theorem availUpdate_eq (diffList : List SAvailDiff) (uBegin uEnd : ℕ) (uNew : BitVec 32)
    (map : CRangeMap (BitVec 16)) (uMask : BitVec 32) : availUpdate diffList uBegin uEnd uNew map uMask = diffList ++
      ((rangesOf shareMapOps map uBegin uEnd (uMask.setWidth 16)).filter fun range =>
        range.value.setWidth 32 &&& uMask ≠ uNew).map fun range =>
          ⟨range.first, range.last, uNew, range.value.setWidth 32 &&& uMask⟩ := by
  rw [availUpdate]
  generalize rangesOf shareMapOps map uBegin uEnd (uMask.setWidth 16) = ranges
  induction ranges generalizing diffList with
  | nil => simp only [List.foldl_nil, List.filter_nil, List.map_nil, List.append_nil]
  | cons range ranges ih =>
    rw [List.foldl_cons, ih, List.filter_cons]
    by_cases hne : range.value.setWidth 32 &&& uMask ≠ uNew
    · simp only [hne, ne_eq, not_false_eq_true, if_true, decide_true, List.map_cons,
        List.append_assoc, List.singleton_append]
    · simp only [hne, ne_eq, if_false, decide_false, Bool.false_eq_true]

/-- The entry that reports the change of a byte, if there is one. -/
def changeOf (uState v : BitVec 16) (bit : Bool) : List (BitVec 32 × BitVec 32) :=
  if v &&& uState ≠ bitFlags uState bit then
    [((bitFlags uState bit).setWidth 32, (v &&& uState).setWidth 32)] else []

theorem length_changeOf (uState v : BitVec 16) (bit : Bool) :
    (changeOf uState v bit).length = if v &&& uState ≠ bitFlags uState bit then 1 else 0 := by
  unfold changeOf
  split <;> rfl

variable {uState : BitVec 16} {size : ℕ}

/-- `Update` adds one entry at exactly the bytes of its window whose flags are
not the new ones, with their new and old flags. -/
theorem changesAt_availUpdate {map : CRangeMap (BitVec 16)}
    (h : Canonical shareMapOps size map) (hsize : size < 2 ^ 64) {uBegin uEnd : ℕ}
    (hlt : uBegin < uEnd) (hto : uEnd < 2 ^ 64) (hstate : uState ≠ 0)
    (bit : Bool) (diffList : List SAvailDiff) (x : ℕ) :
    changesAt (availUpdate diffList uBegin uEnd (if bit then uState.setWidth 32 else 0) map
      (uState.setWidth 32)) x = changesAt diffList x ++ if uBegin ≤ x ∧ x < min uEnd size then
          changeOf uState (stateAt shareMapOps map x) bit else [] := by
  have hmask : (uState.setWidth 32).setWidth 16 = uState := by
    simp only [BitVec.setWidth_setWidth_of_le, BitVec.setWidth_eq, Nat.reduceLeDiff]
  have hwide : (if bit then uState.setWidth 32 else 0) = (bitFlags uState bit).setWidth 32 := by
    cases bit <;> rfl
  have hspec := rangesOf_collected h hsize hlt hto uState
  have hset : shareMapOps.stateSet uState = true := bne_iff_ne.mpr hstate
  rw [availUpdate_eq, changesAt, List.filter_append, List.map_append, ← changesAt, List.filter_map,
    List.filter_filter, List.map_map, hmask]
  generalize rangesOf shareMapOps map uBegin uEnd uState = ranges at hspec
  have hvalue : ∀ range ∈ ranges, range.Covers x → range.value = stateAt shareMapOps map x &&& uState := by
    intro range hm hx
    have hseen := hspec.same range hm x hx
    rw [seen, Option.map_eq_some_iff] at hseen
    obtain ⟨v, hv, hval⟩ := hseen
    rw [CRangeMap.masked, if_pos hset] at hval
    rw [← hval, stateAt, hv, Option.getD_some]
    rfl
  -- the values of the ranges over the byte decide the entries over it
  have hvalues : (ranges.filter fun range => range.Covers x && decide (range.value.setWidth 32 &&&
      uState.setWidth 32 ≠ if bit then uState.setWidth 32 else 0)).map Span.value =
      if (uBegin ≤ x ∧ x < min uEnd size) ∧ stateAt shareMapOps map x &&& uState ≠ bitFlags uState bit then
          [stateAt shareMapOps map x &&& uState] else [] := by
    rcases Nat.lt_or_ge uBegin size with hin | hpast
    · have htiles := (hspec.tiles hin).filter_covers hvalue fun v => decide (v.setWidth 32 &&&
        uState.setWidth 32 ≠ if bit then uState.setWidth 32 else 0)
      simp only [decide_eq_true_eq, wide_ne_iff, BitVec.and_assoc, BitVec.and_self] at htiles
      simp only [wide_ne_iff]
      exact htiles
    · rw [hspec.past hpast, List.filter_nil, List.map_nil, if_neg (by omega)]
  have hmap := congrArg (List.map fun v : BitVec 16 => ((bitFlags uState bit).setWidth 32,
    v.setWidth 32 &&& uState.setWidth 32)) hvalues
  rw [List.map_map] at hmap
  refine congrArg (changesAt diffList x ++ ·) (Eq.trans ?_ (hmap.trans ?_))
  · simp only [← hwide]
    rfl
  · unfold changeOf
    by_cases hx : uBegin ≤ x ∧ x < min uEnd size
    · simp only [hx, true_and, and_self, if_true]
      split
      · rw [List.map_singleton, ← BitVec.setWidth_and, BitVec.and_assoc, BitVec.and_self]
      · rfl
    · rw [if_neg fun h => hx h.1, if_neg hx, List.map_nil]

/-- The entries are ranges of the map. -/
def DiffsInRange (size : ℕ) (diffList : List SAvailDiff) : Prop :=
  ∀ diff ∈ diffList, diff.uBegin < diff.uEnd ∧ diff.uEnd ≤ size

/-- `Update` adds ranges of the map. -/
theorem diffsInRange_availUpdate {map : CRangeMap (BitVec 16)}
    (h : Canonical shareMapOps size map) (hsize : size < 2 ^ 64) {uBegin uEnd : ℕ}
    (hlt : uBegin < uEnd) (hto : uEnd < 2 ^ 64) (uNew uMask : BitVec 32)
    {diffList : List SAvailDiff} (hd : DiffsInRange size diffList) :
    DiffsInRange size (availUpdate diffList uBegin uEnd uNew map uMask) := by
  have hspec := rangesOf_collected h hsize hlt hto (uMask.setWidth 16)
  intro diff hm
  rw [availUpdate_eq] at hm
  rcases List.mem_append.mp hm with hold | hnew
  · exact hd diff hold
  · obtain ⟨range, hr, rfl⟩ := List.mem_map.mp hnew
    have hrange := (List.mem_filter.mp hr).1
    rcases Nat.lt_or_ge uBegin size with hin | hpast
    · obtain ⟨-, hlt', hle⟩ := (hspec.tiles hin).bounds hrange
      exact ⟨hlt', by dsimp only; omega⟩
    · rw [hspec.past hpast] at hrange
      cases hrange

/-- What closing a run does. A range that ends past the map is not set. -/
theorem closeRun_spec (run : BitRun) (h : Canonical shareMapOps size run.map)
    (hsize : size < 2 ^ 64) (hlt : run.uBegin < run.uEnd) (hto : run.uEnd < 2 ^ 64)
    (uSetEnd : ℕ) (hset : run.uBegin < uSetEnd) (harg : size < uSetEnd → uSetEnd ≠ minusOne) (hstate : uState ≠ 0) :
    Canonical shareMapOps size (closeRun uState run uSetEnd).map ∧
      (∀ x, stateAt shareMapOps (closeRun uState run uSetEnd).map x =
        if (run.uBegin ≤ x ∧ x < uSetEnd) ∧ uSetEnd ≤ size then
          applyBit uState (stateAt shareMapOps run.map x) run.bCur
        else stateAt shareMapOps run.map x) ∧
      (∀ x, changesAt (closeRun uState run uSetEnd).availDiff x = changesAt run.availDiff x ++
        if run.uBegin ≤ x ∧ x < min run.uEnd size then
          changeOf uState (stateAt shareMapOps run.map x) run.bCur else []) ∧
      (DiffsInRange size run.availDiff → DiffsInRange size (closeRun uState run uSetEnd).availDiff) := by
  refine ⟨?_, ?_, changesAt_availUpdate h hsize hlt hto hstate run.bCur run.availDiff,
    diffsInRange_availUpdate h hsize hlt hto _ _⟩
  · rcases Nat.lt_or_ge size uSetEnd with hpast | hin
    · have hsame : (closeRun uState run uSetEnd).map.partMap = run.map.partMap :=
        setRange_past h hpast (harg hpast) uState _
      have hrev : (closeRun uState run uSetEnd).map.revision = run.map.revision + 1 :=
        revision_setRange run.map _ _ _ _
      constructor
      · rw [hsame]
        exact h.increasing
      · rw [hsame]
        exact h.last
      · rw [hsame]
        exact h.positive
      · rw [hsame]
        exact h.distinct
      · exact fun _ _ => trivial
      · rw [hrev]
        exact Nat.succ_pos _
    · exact setRange_canonical h hsize hset hin _ _
  · intro x
    rcases Nat.lt_or_ge size uSetEnd with hpast | hin
    · rw [if_neg (by omega), stateAt, closeRun, setRange_past h hpast (harg hpast), ← stateAt]
    · have hs := stateAt_setRange h hsize hset hin uState (if run.bCur then ESet.eAdd else ESet.eClr) x
      rw [closeRun]
      dsimp only
      rw [hs]
      by_cases hx : run.uBegin ≤ x ∧ x < uSetEnd
      · simp only [hx, hin, and_self, if_true]
        rfl
      · simp only [hx, false_and, if_false]

/-- The second run is what the first one becomes when the bits are applied to
exactly the bytes of a window. -/
structure Progress (size : ℕ) (uState : BitVec 16) (bitAt : ℕ → Bool) (a b : ℕ)
    (run run' : BitRun) : Prop where
  /-- The map is canonical again. -/
  canonical : Canonical shareMapOps size run'.map
  /-- The bits were applied to the bytes of the window. -/
  state : ∀ x, stateAt shareMapOps run'.map x =
    if a ≤ x ∧ x < b then applyBit uState (stateAt shareMapOps run.map x) (bitAt x)
    else stateAt shareMapOps run.map x
  /-- One entry was added at the bytes of the window that changed. -/
  changes : ∀ x, changesAt run'.availDiff x = changesAt run.availDiff x ++
    if a ≤ x ∧ x < b then changeOf uState (stateAt shareMapOps run.map x) (bitAt x) else []
  /-- The entries added are ranges of the map. -/
  inRange : DiffsInRange size run.availDiff → DiffsInRange size run'.availDiff
  /-- The bytes of the window with a set bit were counted. -/
  counted : run'.uAvailSize = run.uAvailSize + ∑ x ∈ Finset.Ico a b, if bitAt x then 1 else 0

variable {bitAt : ℕ → Bool}

theorem Progress.entries {a b : ℕ} {run run' : BitRun} (h : Progress size uState bitAt a b run run') (x : ℕ) :
    entriesAt run'.availDiff x = entriesAt run.availDiff x +
      if (a ≤ x ∧ x < b) ∧ stateAt shareMapOps run.map x &&& uState ≠ bitFlags uState (bitAt x)
      then 1 else 0 := by
  rw [entriesAt_eq, entriesAt_eq, h.changes, List.length_append]
  by_cases hx : a ≤ x ∧ x < b
  · rw [if_pos hx, length_changeOf]
    simp only [hx, true_and, and_self]
  · rw [if_neg hx, if_neg fun h => hx h.1, List.length_nil]

/-- Progress over two windows in a row. -/
theorem Progress.trans {a b c : ℕ}
    {run run' run'' : BitRun} (h : Progress size uState bitAt a b run run')
    (h' : Progress size uState bitAt b c run' run'') (hab : a ≤ b) (hbc : b ≤ c) :
    Progress size uState bitAt a c run run'' where
  canonical := h'.canonical
  state := fun x => by
    rw [h'.state, h.state]
    by_cases hlow : a ≤ x ∧ x < b
    · rw [if_neg (by omega), if_pos hlow, if_pos (by omega)]
    · rw [if_neg hlow]
      by_cases hhigh : b ≤ x ∧ x < c
      · rw [if_pos hhigh, if_pos (by omega)]
      · rw [if_neg hhigh, if_neg (by omega)]
  changes := fun x => by
    rw [h'.changes]
    by_cases hlow : a ≤ x ∧ x < b
    · have hout : ¬(b ≤ x ∧ x < c) := by omega
      have hin : a ≤ x ∧ x < c := by omega
      rw [if_neg hout, List.append_nil, h.changes, if_pos hlow, if_pos hin]
    · have hsame : stateAt shareMapOps run'.map x = stateAt shareMapOps run.map x := by
        rw [h.state, if_neg hlow]
      have hiff : (a ≤ x ∧ x < c) ↔ (b ≤ x ∧ x < c) := by omega
      rw [hsame, h.changes, if_neg hlow, List.append_nil]
      simp only [hiff]
  inRange := fun hd => h'.inRange (h.inRange hd)
  counted := by
    rw [h'.counted, h.counted, Nat.add_assoc, Finset.sum_Ico_consecutive _ hab hbc]

/-- Closing a run in the map over bytes with its own bit is progress. -/
theorem progress_closeRun {run : BitRun} (h : Canonical shareMapOps size run.map)
    (hsize : size < 2 ^ 64) (hlt : run.uBegin < run.uEnd) (hend : run.uEnd ≤ size) (hstate : uState ≠ 0)
    (hbit : ∀ x, run.uBegin ≤ x → x < run.uEnd → bitAt x = run.bCur) :
    Progress size uState bitAt run.uBegin run.uEnd run (closeRun uState run run.uEnd) := by
  obtain ⟨hc, hs, he, hd⟩ := closeRun_spec run h hsize hlt (by omega) run.uEnd hlt (by omega) hstate
  refine ⟨hc, fun x => ?_, fun x => ?_, hd, ?_⟩
  · rw [hs]
    by_cases hx : run.uBegin ≤ x ∧ x < run.uEnd
    · rw [if_pos hx, if_pos ⟨hx, hend⟩, hbit x hx.1 hx.2]
    · rw [if_neg hx, if_neg fun h => hx h.1]
  · rw [he, min_eq_left hend]
    by_cases hx : run.uBegin ≤ x ∧ x < run.uEnd
    · rw [if_pos hx, if_pos hx, hbit x hx.1 hx.2]
    · rw [if_neg hx, if_neg hx]
  · have hsum : ∑ x ∈ Finset.Ico run.uBegin run.uEnd, (if bitAt x then 1 else 0) =
        ∑ _x ∈ Finset.Ico run.uBegin run.uEnd, if run.bCur then 1 else 0 := by
      refine Finset.sum_congr rfl fun x hx => ?_
      obtain ⟨h1, h2⟩ := Finset.mem_Ico.mp hx
      rw [hbit x h1 h2]
    rw [hsum, Finset.sum_const, Nat.card_Ico, closeRun]
    dsimp only
    cases run.bCur with
    | true => simp only [if_true, smul_eq_mul, Nat.mul_one]
    | false => simp only [Bool.false_eq_true, if_false, smul_zero]

end Close

section Loop

variable (L : BitLayout)

/-- The bit of a byte. -/
def bitAt (bits : List Bool) (x : ℕ) : Bool := bits.getD (L.index x) false

/-- Between the offsets of two bits lie the bytes of the bits from the first up
to the second. -/
theorem bitAt_of_offset {bits : List Bool} {bit : Bool} {i j : ℕ}
    (hopen : ∀ k, j ≤ k → k < i → bits.getD k false = bit) (x : ℕ) (hlow : L.offset j ≤ x)
    (hhigh : x < L.offset i) : bitAt L bits x = bit := by
  obtain ⟨h1, h2⟩ := L.offset_index x
  have hj : j < L.index x + 1 := L.offset_strictMono.lt_iff_lt.mp (by omega)
  have hi : L.index x < i := L.offset_strictMono.lt_iff_lt.mp (by omega)
  exact hopen _ (by omega) hi

/-- The rest of the loop and the closing of the last run apply the bits from
the start of the open run on. -/
theorem bitLoop_progress {bits : List Bool} (hlen : bits.length = L.bitCount)
    {uState : BitVec 16} (hstate : uState ≠ 0) (rest : List Bool) (i j : ℕ) (run : BitRun)
    {last : BitRun} (hrest : bits.drop i = rest) (hi : i ≤ bits.length) (hij : j < i)
    (hbegin : run.uBegin = L.offset j) (hend : run.uEnd = L.offset i)
    (hopen : ∀ k, j ≤ k → k < i → bits.getD k false = run.bCur) (h : Canonical shareMapOps L.size run.map)
    (hlast : last = bitLoop L.partSize L.blockCount L.blockSize uState rest i run) :
    Progress L.size uState (bitAt L bits) run.uBegin L.size run
      (closeRun uState { last with uEnd := min last.uEnd L.size } L.size) := by
  have hfit := L.fits
  have hpart := L.partSize_pos
  have hstart := L.bitCount_spec.1
  induction rest generalizing i j run with
  | nil =>
    have hall : i = L.bitCount := by
      have := congrArg List.length hrest
      rw [List.length_drop, List.length_nil] at this
      omega
    have hreach := L.bitCount_spec.2
    have hj := hstart j (by omega)
    have hmin : min last.uEnd L.size = L.size := by
      rw [hlast, bitLoop, hend, hall]
      omega
    rw [hmin, hlast, bitLoop]
    have hclose : ∀ clipped : BitRun, clipped = { run with uEnd := L.size } →
        Progress L.size uState (bitAt L bits) clipped.uBegin clipped.uEnd clipped
          (closeRun uState clipped clipped.uEnd) := by
      intro clipped hclip
      have hb : clipped.uBegin = run.uBegin := by rw [hclip]
      have he : clipped.uEnd = L.size := by rw [hclip]
      have hc : clipped.bCur = run.bCur := by rw [hclip]
      have hm : clipped.map = run.map := by rw [hclip]
      refine progress_closeRun (hm ▸ h) (by omega) (by omega) he.le hstate fun x h1 h2 => ?_
      rw [hc]
      exact bitAt_of_offset L hopen x (by omega) (by rw [hall]; omega)
    have hspec := hclose _ rfl
    exact ⟨hspec.canonical, hspec.state, hspec.changes, hspec.inRange, hspec.counted⟩
  | cons bVal rest ih =>
    have hilt : i < bits.length := by
      by_contra hge
      rw [List.drop_of_length_le (not_lt.mp hge)] at hrest
      cases hrest
    rw [List.drop_eq_getElem_cons hilt, List.cons.injEq] at hrest
    obtain ⟨hval, hrest⟩ := hrest
    have hget : bits.getD i false = bVal := by
      rw [List.getD_eq_getElem _ _ hilt, hval]
    rw [bitLoop] at hlast
    by_cases hsame : run.bCur = bVal
    · rw [if_neg (not_not.mpr hsame)] at hlast
      have hspec := ih (i + 1) j { run with uEnd := L.offset (i + 1) } hrest hilt
        (Nat.lt_succ_of_lt hij) hbegin rfl ?_ h hlast
      · exact ⟨hspec.canonical, hspec.state, hspec.changes, hspec.inRange, hspec.counted⟩
      intro k h1 h2
      rcases Nat.eq_or_lt_of_le (Nat.lt_succ_iff.mp h2) with rfl | hk
      · rw [hget, hsame]
      · exact hopen k h1 hk
    · rw [if_pos hsame] at hlast
      have hlow : L.offset j < L.offset i := L.offset_strictMono hij
      have hhigh := hstart i (by omega)
      have hfirst : Progress L.size uState (bitAt L bits) run.uBegin (L.offset i) run
          (closeRun uState run run.uEnd) := by
        rw [← hend]
        refine progress_closeRun h (by omega) (by omega) (by omega) hstate fun x h1 h2 => ?_
        exact bitAt_of_offset L hopen x (by omega) (by omega)
      have hsecond := ih (i + 1) i
        { closeRun uState run run.uEnd with
          uEnd := L.offset (i + 1), bCur := bVal, uBegin := L.offset i }
        hrest hilt (Nat.lt_succ_self i) rfl rfl (fun k h1 h2 => by
          have hk : k = i := by omega
          rw [hk, hget]) hfirst.canonical hlast
      exact hfirst.trans ⟨hsecond.canonical, hsecond.state, hsecond.changes, hsecond.inRange, hsecond.counted⟩
        (by omega) hhigh.le

end Loop

section FromBitArray

/-- The state announces the byte as available. -/
def isAvailable (v : BitVec 16) : Bool := v &&& BitVec.ofNat 16 Part.Available != 0

/-- The first bit is a run of its own although a part has several blocks. The
run then starts with the end of the part in place of the end of the block. -/
def LongFirstRun (L : BitLayout) (bits : List Bool) : Prop :=
  L.blockSize ≠ 0 ∧ 2 ≤ L.blockCount ∧ 2 ≤ bits.length ∧ bits.getD 0 false ≠ bits.getD 1 false

/-- What `FromBitArray` is for: the bits decide which bytes are available, the
result is their number, and one entry reports each byte that changed. -/
structure BitsApplied (L : BitLayout) (bits : List Bool) (map : CRangeMap (BitVec 16))
    (final : BitRun) : Prop where
  /-- Exactly the bytes with a set bit are available. -/
  bytes : ∀ x < L.size, isAvailable (stateAt shareMapOps final.map x) = bitAt L bits x
  /-- The result is the number of available bytes. -/
  counted : final.uAvailSize = ∑ x ∈ Finset.range L.size, if isAvailable (stateAt shareMapOps final.map x) then 1 else 0
  /-- One entry lies over each byte that changed, and none over another one. -/
  entries : ∀ x, entriesAt final.availDiff x =
    if isAvailable (stateAt shareMapOps final.map x) ≠ isAvailable (stateAt shareMapOps map x)
    then 1 else 0

/-- When `FromBitArray` does what it is for: no other flag of the state changes
without the available one, and if the first run starts too long, it is a run
of unset bits over bytes without flags, as far as those are to be set by a
later run, or the part does not end in the file. -/
structure BitsFit (L : BitLayout) (bits : List Bool) (map : CRangeMap (BitVec 16))
    (uState : BitVec 16) : Prop where
  /-- The flags change together with the available one. -/
  together : ∀ x < L.size, stateAt shareMapOps map x &&& uState ≠ bitFlags uState (bitAt L bits x) →
      isAvailable (stateAt shareMapOps map x) ≠ bitAt L bits x
  /-- A first run that is too long has unset bits. -/
  unset : LongFirstRun L bits → bits.getD 0 false = false
  /-- The bytes it covers wrongly had no flags. -/
  covered : LongFirstRun L bits → ∀ x, L.blockSize ≤ x → x < min L.partSize L.size →
    bitAt L bits x = true → stateAt shareMapOps map x &&& uState = 0
  /-- If the part ends past the file, no byte had flags. -/
  past : LongFirstRun L bits → L.size < L.partSize → ∀ x < L.size, stateAt shareMapOps map x &&& uState = 0

variable (L : BitLayout)

theorem isAvailable_eq (v : BitVec 16) : isAvailable v = v.getLsbD 0 := by
  have hflag : v &&& BitVec.ofNat 16 Part.Available =
      (BitVec.ofBool (v.getLsbD 0)).setWidth 16 := BitVec.and_one_eq_setWidth_ofBool_getLsbD
  rw [isAvailable, hflag]
  cases v.getLsbD 0 <;> rfl

variable {uState : BitVec 16}

theorem isAvailable_applyBit (ha : isAvailable uState = true)
    (v : BitVec 16) (bit : Bool) : isAvailable (applyBit uState v bit) = bit := by
  rw [isAvailable_eq] at ha ⊢
  cases bit with
  | true => simp only [applyBit, if_true, valueMakeState, BitVec.getLsbD_or, ha, Bool.or_true]
  | false =>
    simp only [applyBit, Bool.false_eq_true, if_false, valueMakeState, BitVec.getLsbD_and,
      BitVec.getLsbD_not, ha, Bool.not_true, Bool.and_false]

theorem isAvailable_of_flags (ha : isAvailable uState = true) {v : BitVec 16}
    {bit : Bool} (h : v &&& uState = bitFlags uState bit) : isAvailable v = bit := by
  have hflags := congrArg (fun w => BitVec.getLsbD w 0) h
  rw [isAvailable_eq] at ha ⊢
  simp only [BitVec.getLsbD_and, ha, Bool.and_true] at hflags
  rw [hflags]
  cases bit with
  | true => exact ha
  | false => exact BitVec.getLsbD_zero

/-- The variables before the loop. -/
def firstRun (bits : List Bool) (map : CRangeMap (BitVec 16)) : BitRun :=
  ⟨0, 0, L.partSize, bits.headD false, [], map⟩

theorem offset_one (hcount : 2 ≤ L.blockCount) : L.offset 1 = L.unit := by
  have he := L.offset_eq (q := 0) (s := 1) (by omega)
  rwa [Nat.zero_mul, Nat.zero_add, Nat.zero_mul, Nat.zero_add, Nat.one_mul] at he

variable {map : CRangeMap (BitVec 16)} {bits : List Bool}

section

variable (hlen : bits.length = L.bitCount) (h : Canonical shareMapOps L.size map) (hstate : uState ≠ 0)

include hlen h hstate

/-- Unless the first run starts too long, the bits are applied to the whole
file. -/
theorem fromBitArray_progress (hfirst : ¬LongFirstRun L bits) :
    Progress L.size uState (bitAt L bits) 0 L.size (firstRun L bits map)
      (fromBitArray map bits L.partSize L.blockSize uState []) := by
  have hpos := L.bitCount_pos
  have hzero := L.offset_zero
  rw [fromBitArray, h.getSize]
  cases bits with
  | nil =>
    rw [List.length_nil] at hlen
    omega
  | cons b0 rest =>
    cases rest with
    | nil =>
      have hreach := L.bitCount_spec.2
      rw [← hlen, List.length_singleton] at hreach
      have hstep : L.offset 1 ≤ L.offset 0 + L.partSize := (L.offset_succ 0).2
      have hspec := bitLoop_progress L hlen hstate [] 1 0
        { firstRun L [b0] map with uEnd := L.offset 1 } rfl le_rfl Nat.one_pos
        hzero.symm rfl (fun k _ hk => by
          have hk0 : k = 0 := by omega
          rw [hk0]
          rfl) h rfl
      have hmin : min (L.offset 1) L.size = min L.partSize L.size := by omega
      dsimp only [bitLoop] at hspec
      rw [hmin] at hspec
      exact ⟨hspec.canonical, hspec.state, hspec.changes, hspec.inRange, hspec.counted⟩
    | cons b1 rest =>
      by_cases hsame : b0 = b1
      · have hspec := bitLoop_progress L hlen hstate rest 2 0
          { firstRun L (b0 :: b1 :: rest) map with uEnd := L.offset 2 } rfl
          (by simp only [List.length_cons]; omega) Nat.two_pos hzero.symm rfl (fun k _ hk => by
            rcases (show k = 0 ∨ k = 1 by omega) with rfl | rfl
            · rfl
            · exact hsame.symm) h rfl
        dsimp only [List.tail_cons, List.headD_cons]
        rw [bitLoop, if_neg (not_not.mpr hsame)]
        exact ⟨hspec.canonical, hspec.state, hspec.changes, hspec.inRange, hspec.counted⟩
      · have hone : L.blockCount = 1 := by
          have hc := L.blockCount_spec.1
          by_cases hb : L.blockSize ≠ 0
          · by_contra hne
            refine hfirst ⟨hb, by omega, ?_, hsame⟩
            simp only [List.length_cons]
            omega
          · exact L.blockCount_of_part hb
        have hend : L.partSize = L.offset 1 := by
          have he := L.offset_eq (q := 1) (s := 0) L.blockCount_spec.1
          rw [hone, Nat.one_mul, Nat.add_zero, Nat.one_mul, Nat.zero_mul, Nat.add_zero] at he
          exact he.symm
        exact bitLoop_progress L hlen hstate (b1 :: rest) 1 0
          (firstRun L (b0 :: b1 :: rest) map) rfl (by simp only [List.length_cons]; omega)
          Nat.one_pos hzero.symm hend (fun k _ hk => by
            have hk0 : k = 0 := by omega
            rw [hk0]
            rfl) h rfl

/-- If the first run starts too long, it is closed with the end of the part,
and the later bits are applied from the end of the first block on. -/
theorem fromBitArray_long (hfirst : LongFirstRun L bits) :
    Progress L.size uState (bitAt L bits) (L.offset 1) L.size (closeRun uState (firstRun L bits map) L.partSize)
      (fromBitArray map bits L.partSize L.blockSize uState []) := by
  obtain ⟨-, -, htwo, hne⟩ := hfirst
  have hfit := L.fits
  have hmono : L.offset 0 < L.offset 1 := (L.offset_succ 0).1
  have hin := L.bitCount_spec.1 1 (by omega)
  have hpart := L.partSize_pos
  rw [fromBitArray, h.getSize]
  cases bits with
  | nil => cases htwo
  | cons b0 rest =>
    cases rest with
    | nil =>
      rw [List.length_singleton] at htwo
      omega
    | cons b1 rest =>
      obtain ⟨hc, -, -⟩ := closeRun_spec (firstRun L (b0 :: b1 :: rest) map) h (by omega)
        hpart (by dsimp only [firstRun]; omega) L.partSize hpart (fun hlt => by rw [minusOne]; omega) hstate
      have hspec := bitLoop_progress L hlen hstate rest 2 1
        { closeRun uState (firstRun L (b0 :: b1 :: rest) map) L.partSize with
          bCur := b1, uBegin := L.offset 1, uEnd := L.offset 2 } rfl htwo Nat.one_lt_two rfl rfl
          (fun k hk hk' => by
            have hk1 : k = 1 := by omega
            rw [hk1]
            rfl) hc rfl
      have hne' : b0 ≠ b1 := hne
      dsimp only [List.tail_cons, List.headD_cons]
      rw [bitLoop, if_pos hne']
      exact ⟨hspec.canonical, hspec.state, hspec.changes, hspec.inRange, hspec.counted⟩

end

variable {final : BitRun}

/-- Applied to the whole file, the bits do what they are for if and only if the
flags change together. -/
theorem bitsApplied_of_progress (h : Canonical shareMapOps L.size map) (ha : isAvailable uState = true)
    (hp : Progress L.size uState (bitAt L bits) 0 L.size (firstRun L bits map) final) :
    BitsApplied L bits map final ↔ ∀ x < L.size, stateAt shareMapOps map x &&& uState ≠
      bitFlags uState (bitAt L bits x) → isAvailable (stateAt shareMapOps map x) ≠ bitAt L bits x := by
  have hbytes : ∀ x < L.size, isAvailable (stateAt shareMapOps final.map x) = bitAt L bits x := by
    intro x hx
    rw [hp.state, if_pos ⟨Nat.zero_le x, hx⟩, isAvailable_applyBit ha]
  have hentries : ∀ x < L.size, entriesAt final.availDiff x =
      if stateAt shareMapOps map x &&& uState ≠ bitFlags uState (bitAt L bits x) then 1 else 0 := by
    intro x hx
    have he := hp.entries x
    have hin : 0 ≤ x ∧ x < L.size := ⟨Nat.zero_le x, hx⟩
    simp only [hin, true_and] at he
    rw [he, firstRun, entriesAt, List.countP_nil, Nat.zero_add]
  constructor
  · intro happ x hx hne
    have he := happ.entries x
    rw [hentries x hx, if_pos hne, hbytes x hx] at he
    by_contra heq
    rw [if_neg (not_not.mpr heq.symm)] at he
    cases he
  · intro htogether
    refine ⟨hbytes, ?_, fun x => ?_⟩
    · rw [hp.counted, firstRun, Nat.zero_add, ← Finset.range_eq_Ico]
      refine Finset.sum_congr rfl fun x hx => ?_
      rw [hbytes x (Finset.mem_range.mp hx)]
    · rcases Nat.lt_or_ge x L.size with hx | hx
      · rw [hentries x hx, hbytes x hx]
        by_cases hne : stateAt shareMapOps map x &&& uState = bitFlags uState (bitAt L bits x)
        · rw [if_neg (not_not.mpr hne), isAvailable_of_flags ha hne, if_neg (not_not.mpr rfl)]
        · rw [if_pos hne, if_pos (htogether x hx hne).symm]
      · have he := hp.entries x
        have hnil : entriesAt (firstRun L bits map).availDiff x = 0 := rfl
        rw [if_neg fun hin => absurd hin.1.2 (by omega), hnil, Nat.add_zero] at he
        rw [he, h.stateAt_past hx, hp.canonical.stateAt_past hx, if_neg (not_not.mpr rfl)]

/-- What is known after a first run that starts too long. -/
structure LongRunFacts (bits : List Bool) (map : CRangeMap (BitVec 16)) (uState : BitVec 16)
    (final : BitRun) : Prop where
  /-- The block ends in the file and in the part. -/
  block_lt : 0 < L.blockSize ∧ L.blockSize < L.size ∧ L.blockSize < L.partSize
  /-- The bytes of the first block have the first bit. -/
  first : ∀ x < L.blockSize, bitAt L bits x = bits.getD 0 false
  /-- The bytes of the first block are set if the part ends in the file. -/
  low : ∀ x < L.blockSize, stateAt shareMapOps final.map x = if L.partSize ≤ L.size then
    applyBit uState (stateAt shareMapOps map x) (bits.getD 0 false) else stateAt shareMapOps map x
  /-- The other bytes get their bits. -/
  high : ∀ x, L.blockSize ≤ x → x < L.size → isAvailable (stateAt shareMapOps final.map x) = bitAt L bits x
  /-- The first run covers the part, the later ones what follows the block. -/
  changes : ∀ x, changesAt final.availDiff x = (if x < min L.partSize L.size then
      changeOf uState (stateAt shareMapOps map x) (bits.getD 0 false) else []) ++
    if L.blockSize ≤ x ∧ x < L.size then changeOf uState (if x < L.partSize ∧ L.partSize ≤ L.size then
        applyBit uState (stateAt shareMapOps map x) (bits.getD 0 false)
      else stateAt shareMapOps map x) (bitAt L bits x) else []
  /-- The entries are ranges of the map. -/
  inRange : DiffsInRange L.size final.availDiff
  /-- The first run counts as a whole part. -/
  counted : final.uAvailSize = (if bits.getD 0 false then L.partSize else 0) +
    ∑ x ∈ Finset.Ico L.blockSize L.size, if bitAt L bits x then 1 else 0
  /-- The map stays canonical. -/
  canonical : Canonical shareMapOps L.size final.map

/-- The number of entries after such a first run. -/
theorem LongRunFacts.entries {L : BitLayout} (h : LongRunFacts L bits map uState final) (x : ℕ) :
    entriesAt final.availDiff x = (if x < min L.partSize L.size ∧
        stateAt shareMapOps map x &&& uState ≠ bitFlags uState (bits.getD 0 false) then 1 else 0) +
      if (L.blockSize ≤ x ∧ x < L.size) ∧ (if x < L.partSize ∧ L.partSize ≤ L.size then
        bitFlags uState (bits.getD 0 false) else stateAt shareMapOps map x &&& uState) ≠
          bitFlags uState (bitAt L bits x) then 1 else 0 := by
  rw [entriesAt_eq, h.changes, List.length_append]
  congr 1
  · by_cases hx : x < min L.partSize L.size
    · rw [if_pos hx, length_changeOf]
      simp only [hx, true_and]
    · rw [if_neg hx, if_neg fun h => hx h.1, List.length_nil]
  · by_cases hx : L.blockSize ≤ x ∧ x < L.size
    · rw [if_pos hx, length_changeOf]
      simp only [hx, true_and, and_self]
      split
      · rw [applyBit_and]
      · rfl
    · rw [if_neg hx, if_neg fun h => hx h.1, List.length_nil]

/-- The facts hold after every such first run. -/
theorem longRunFacts (hlen : bits.length = L.bitCount) (h : Canonical shareMapOps L.size map)
    (ha : isAvailable uState = true) (hstate : uState ≠ 0) (hfirst : LongFirstRun L bits) :
    LongRunFacts L bits map uState (fromBitArray map bits L.partSize L.blockSize uState []) := by
  have hlong := fromBitArray_long L hlen h hstate hfirst
  generalize fromBitArray map bits L.partSize L.blockSize uState [] = final at hlong
  obtain ⟨hb, hcount, htwo, -⟩ := hfirst
  have hunit : L.unit = L.blockSize := by rw [BitLayout.unit, if_pos hb]
  have hone : L.offset 1 = L.blockSize := by rw [offset_one L hcount, hunit]
  have hmono : L.offset 0 < L.offset 1 := (L.offset_succ 0).1
  have hin := L.bitCount_spec.1 1 (by omega)
  have hfit := L.fits
  have hpart := L.partSize_pos
  have hlt : L.blockSize < L.partSize := by
    have hspec := L.blockCount_spec.2.2
    have hmul : 2 * L.unit ≤ L.blockCount * L.unit := Nat.mul_le_mul_right _ hcount
    omega
  obtain ⟨-, hs, he, hd⟩ := closeRun_spec (firstRun L bits map) h (by omega) hpart
    (by dsimp only [firstRun]; omega) L.partSize hpart (fun hlt => by rw [minusOne]; omega) hstate
  have hhead : (firstRun L bits map).bCur = bits.getD 0 false := by
    cases bits <;> rfl
  have hzero : (firstRun L bits map).uBegin = 0 := rfl
  have hend : (firstRun L bits map).uEnd = L.partSize := rfl
  have hmap : (firstRun L bits map).map = map := rfl
  rw [hone] at hlong
  constructor
  · omega
  · intro x hx
    have hidx := L.index_eq_of_offset (i := 0) (x := x) (by rw [L.offset_zero]; omega)
      (by rw [Nat.zero_add, hone]; exact hx)
    rw [bitAt, hidx]
  · intro x hx
    rw [hlong.state, if_neg (by omega), hs, hhead, hzero, hmap]
    have hxp : 0 ≤ x ∧ x < L.partSize := by omega
    simp only [hxp, and_self, true_and]
  · intro x h1 h2
    rw [hlong.state, if_pos ⟨h1, h2⟩, isAvailable_applyBit ha]
  · intro x
    rw [hlong.changes, he, hs, hhead, hzero, hend, hmap]
    have hnil : changesAt (firstRun L bits map).availDiff x = [] := rfl
    rw [hnil, List.nil_append]
    simp only [Nat.zero_le, true_and]
  · exact hlong.inRange (hd fun diff hm => by cases hm)
  · rw [hlong.counted, closeRun, hhead, hzero, hend]
    have hnil : (firstRun L bits map).uAvailSize = 0 := rfl
    dsimp only
    rw [hnil, Nat.zero_add, Nat.sub_zero]
  · exact hlong.canonical

/-- With a first run that starts too long, the bits do what they are for only
if the input hides it. -/
theorem bitsFit_of_long (ha : isAvailable uState = true) (hf : LongRunFacts L bits map uState final)
    (happ : BitsApplied L bits map final) : BitsFit L bits map uState := by
  obtain ⟨hb, hbs, hbp⟩ := hf.block_lt
  have hflags : bitFlags uState true ≠ 0 := by
    intro hzero
    rw [bitFlags, if_pos rfl] at hzero
    rw [hzero] at ha
    cases ha
  have hfalse : bitFlags uState false = 0 := rfl
  have hunset : bits.getD 0 false = false := by
    -- the closed part counts more bytes than the first block has
    have hcount := happ.counted
    have hsum : ∑ x ∈ Finset.range L.size, (if isAvailable (stateAt shareMapOps final.map x) then 1 else 0) =
        ∑ x ∈ Finset.range L.size, if bitAt L bits x then 1 else 0 := by
      refine Finset.sum_congr rfl fun x hx => ?_
      rw [happ.bytes x (Finset.mem_range.mp hx)]
    rw [hsum, hf.counted, Finset.range_eq_Ico,
      ← Finset.sum_Ico_consecutive _ (Nat.zero_le L.blockSize) hbs.le] at hcount
    have hblock : ∑ x ∈ Finset.Ico 0 L.blockSize, (if bitAt L bits x then 1 else 0) =
        if bits.getD 0 false then L.blockSize else 0 := by
      have hconst : ∑ x ∈ Finset.Ico 0 L.blockSize, (if bitAt L bits x then 1 else 0) =
          ∑ _x ∈ Finset.Ico 0 L.blockSize, if bits.getD 0 false then 1 else 0 :=
        Finset.sum_congr rfl fun x hx => by rw [hf.first x (Finset.mem_Ico.mp hx).2]
      rw [hconst, Finset.sum_const, Nat.card_Ico, Nat.sub_zero]
      cases bits.getD 0 false with
      | true => simp only [if_true, smul_eq_mul, Nat.mul_one]
      | false => simp only [Bool.false_eq_true, if_false, smul_zero]
    rw [hblock] at hcount
    cases hbit : bits.getD 0 false with
    | false => rfl
    | true =>
      rw [hbit, if_pos rfl, if_pos rfl] at hcount
      omega
  have hentries := hf.entries
  simp only [hunset, hfalse] at hentries
  have hone : ∀ x, entriesAt final.availDiff x ≤ 1 := by
    intro x
    rw [happ.entries]
    split <;> omega
  have hcovered : ∀ x, L.blockSize ≤ x → x < min L.partSize L.size → bitAt L bits x = true →
      stateAt shareMapOps map x &&& uState = 0 := by
    intro x hx hx' hbit
    by_contra hne
    have hle := hone x
    rw [hentries, if_pos ⟨hx', hne⟩, hbit] at hle
    by_cases hp : L.partSize ≤ L.size
    · rw [if_pos (show x < L.partSize ∧ L.partSize ≤ L.size by omega), if_pos ⟨by omega, hflags.symm⟩] at hle
      omega
    · -- one entry only, although the byte was available before
      rw [if_neg (show ¬(x < L.partSize ∧ L.partSize ≤ L.size) by omega)] at hle
      by_cases hsame : stateAt shareMapOps map x &&& uState = bitFlags uState true
      · have he := happ.entries x
        rw [happ.bytes x (by omega), hbit, isAvailable_of_flags ha hsame,
          if_neg (not_not.mpr rfl), hentries, if_pos ⟨hx', hne⟩] at he
        omega
      · rw [if_pos ⟨by omega, hsame⟩] at hle
        omega
  have hpast : L.size < L.partSize → ∀ x < L.size, stateAt shareMapOps map x &&& uState = 0 := by
    intro hsp x hx
    by_contra hne
    have hx' : x < min L.partSize L.size := by omega
    rcases Nat.lt_or_ge x L.blockSize with hlow | hhigh
    · have he := happ.entries x
      rw [hf.low x hlow, if_neg (show ¬L.partSize ≤ L.size by omega), if_neg (not_not.mpr rfl), hentries,
        if_pos ⟨hx', hne⟩] at he
      omega
    · cases hbit : bitAt L bits x with
      | true => exact hne (hcovered x hhigh hx' hbit)
      | false =>
        have hle := hone x
        rw [hentries, if_pos ⟨hx', hne⟩, hbit, hfalse, if_neg (show ¬(x < L.partSize ∧ L.partSize ≤ L.size) by omega),
          if_pos ⟨⟨hhigh, hx⟩, hne⟩] at hle
        omega
  refine ⟨?_, fun _ => hunset, fun _ => hcovered, fun _ => hpast⟩
  intro x hx hne heq
  have he := happ.entries x
  rw [happ.bytes x hx, heq, if_neg (not_not.mpr rfl), hentries] at he
  rcases Nat.lt_or_ge x L.blockSize with hlow | hhigh
  · rw [hf.first x hlow, hunset, hfalse] at hne
    rw [if_pos ⟨by omega, hne⟩] at he
    omega
  · cases hbit : bitAt L bits x with
    | true =>
      rcases Nat.lt_or_ge x L.partSize with hlow | hhigh'
      · have hzero := hcovered x hhigh (by omega) hbit
        rw [isAvailable_of_flags ha (hzero.trans hfalse.symm), hbit] at heq
        cases heq
      · rw [hbit] at hne he
        rw [if_neg (show ¬(x < L.partSize ∧ L.partSize ≤ L.size) by omega),
          if_pos (⟨⟨hhigh, hx⟩, hne⟩ : (L.blockSize ≤ x ∧ x < L.size) ∧ _)] at he
        omega
    | false =>
      rw [hbit, hfalse] at hne he
      rcases Nat.lt_or_ge x L.partSize with hlow | hhigh'
      · rw [if_pos ⟨by omega, hne⟩] at he
        omega
      · rw [if_neg (show ¬(x < L.partSize ∧ L.partSize ≤ L.size) by omega),
          if_pos (⟨⟨hhigh, hx⟩, hne⟩ : (L.blockSize ≤ x ∧ x < L.size) ∧ _)] at he
        omega

/-- If the input hides a first run that starts too long, the bits do what they
are for. -/
theorem bitsApplied_of_long (h : Canonical shareMapOps L.size map)
    (ha : isAvailable uState = true) (hf : LongRunFacts L bits map uState final)
    (hlong : LongFirstRun L bits) (hfit : BitsFit L bits map uState) : BitsApplied L bits map final := by
  obtain ⟨hb, hbs, hbp⟩ := hf.block_lt
  have hflags : bitFlags uState true ≠ 0 := by
    intro hzero
    rw [bitFlags, if_pos rfl] at hzero
    rw [hzero] at ha
    cases ha
  have hfalse : bitFlags uState false = 0 := rfl
  have hunset := hfit.unset hlong
  have hentries := hf.entries
  simp only [hunset, hfalse] at hentries
  have hbytes : ∀ x < L.size, isAvailable (stateAt shareMapOps final.map x) = bitAt L bits x := by
    intro x hx
    rcases Nat.lt_or_ge x L.blockSize with hlow | hhigh
    · rw [hf.low x hlow, hf.first x hlow, hunset]
      split
      · exact isAvailable_applyBit ha _ _
      · rename_i hp
        exact isAvailable_of_flags ha ((hfit.past hlong (by omega) x hx).trans hfalse.symm)
    · exact hf.high x hhigh hx
  refine ⟨hbytes, ?_, fun x => ?_⟩
  · have hsum : ∑ x ∈ Finset.range L.size, (if isAvailable (stateAt shareMapOps final.map x) then 1 else 0) =
        ∑ x ∈ Finset.range L.size, if bitAt L bits x then 1 else 0 := by
      refine Finset.sum_congr rfl fun x hx => ?_
      rw [hbytes x (Finset.mem_range.mp hx)]
    have hblock : ∑ x ∈ Finset.Ico 0 L.blockSize, (if bitAt L bits x then 1 else 0) = 0 := by
      refine Finset.sum_eq_zero fun x hx => ?_
      rw [hf.first x (Finset.mem_Ico.mp hx).2, hunset]
      rfl
    rw [hsum, hf.counted, hunset, Finset.range_eq_Ico,
      ← Finset.sum_Ico_consecutive _ (Nat.zero_le L.blockSize) hbs.le, hblock]
    rfl
  · rcases Nat.lt_or_ge x L.size with hx | hx
    · have hchange : (if bitAt L bits x ≠ isAvailable (stateAt shareMapOps map x) then 1 else 0) =
          if stateAt shareMapOps map x &&& uState ≠ bitFlags uState (bitAt L bits x)
          then 1 else 0 := by
        by_cases hne : stateAt shareMapOps map x &&& uState = bitFlags uState (bitAt L bits x)
        · rw [isAvailable_of_flags ha hne, if_neg (not_not.mpr rfl), if_neg (not_not.mpr hne)]
        · rw [if_pos (hfit.together x hx hne).symm, if_pos hne]
      rw [hbytes x hx, hchange, hentries]
      rcases Nat.lt_or_ge x L.blockSize with hlow | hhigh
      · have hx' : x < min L.partSize L.size := by omega
        have hout : ¬L.blockSize ≤ x := by omega
        simp only [hf.first x hlow, hunset, hfalse, hx', hout, true_and, false_and, if_false, Nat.add_zero]
      · rcases Nat.lt_or_ge x L.partSize with hlow' | hhigh'
        · have hx' : x < min L.partSize L.size := by omega
          have hin : L.blockSize ≤ x ∧ x < L.size := ⟨hhigh, hx⟩
          cases hbit : bitAt L bits x with
          | true =>
            have hzero := hfit.covered hlong x hhigh hx' hbit
            simp only [hzero, ite_self, hin, hflags.symm, ne_eq, not_true_eq_false, and_false,
              if_false, and_self, not_false_eq_true, if_true, Nat.zero_add]
          | false =>
            have hinner : (if x < L.partSize ∧ L.partSize ≤ L.size then 0
                else stateAt shareMapOps map x &&& uState) = 0 := by
              split
              · rfl
              · exact hfit.past hlong (by omega) x hx
            simp only [hinner, hfalse, hx', ne_eq, not_true_eq_false, and_false, if_false, true_and, Nat.add_zero]
        · have hin : L.blockSize ≤ x ∧ x < L.size := ⟨hhigh, hx⟩
          rw [if_neg (show ¬(x < L.partSize ∧ L.partSize ≤ L.size) by omega),
            if_neg (fun hin => absurd hin.1 (by omega)), Nat.zero_add]
          simp only [hin, and_self, true_and]
    · rw [hentries, hf.canonical.stateAt_past hx, h.stateAt_past hx, if_neg (by omega),
        if_neg (by omega), if_neg (not_not.mpr rfl)]

/-- `FromBitArray` makes exactly the bytes with a set bit available, returns
their number and reports each change once, if and only if the input fits. -/
theorem fromBitArray_iff {bits : List Bool} (hlen : bits.length = L.bitCount)
    {map : CRangeMap (BitVec 16)} (h : Canonical shareMapOps L.size map) {uState : BitVec 16}
    (ha : isAvailable uState = true) :
    BitsApplied L bits map (fromBitArray map bits L.partSize L.blockSize uState []) ↔
      BitsFit L bits map uState := by
  have hstate : uState ≠ 0 := by
    rintro rfl
    cases ha
  by_cases hlong : LongFirstRun L bits
  · have hf := longRunFacts L hlen h ha hstate hlong
    exact ⟨bitsFit_of_long L ha hf, bitsApplied_of_long L h ha hf hlong⟩
  · rw [bitsApplied_of_progress L h ha (fromBitArray_progress L hlen h hstate hlong)]
    exact ⟨fun htogether => ⟨htogether, fun hl => absurd hl hlong, fun hl => absurd hl hlong,
      fun hl => absurd hl hlong⟩, fun hfit => hfit.together⟩

/-- Three blocks of a file in one part, on a fresh map. -/
theorem fromBitArray_iff_crumbs : BitsApplied ⟨1000000, 9728000, 486400, by decide, by decide, by decide, by decide⟩
      [false, false, true] (CRangeMap.create shareMapOps 1000000)
      (fromBitArray (CRangeMap.create shareMapOps 1000000) [false, false, true] 9728000 486400 3 []) ↔
    BitsFit ⟨1000000, 9728000, 486400, by decide, by decide, by decide, by decide⟩
      [false, false, true] (CRangeMap.create shareMapOps 1000000) 3 :=
  fromBitArray_iff ⟨1000000, 9728000, 486400, by decide, by decide, by decide, by decide⟩
    (by decide) (canonical_create shareMapOps (by decide)) (by decide)

/-- A peer has the first of three blocks of a file in one part. The range of
the first run ends past the file, so the block does not become available. -/
theorem fromBitArray_first_crumb_lost :
    ¬BitsApplied ⟨1000000, 9728000, 486400, by decide, by decide, by decide, by decide⟩
      [true, false, false] (CRangeMap.create shareMapOps 1000000)
      (fromBitArray (CRangeMap.create shareMapOps 1000000) [true, false, false] 9728000 486400 3 []) := by
  intro happ
  have hfirst := happ.bytes 0 (by decide)
  revert hfirst
  decide

end FromBitArray

end NeoLoader.ShareMapBits
