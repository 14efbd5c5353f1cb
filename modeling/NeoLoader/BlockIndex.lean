import NeoLoader.ShareMapBits

/-!
# The blocks of a file and their bits

A hash has a bit for each block of its file. Parts are cut into blocks, so that the last block of a
part may be short, and the last one of the file too. A range of bytes is turned into the range of
the blocks that it meets, or of those that lie in it.
-/

namespace NeoLoader.BlockIndex

open ShareMapBits

section Sizes

/-- `DivUp`, on numbers of 64 bits. -/
def divUp (Size Value : ℕ) : ℕ := (Size + Value - 1) % 2 ^ 64 / Value

/-- The sizes that a `CFileHashEx` has. -/
structure CFileHashEx where
  totalSize : ℕ
  /-- `GetPartSize`, zero for none. -/
  partSize : ℕ
  /-- `GetBlockSize`, zero for none. -/
  blockSize : ℕ

variable (h : CFileHashEx)

/-- `CFileHashEx::GetStatusCount`. -/
def getStatusCount : ℕ :=
  let uBlockCount := (if h.blockSize ≠ 0 then divUp h.partSize h.blockSize else 1) % 2 ^ 16
  (if h.partSize ≠ 0 ∧ h.blockSize ≠ 0 then
    h.totalSize / h.partSize * uBlockCount + divUp (h.totalSize % h.partSize) h.blockSize
  else divUp h.totalSize (if h.partSize ≠ 0 then h.partSize else h.blockSize)) % 2 ^ 32

/-- `uBlockCount` of the next functions, of 16 bits: zero unless there are parts and blocks. -/
def uBlockCount : ℕ :=
  if h.blockSize ≠ 0 ∧ h.partSize ≠ 0 then divUp h.partSize h.blockSize % 2 ^ 16 else 0

/-- `uPartSize` of the next functions: the blocks, if there are no parts. -/
def uPartSize : ℕ := if h.partSize = 0 then h.blockSize else h.partSize

/-- `Range.first` of `IndexRange`. -/
def rangeFirst (uBegin : ℕ) (bEnvelope : Bool) : ℕ :=
  (if uBlockCount h ≠ 0 then
    uBegin / uPartSize h * uBlockCount h + if bEnvelope then uBegin % uPartSize h / h.blockSize
      else divUp (uBegin % uPartSize h) h.blockSize
  else if bEnvelope then uBegin / uPartSize h else divUp uBegin (uPartSize h)) % 2 ^ 32

/-- `Range.second` of `IndexRange`. -/
def rangeSecond (uEnd : ℕ) (bEnvelope : Bool) : ℕ :=
  (if uBlockCount h ≠ 0 then
    uEnd / uPartSize h * uBlockCount h + if bEnvelope ∨ uEnd ≥ h.totalSize then divUp (uEnd % uPartSize h) h.blockSize
      else uEnd % uPartSize h / h.blockSize
  else if bEnvelope ∨ uEnd ≥ h.totalSize then divUp uEnd (uPartSize h)
  else uEnd / uPartSize h) % 2 ^ 32

/-- `CFileHashEx::IndexRange`. -/
def indexRange (uBegin uEnd : ℕ) (bEnvelope : Bool) : ℕ × ℕ :=
  if rangeFirst h uBegin bEnvelope ≥ rangeSecond h uEnd bEnvelope then
    (rangeSecond h uEnd bEnvelope, rangeSecond h uEnd bEnvelope)
  else (rangeFirst h uBegin bEnvelope, rangeSecond h uEnd bEnvelope)

/-- `CFileHashEx::IndexOffset`. -/
def indexOffset (Index : ℕ) : ℕ :=
  let Offset := (if uBlockCount h ≠ 0 then
    Index / uBlockCount h * uPartSize h + Index % uBlockCount h * h.blockSize
  else uPartSize h * Index) % 2 ^ 64
  if Offset > h.totalSize then h.totalSize else Offset

end Sizes

section Status

/-- `QBitArray::testBit`: nothing outside the array. -/
def testBit (bits : List Bool) (Index : ℕ) : Option Bool := bits[Index]?

/-- `QBitArray::setBit`: nothing outside the array. -/
def setBit (bits : List Bool) (bValue : Bool) (Index : ℕ) : Option (List Bool) :=
  if Index < bits.length then some (bits.set Index bValue) else none

/-- The results of a hash. -/
structure Status where
  /-- `m_StatusMap`: one bit for each block, or no bits at all. -/
  statusMap : List Bool
  /-- `m_CorruptionSet`: the ranges that failed. -/
  corruptionSet : List (ℕ × ℕ)
  deriving DecidableEq

variable (h : CFileHashEx) (s : Status)

/-- The status map, made when it is not there yet. -/
def resized : List Bool :=
  if s.statusMap.isEmpty then List.replicate (getStatusCount h) false else s.statusMap

/-- The indices of a range, one after the other. -/
def indices (range : ℕ × ℕ) : List ℕ := List.range' range.1 (range.2 - range.1)

/-- `CFileHashEx::SetResult`. -/
def setResult (bResult : Bool) (uBegin uEnd : ℕ) : Option Status :=
  ((indices (indexRange h uBegin uEnd true)).foldlM (fun bits Index => setBit bits bResult Index)
    (resized h s)).map fun bits =>
      ⟨bits, if bResult then s.corruptionSet else s.corruptionSet ++ [(uBegin, uEnd)]⟩

/-- The loop of `ClearResult` over the bits, for one of them. -/
def clearBit (bits : List Bool) (Index : ℕ) : Option (List Bool) :=
  (testBit bits Index).bind fun bit => if bit then setBit bits false Index else some bits

/-- `CFileHashEx::ClearResult`. -/
def clearResult (uBegin uEnd : ℕ) : Option Status :=
  ((indices (indexRange h uBegin uEnd true)).foldlM clearBit (resized h s)).map fun bits =>
    ⟨bits, s.corruptionSet.filter fun I => ¬(I.1 < uEnd ∧ I.2 > uBegin)⟩

/-- The loop of `testBits`. -/
def allBits (bits : List Bool) : List ℕ → Option Bool
  | [] => some true
  | Index :: rest => (testBit bits Index).bind fun bit => if bit then allBits bits rest else some false

def testBits (bits : List Bool) (range : ℕ × ℕ) : Option Bool :=
  if bits.isEmpty then some false else allBits bits (indices range)

/-- `CFileHashEx::GetResult`. -/
def getResult (uBegin uEnd : ℕ) : Option Bool :=
  testBits s.statusMap (indexRange h uBegin uEnd true)

end Status

section Blocks

variable (h : CFileHashEx)

/-- The length of a block. -/
def blockLength : ℕ := if h.blockSize ≠ 0 ∧ h.partSize ≠ 0 then h.blockSize else uPartSize h

/-- The blocks of a part. -/
def blocksPerPart : ℕ := ShareMapBits.divUp (uPartSize h) (blockLength h)

/-- The first byte of a block. -/
def blockBegin (i : ℕ) : ℕ :=
  i / blocksPerPart h * uPartSize h + i % blocksPerPart h * blockLength h

/-- The byte after a block: the last one of a part ends with it, and the last one of the file too. -/
def blockEnd (i : ℕ) : ℕ :=
  min (min (i / blocksPerPart h * uPartSize h + (i % blocksPerPart h + 1) * blockLength h)
    ((i / blocksPerPart h + 1) * uPartSize h)) h.totalSize

/-- The sizes fit in their types. -/
structure SizesOk : Prop where
  /-- There are parts or blocks. -/
  unit : h.partSize ≠ 0 ∨ h.blockSize ≠ 0
  /-- The end of the last part is an offset. -/
  sum : h.totalSize + uPartSize h ≤ 2 ^ 64
  /-- Parts and blocks are added in 64 bits. -/
  part : h.partSize + h.blockSize ≤ 2 ^ 64
  /-- The blocks of a part are counted in 16 bits. -/
  blocks : blocksPerPart h < 2 ^ 16
  /-- All blocks are counted in 32 bits. -/
  bits : ∀ i, blockBegin h i < h.totalSize → i + 1 < 2 ^ 32

variable {h}

/-- Files below four gigabytes do not have too many blocks. -/
theorem SizesOk.of_lt (unit : h.partSize ≠ 0 ∨ h.blockSize ≠ 0)
    (sum : h.totalSize + uPartSize h ≤ 2 ^ 64) (part : h.partSize + h.blockSize ≤ 2 ^ 64)
    (blocks : blocksPerPart h < 2 ^ 16) (hlt : h.totalSize < 2 ^ 32) : SizesOk h := by
  have hlength : 0 < blockLength h := by
    rw [blockLength, uPartSize]
    split_ifs <;> omega
  have hcount : blocksPerPart h ≤ uPartSize h := by
    rw [blocksPerPart, ShareMapBits.divUp]
    rcases Nat.eq_zero_or_pos (uPartSize h) with hzero | hpos
    · rw [hzero, Nat.zero_add, Nat.div_eq_of_lt (by omega)]
    · obtain ⟨n, hn⟩ : ∃ n, uPartSize h = n + 1 := ⟨uPartSize h - 1, by omega⟩
      have hle := Nat.mul_le_mul_left n hlength
      rw [← Nat.lt_succ_iff, Nat.div_lt_iff_lt_mul hlength, hn, Nat.succ_mul, Nat.succ_mul]
      omega
  refine ⟨unit, sum, part, blocks, fun i hi => ?_⟩
  have hparts := Nat.mul_le_mul_left (i / blocksPerPart h) hcount
  have hblocks := Nat.mul_le_mul_left (i % blocksPerPart h) hlength
  have hdm := Nat.div_add_mod' i (blocksPerPart h)
  rw [blockBegin] at hi
  omega

/-- The sizes as those of a bit array, for the begin of the file up to an offset. -/
def layout (hs : SizesOk h) {e : ℕ} (hpos : 0 < e) (he : e ≤ h.totalSize) : BitLayout where
  size := e
  partSize := uPartSize h
  blockSize := if h.blockSize ≠ 0 ∧ h.partSize ≠ 0 then h.blockSize else 0
  size_pos := hpos
  partSize_pos := by
    have hunit := hs.unit
    unfold uPartSize
    split_ifs <;> omega
  fits := by
    have hsum := hs.sum
    omega
  count_lt := by
    intro hne
    have hblocks := hs.blocks
    unfold blocksPerPart blockLength at hblocks
    by_cases hboth : h.blockSize ≠ 0 ∧ h.partSize ≠ 0
    · rw [if_pos hboth] at hblocks ⊢
      exact hblocks
    · rw [if_neg hboth] at hne
      exact absurd rfl hne

section Layout

variable (hs : SizesOk h) {e : ℕ} (hpos : 0 < e) (he : e ≤ h.totalSize)

theorem layout_blockSize (hboth : h.blockSize ≠ 0 ∧ h.partSize ≠ 0) :
    (layout hs hpos he).blockSize = h.blockSize := if_pos hboth

theorem layout_blockSize_single (hboth : ¬(h.blockSize ≠ 0 ∧ h.partSize ≠ 0)) :
    (layout hs hpos he).blockSize = 0 := if_neg hboth

theorem layout_unit : (layout hs hpos he).unit = blockLength h := by
  rw [BitLayout.unit, blockLength]
  by_cases hboth : h.blockSize ≠ 0 ∧ h.partSize ≠ 0
  · rw [layout_blockSize hs hpos he hboth, if_pos hboth, if_pos hboth.1]
  · rw [layout_blockSize_single hs hpos he hboth, if_neg hboth, if_neg (not_not.mpr rfl)]
    rfl

theorem layout_blockCount : (layout hs hpos he).blockCount = blocksPerPart h := by
  rw [BitLayout.blockCount_eq, layout_unit]
  rfl

theorem layout_offset (i : ℕ) : (layout hs hpos he).offset i = blockBegin h i := by
  have hcount := (layout hs hpos he).blockCount_spec.1
  have hoffset := (layout hs hpos he).offset_eq (q := i / blocksPerPart h)
    (s := i % blocksPerPart h) (by rw [layout_blockCount] at hcount ⊢; exact Nat.mod_lt _ hcount)
  rw [layout_blockCount, layout_unit, Nat.div_add_mod'] at hoffset
  exact hoffset

end Layout

section

variable (hs : SizesOk h) (hpos : 0 < h.totalSize) (hboth : ¬(h.blockSize ≠ 0 ∧ h.partSize ≠ 0))

include hs hpos hboth

theorem blocksPerPart_single : blocksPerPart h = 1 := by
  have hone := (layout hs hpos le_rfl).blockCount_of_part
    (by rw [layout_blockSize_single hs hpos le_rfl hboth]; exact not_not.mpr rfl)
  rw [layout_blockCount] at hone
  exact hone

theorem blockBegin_single (i : ℕ) : blockBegin h i = i * uPartSize h := by
  rw [blockBegin, blocksPerPart_single hs hpos hboth, Nat.div_one, Nat.mod_one, Nat.zero_mul, Nat.add_zero]

end

/-- The block after one begins where it ends, as far as the file goes. -/
theorem blockEnd_eq (hs : SizesOk h) (hpos : 0 < h.totalSize) (i : ℕ) :
    blockEnd h i = min (blockBegin h (i + 1)) h.totalSize := by
  obtain ⟨hcount, hle, hlt⟩ := (layout hs hpos le_rfl).blockCount_spec
  have hmod := Nat.mod_lt i hcount
  have hi := Nat.div_add_mod' i (layout hs hpos le_rfl).blockCount
  have hoffset : ∀ {q t : ℕ}, t < (layout hs hpos le_rfl).blockCount →
      blockBegin h (q * (layout hs hpos le_rfl).blockCount + t) = q * uPartSize h + t * blockLength h := by
    intro q t ht
    rw [← layout_offset hs hpos le_rfl, BitLayout.offset_eq _ ht, layout_unit]
    rfl
  have hpart : (layout hs hpos le_rfl).partSize = uPartSize h := rfl
  rw [blockEnd, ← layout_blockCount hs hpos le_rfl]
  rw [layout_unit, hpart] at hle hlt
  generalize i / (layout hs hpos le_rfl).blockCount = q at *
  generalize i % (layout hs hpos le_rfl).blockCount = t at *
  congr 1
  rw [← hi]
  by_cases hnext : t + 1 < (layout hs hpos le_rfl).blockCount
  · have hmul : (t + 1) * blockLength h ≤ ((layout hs hpos le_rfl).blockCount - 1) * blockLength h :=
      Nat.mul_le_mul_right _ (by omega)
    rw [Nat.sub_mul, Nat.one_mul] at hmul
    rw [Nat.add_assoc, hoffset hnext, Nat.add_mul q 1, Nat.one_mul]
    omega
  · have hlast : t + 1 = (layout hs hpos le_rfl).blockCount := by omega
    have hsucc : q * (layout hs hpos le_rfl).blockCount + t + 1 = (q + 1) * (layout hs hpos le_rfl).blockCount + 0 := by
      rw [Nat.add_assoc, hlast, Nat.add_mul, Nat.one_mul, Nat.add_zero]
    rw [hsucc, hoffset hcount, Nat.zero_mul, Nat.add_zero, hlast, Nat.add_mul q 1, Nat.one_mul]
    omega

/-- The number of blocks that begin before an offset. -/
def ceilIndex (h : CFileHashEx) (x : ℕ) : ℕ :=
  if h.blockSize ≠ 0 ∧ h.partSize ≠ 0 then
    x / uPartSize h * blocksPerPart h + ShareMapBits.divUp (x % uPartSize h) h.blockSize
  else ShareMapBits.divUp x (uPartSize h)

/-- The block of an offset. -/
def floorIndex (h : CFileHashEx) (x : ℕ) : ℕ :=
  if h.blockSize ≠ 0 ∧ h.partSize ≠ 0 then
    x / uPartSize h * blocksPerPart h + x % uPartSize h / h.blockSize
  else x / uPartSize h

theorem layout_bitCount (hs : SizesOk h) {e : ℕ} (hpos : 0 < e) (he : e ≤ h.totalSize) :
    (layout hs hpos he).bitCount = ceilIndex h e := by
  rw [BitLayout.bitCount, ceilIndex, layout_blockCount]
  by_cases hboth : h.blockSize ≠ 0 ∧ h.partSize ≠ 0
  · rw [layout_blockSize hs hpos he hboth, if_pos hboth, if_pos hboth.1]
    rfl
  · rw [layout_blockSize_single hs hpos he hboth, if_neg hboth, if_neg (not_not.mpr rfl)]
    rfl

theorem blockBegin_lt_succ (hs : SizesOk h) (hpos : 0 < h.totalSize) (i : ℕ) :
    blockBegin h i < blockBegin h (i + 1) := by
  have hmono := (layout hs hpos le_rfl).offset_strictMono (Nat.lt_succ_self i)
  rw [layout_offset, layout_offset] at hmono
  exact hmono

/-- Blocks are counted that begin before an offset. -/
theorem lt_ceilIndex_iff (hs : SizesOk h) {x : ℕ} (hx : x ≤ h.totalSize) (i : ℕ) :
    i < ceilIndex h x ↔ blockBegin h i < x := by
  rcases Nat.eq_zero_or_pos x with rfl | hpos
  · refine iff_of_false ?_ (Nat.not_lt_zero _)
    have hzero : ∀ n, ShareMapBits.divUp 0 n = 0 := by
      intro n
      rw [ShareMapBits.divUp, Nat.zero_add]
      cases n with
      | zero => rfl
      | succ n => exact Nat.div_eq_of_lt (by omega)
    rw [ceilIndex, Nat.zero_div, Nat.zero_mod, Nat.zero_mul, hzero, hzero]
    split_ifs <;> omega
  · have hcount := layout_bitCount hs hpos hx
    obtain ⟨hbefore, hreach⟩ := (layout hs hpos hx).bitCount_spec
    rw [hcount] at hbefore hreach
    rw [layout_offset] at hreach
    have hsize : (layout hs hpos hx).size = x := rfl
    rw [hsize] at hreach
    constructor
    · intro hi
      have hlt := hbefore i hi
      rw [layout_offset] at hlt
      exact hlt
    · intro hlt
      have hmono := (layout hs hpos hx).offset_strictMono.lt_iff_lt (a := i) (b := ceilIndex h x)
      rw [layout_offset, layout_offset] at hmono
      exact hmono.mp (by omega)

/-- A block begins at or before an offset if it is the block of the offset or one before it. -/
theorem le_floorIndex_iff (hs : SizesOk h) (hpos : 0 < h.totalSize) (x i : ℕ) :
    i ≤ floorIndex h x ↔ blockBegin h i ≤ x := by
  have hindex : (layout hs hpos le_rfl).index x = floorIndex h x := by
    rw [BitLayout.index, getBitMapIndex, floorIndex, layout_blockCount]
    by_cases hboth : h.blockSize ≠ 0 ∧ h.partSize ≠ 0
    · rw [layout_blockSize hs hpos le_rfl hboth, if_pos hboth, if_pos hboth.1]
      rfl
    · rw [layout_blockSize_single hs hpos le_rfl hboth, if_neg hboth, if_neg (not_not.mpr rfl),
        blocksPerPart_single hs hpos hboth, Nat.mul_one, Nat.add_zero]
      rfl
  obtain ⟨hle, hlt⟩ := (layout hs hpos le_rfl).offset_index x
  have hmono := (layout hs hpos le_rfl).offset_strictMono
  constructor
  · intro hi
    have hbefore := hmono.monotone hi
    rw [hindex] at hle
    rw [layout_offset, layout_offset] at hbefore
    rw [layout_offset] at hle
    omega
  · intro hbegin
    rw [hindex] at hlt
    have hless := hmono.lt_iff_lt (a := i) (b := floorIndex h x + 1)
    rw [layout_offset, layout_offset] at hless
    rw [layout_offset] at hlt
    have hi := hless.mp (by omega)
    omega

theorem divUp_eq {a b : ℕ} (hsum : a + b ≤ 2 ^ 64) : divUp a b = ShareMapBits.divUp a b := by
  rw [divUp, ShareMapBits.divUp, Nat.mod_eq_of_lt (by omega)]

section

variable (hs : SizesOk h)

include hs

theorem uBlockCount_eq : uBlockCount h = if h.blockSize ≠ 0 ∧ h.partSize ≠ 0 then blocksPerPart h else 0 := by
  have hpart := hs.part
  have hblocks := hs.blocks
  rw [uBlockCount]
  split_ifs with hboth
  · have hpart : uPartSize h = h.partSize := if_neg hboth.2
    rw [blocksPerPart, blockLength, if_pos hboth, hpart] at hblocks ⊢
    rw [divUp_eq (by omega), Nat.mod_eq_of_lt hblocks]
  · rfl

theorem blocksPerPart_pos (hpos : 0 < h.totalSize) : blocksPerPart h ≠ 0 := by
  have hcount := (layout hs hpos le_rfl).blockCount_spec.1
  rw [layout_blockCount] at hcount
  omega

theorem uPartSize_pos : 0 < uPartSize h := by
  have hunit := hs.unit
  rw [uPartSize]
  split_ifs <;> omega

theorem ceilIndex_lt {x : ℕ} (hx : x ≤ h.totalSize) : ceilIndex h x < 2 ^ 32 := by
  cases hcount : ceilIndex h x with
  | zero => decide
  | succ n =>
    have hlast := (lt_ceilIndex_iff hs hx n).mp (by omega)
    exact hs.bits n (by omega)

theorem floorIndex_lt (hpos : 0 < h.totalSize) {x : ℕ} (hx : x ≤ h.totalSize) : floorIndex h x < 2 ^ 32 := by
  have hbegin := (le_floorIndex_iff hs hpos x (floorIndex h x)).mp le_rfl
  cases hfloor : floorIndex h x with
  | zero => decide
  | succ n =>
    rw [hfloor] at hbegin
    have hnext := blockBegin_lt_succ hs hpos n
    exact hs.bits n (by omega)

theorem floor_expr (hpos : 0 < h.totalSize) (x : ℕ) : (if uBlockCount h ≠ 0 then
      x / uPartSize h * uBlockCount h + x % uPartSize h / h.blockSize
    else x / uPartSize h) = floorIndex h x := by
  have hne := blocksPerPart_pos hs hpos
  rw [uBlockCount_eq hs, floorIndex]
  by_cases hboth : h.blockSize ≠ 0 ∧ h.partSize ≠ 0
  · rw [if_pos hboth, if_pos hne, if_pos hboth]
  · rw [if_neg hboth, if_neg (not_not.mpr rfl), if_neg hboth]

/-- The code's index of the first block that begins at an offset or behind it. -/
theorem ceil_expr (hpos : 0 < h.totalSize) {x : ℕ} (hx : x ≤ h.totalSize) : (if uBlockCount h ≠ 0 then
      x / uPartSize h * uBlockCount h + divUp (x % uPartSize h) h.blockSize
    else divUp x (uPartSize h)) = ceilIndex h x := by
  have hne := blocksPerPart_pos hs hpos
  have hsum := hs.sum
  have hpart := hs.part
  have hmod := Nat.mod_lt x (uPartSize_pos hs)
  rw [uBlockCount_eq hs, ceilIndex]
  by_cases hboth : h.blockSize ≠ 0 ∧ h.partSize ≠ 0
  · have hsize : uPartSize h = h.partSize := if_neg hboth.2
    rw [if_pos hboth, if_pos hne, if_pos hboth, divUp_eq (by omega)]
  · rw [if_neg hboth, if_neg (not_not.mpr rfl), if_neg hboth, divUp_eq (by omega)]

/-- The bits are as many as the blocks. -/
theorem getStatusCount_eq (hpos : 0 < h.totalSize) : getStatusCount h = ceilIndex h h.totalSize := by
  have hexpr := ceil_expr hs hpos le_rfl
  have hlt := ceilIndex_lt hs (le_refl h.totalSize)
  rw [← Nat.mod_eq_of_lt hlt, ← hexpr, getStatusCount]
  by_cases hboth : h.blockSize ≠ 0 ∧ h.partSize ≠ 0
  · have hne := blocksPerPart_pos hs hpos
    have hcount := uBlockCount_eq hs
    rw [if_pos hboth] at hcount
    have hpart : uPartSize h = h.partSize := if_neg hboth.2
    have hshort : divUp h.partSize h.blockSize % 2 ^ 16 = uBlockCount h := by
      rw [uBlockCount, if_pos hboth]
    rw [if_pos hboth.1, if_pos ⟨hboth.2, hboth.1⟩, if_pos (hcount ▸ hne), hpart, hshort]
  · have hcount := uBlockCount_eq hs
    rw [if_neg hboth] at hcount
    have hpart : (if h.partSize ≠ 0 then h.partSize else h.blockSize) = uPartSize h := by
      rw [uPartSize]
      split_ifs <;> first | rfl | omega
    rw [if_neg (fun hc => hboth ⟨hc.2, hc.1⟩), hpart, hcount, if_neg (not_not.mpr rfl)]

end

/-- A block has a byte of a range. -/
def Meets (h : CFileHashEx) (uBegin uEnd i : ℕ) : Prop :=
  ∃ x, uBegin ≤ x ∧ x < uEnd ∧ blockBegin h i ≤ x ∧ x < blockEnd h i

/-- A block of the file lies in a range. -/
def Inside (h : CFileHashEx) (uBegin uEnd i : ℕ) : Prop :=
  blockBegin h i < h.totalSize ∧ uBegin ≤ blockBegin h i ∧ blockEnd h i ≤ uEnd

theorem mem_indexRange_iff (uBegin uEnd : ℕ) (bEnvelope : Bool) (i : ℕ) :
    ((indexRange h uBegin uEnd bEnvelope).1 ≤ i ∧ i < (indexRange h uBegin uEnd bEnvelope).2) ↔
      rangeFirst h uBegin bEnvelope ≤ i ∧ i < rangeSecond h uEnd bEnvelope := by
  rw [indexRange]
  split_ifs with hempty
  · dsimp only
    omega
  · rfl

section Envelope

variable (hs : SizesOk h) (hpos : 0 < h.totalSize) {uBegin uEnd : ℕ}

include hs hpos

theorem rangeFirst_envelope (hbegin : uBegin ≤ h.totalSize) : rangeFirst h uBegin true = floorIndex h uBegin := by
  have hexpr := floor_expr hs hpos uBegin
  have hfit := floorIndex_lt hs hpos hbegin
  rw [← Nat.mod_eq_of_lt hfit, ← hexpr]
  rfl

theorem rangeSecond_envelope (hend : uEnd ≤ h.totalSize) : rangeSecond h uEnd true = ceilIndex h uEnd := by
  have hexpr := ceil_expr hs hpos hend
  have hfit := ceilIndex_lt hs hend
  rw [← Nat.mod_eq_of_lt hfit, ← hexpr, rangeSecond, if_pos (Or.inl rfl), if_pos (Or.inl rfl)]

/-- In envelope mode the indices are those of the blocks that begin before the end of the range and
whose next block begins behind its begin, also for an empty range. -/
theorem mem_covering_iff (hbegin : uBegin ≤ h.totalSize) (hend : uEnd ≤ h.totalSize) (i : ℕ) :
    ((indexRange h uBegin uEnd true).1 ≤ i ∧ i < (indexRange h uBegin uEnd true).2) ↔
      blockBegin h i < uEnd ∧ uBegin < blockBegin h (i + 1) := by
  have hfloor := le_floorIndex_iff hs hpos uBegin (i + 1)
  have hceil := lt_ceilIndex_iff hs hend i
  rw [mem_indexRange_iff, rangeFirst_envelope hs hpos hbegin, rangeSecond_envelope hs hpos hend]
  omega

theorem meets_iff (hlt : uBegin < uEnd) (hend : uEnd ≤ h.totalSize) (i : ℕ) :
    Meets h uBegin uEnd i ↔ blockBegin h i < uEnd ∧ uBegin < blockBegin h (i + 1) := by
  have hnext := blockBegin_lt_succ hs hpos i
  rw [Meets, blockEnd_eq hs hpos]
  constructor
  · rintro ⟨x, hx⟩
    omega
  · rintro ⟨hfirst, hsecond⟩
    exact ⟨max uBegin (blockBegin h i), by omega⟩

end Envelope

section Ranges

variable (hs : SizesOk h) {uBegin uEnd : ℕ} (hlt : uBegin < uEnd) (hend : uEnd ≤ h.totalSize)

include hs hlt hend

theorem mem_envelope_iff (i : ℕ) : ((indexRange h uBegin uEnd true).1 ≤ i ∧ i < (indexRange h uBegin uEnd true).2) ↔
      Meets h uBegin uEnd i := by
  have hpos : 0 < h.totalSize := by omega
  rw [mem_covering_iff hs hpos (by omega) hend, meets_iff hs hpos hlt hend]

/-- Otherwise they are those of the blocks that lie in the range. -/
theorem mem_inside_iff (i : ℕ) : ((indexRange h uBegin uEnd false).1 ≤ i ∧ i < (indexRange h uBegin uEnd false).2) ↔
      Inside h uBegin uEnd i := by
  have hpos : 0 < h.totalSize := by omega
  have hfirst : rangeFirst h uBegin false = ceilIndex h uBegin := by
    have hexpr := ceil_expr hs hpos (show uBegin ≤ h.totalSize by omega)
    have hfit := ceilIndex_lt hs (show uBegin ≤ h.totalSize by omega)
    rw [← Nat.mod_eq_of_lt hfit, ← hexpr]
    rfl
  have hstart := lt_ceilIndex_iff hs (show uBegin ≤ h.totalSize by omega) i
  have hnext := blockBegin_lt_succ hs hpos i
  rw [mem_indexRange_iff, hfirst, Inside, blockEnd_eq hs hpos]
  by_cases hlast : uEnd ≥ h.totalSize
  · have hsecond : rangeSecond h uEnd false = ceilIndex h uEnd := by
      have hexpr := ceil_expr hs hpos hend
      have hfit := ceilIndex_lt hs hend
      rw [← Nat.mod_eq_of_lt hfit, ← hexpr, rangeSecond, if_pos (Or.inr hlast), if_pos (Or.inr hlast)]
    have hceil := lt_ceilIndex_iff hs hend i
    rw [hsecond]
    omega
  · have hsecond : rangeSecond h uEnd false = floorIndex h uEnd := by
      have hexpr := floor_expr hs hpos uEnd
      have hfit := floorIndex_lt hs hpos hend
      have hnot : ¬ (false = true ∨ uEnd ≥ h.totalSize) := by
        rintro (hf | hf)
        · exact Bool.false_ne_true hf
        · exact hlast hf
      rw [← Nat.mod_eq_of_lt hfit, ← hexpr, rangeSecond, if_neg hnot, if_neg hnot]
    have hfloor := le_floorIndex_iff hs hpos uEnd (i + 1)
    rw [hsecond]
    omega

theorem lt_getStatusCount_of_mem {i : ℕ} (hi : i < (indexRange h uBegin uEnd true).2) : i < getStatusCount h := by
  have hpos : 0 < h.totalSize := by omega
  have hsecond : i < rangeSecond h uEnd true := by
    rw [indexRange] at hi
    split_ifs at hi <;> exact hi
  rw [rangeSecond_envelope hs hpos hend, lt_ceilIndex_iff hs hend] at hsecond
  rw [getStatusCount_eq hs hpos, lt_ceilIndex_iff hs le_rfl]
  omega

theorem exists_meets : ∃ i, Meets h uBegin uEnd i := by
  have hfloor := le_floorIndex_iff hs (by omega) uBegin (floorIndex h uBegin)
  have hnext := le_floorIndex_iff hs (by omega) uBegin (floorIndex h uBegin + 1)
  refine ⟨floorIndex h uBegin, uBegin, le_rfl, hlt, hfloor.mp le_rfl, ?_⟩
  rw [blockEnd_eq hs (by omega)]
  omega

end Ranges

theorem divUp_zero (v : ℕ) : divUp 0 v = 0 := by
  rcases Nat.eq_zero_or_pos v with rfl | hv
  · exact Nat.div_zero _
  · have hmod := Nat.mod_le (0 + v - 1) (2 ^ 64)
    exact Nat.div_eq_of_lt (by omega)

theorem getStatusCount_of_empty (hzero : h.totalSize = 0) : getStatusCount h = 0 := by
  simp only [getStatusCount, hzero, Nat.zero_div, Nat.zero_mod, divUp_zero, Nat.zero_mul, ite_self]
  rfl

section

variable (hs : SizesOk h) (hpos : 0 < h.totalSize)

include hs hpos

/-- The offset of an index is where its block begins, as far as the file goes. -/
theorem indexOffset_eq {i : ℕ}
    (hi : i ≤ ceilIndex h h.totalSize) : indexOffset h i = min (blockBegin h i) h.totalSize := by
  have hcount := layout_bitCount hs hpos le_rfl
  have hbegin : blockBegin h i < 2 ^ 64 := by
    have hlt := (layout hs hpos le_rfl).offset_lt (i := i) (by rw [hcount]; exact hi)
    rw [layout_offset] at hlt
    exact hlt
  have hexpr : (if uBlockCount h ≠ 0 then
      i / uBlockCount h * uPartSize h + i % uBlockCount h * h.blockSize
    else uPartSize h * i) = blockBegin h i := by
    have hne := blocksPerPart_pos hs hpos
    rw [uBlockCount_eq hs, blockBegin]
    by_cases hboth : h.blockSize ≠ 0 ∧ h.partSize ≠ 0
    · rw [if_pos hboth, if_pos hne, blockLength, if_pos hboth]
    · rw [if_neg hboth, if_neg (not_not.mpr rfl), blocksPerPart_single hs hpos hboth, Nat.div_one,
        Nat.mod_one, Nat.zero_mul, Nat.add_zero, Nat.mul_comm]
  rw [indexOffset, hexpr, Nat.mod_eq_of_lt hbegin]
  split_ifs <;> omega

theorem lt_getStatusCount_iff (i : ℕ) : i < getStatusCount h ↔ blockBegin h i < h.totalSize := by
  rw [getStatusCount_eq hs hpos, lt_ceilIndex_iff hs le_rfl]

theorem blockBegin_lt_iff (i j : ℕ) : blockBegin h i < blockBegin h j ↔ i < j := by
  have hless := (layout hs hpos le_rfl).offset_strictMono.lt_iff_lt (a := i) (b := j)
  rw [layout_offset, layout_offset] at hless
  exact hless

end

theorem range_eq_of_mem {range : ℕ × ℕ} {a b : ℕ} (hlt : a < b)
    (hmem : ∀ j, (range.1 ≤ j ∧ j < range.2) ↔ a ≤ j ∧ j < b) : range = (a, b) := by
  obtain ⟨first, second⟩ := range
  dsimp only at hmem
  have ha := (hmem a).mpr ⟨le_rfl, hlt⟩
  have hb := (hmem (b - 1)).mpr ⟨by omega, by omega⟩
  have hfirst := (hmem first).mp ⟨le_rfl, by omega⟩
  have hsecond := (hmem (second - 1)).mp ⟨by omega, by omega⟩
  exact Prod.ext (by dsimp only; omega) (by dsimp only; omega)

section Own

variable (hs : SizesOk h) (hpos : 0 < h.totalSize) {i : ℕ} (hi : i < getStatusCount h)

include hs hpos hi

theorem indexOffset_own : indexOffset h i = blockBegin h i ∧ indexOffset h (i + 1) = blockEnd h i := by
  have hbegin := (lt_getStatusCount_iff hs hpos i).mp hi
  rw [getStatusCount_eq hs hpos] at hi
  rw [indexOffset_eq hs hpos hi.le, indexOffset_eq hs hpos hi, blockEnd_eq hs hpos]
  exact ⟨min_eq_left hbegin.le, rfl⟩

theorem own_bounds : blockBegin h i < blockEnd h i ∧ blockEnd h i ≤ h.totalSize := by
  have hbegin := (lt_getStatusCount_iff hs hpos i).mp hi
  have hnext := blockBegin_lt_succ hs hpos i
  rw [blockEnd_eq hs hpos]
  omega

/-- A block meets no other one. -/
theorem meets_own_iff (j : ℕ) : Meets h (blockBegin h i) (blockEnd h i) j ↔ j = i := by
  have hbounds := own_bounds hs hpos hi
  have hlow := blockBegin_lt_iff hs hpos j (i + 1)
  have hhigh := blockBegin_lt_iff hs hpos i (j + 1)
  rw [Meets]
  constructor
  · rintro ⟨x, hx⟩
    rw [blockEnd_eq hs hpos, blockEnd_eq hs hpos] at hx
    omega
  · rintro rfl
    exact ⟨blockBegin h j, le_rfl, hbounds.1, le_rfl, hbounds.1⟩

/-- No other block lies in a block. -/
theorem inside_own_iff (j : ℕ) : Inside h (blockBegin h i) (blockEnd h i) j ↔ j = i := by
  have hbegin := (lt_getStatusCount_iff hs hpos i).mp hi
  have hlow := blockBegin_lt_iff hs hpos j i
  have hhigh := blockBegin_lt_iff hs hpos i j
  have hnext := blockBegin_lt_iff hs hpos j (i + 1)
  have hsucc := blockBegin_lt_succ hs hpos j
  rw [Inside]
  constructor
  · rintro ⟨hin, hfrom, hto⟩
    rw [blockEnd_eq hs hpos, blockEnd_eq hs hpos] at hto
    omega
  · rintro rfl
    exact ⟨hbegin, le_rfl, le_rfl⟩

theorem indexRange_own (bEnvelope : Bool) :
    indexRange h (indexOffset h i) (indexOffset h (i + 1)) bEnvelope = (i, i + 1) := by
  obtain ⟨hlt, hend⟩ := own_bounds hs hpos hi
  obtain ⟨hfirst, hsecond⟩ := indexOffset_own hs hpos hi
  rw [hfirst, hsecond]
  refine range_eq_of_mem (Nat.lt_succ_self i) fun j => ?_
  have hone : (i ≤ j ∧ j < i + 1) ↔ j = i := by omega
  cases bEnvelope with
  | true => rw [mem_envelope_iff hs hlt hend, meets_own_iff hs hpos hi, hone]
  | false => rw [mem_inside_iff hs hlt hend, inside_own_iff hs hpos hi, hone]

end Own

section Bits

theorem mem_indices_iff (range : ℕ × ℕ) (i : ℕ) : i ∈ indices range ↔ range.1 ≤ i ∧ i < range.2 := by
  rw [indices, List.mem_range'_1]
  omega

theorem setBit_of_lt {bits : List Bool} {i : ℕ} (hi : i < bits.length) (bValue : Bool) :
    setBit bits bValue i = some (bits.set i bValue) := if_pos hi

/-- Clearing a bit does not depend on what it was. -/
theorem clearBit_eq (bits : List Bool) (i : ℕ) : clearBit bits i = setBit bits false i := by
  rw [clearBit, testBit, setBit]
  split_ifs with hi
  · rw [List.getElem?_eq_getElem hi, Option.bind_some]
    cases hbit : bits[i] with
    | true => rw [if_pos rfl]
    | false =>
      have hsame : bits.set i false = bits := by
        rw [← hbit]
        exact List.set_getElem_self hi
      rw [if_neg Bool.false_ne_true, hsame]
  · rw [List.getElem?_eq_none (by omega), Option.bind_none]

/-- Some bits of an array are set, and no others. -/
theorem foldlM_setBit (bValue : Bool) (is : List ℕ) (bits : List Bool) (hall : ∀ i ∈ is, i < bits.length) :
    ∃ bits', is.foldlM (fun bits Index => setBit bits bValue Index) bits = some bits' ∧
      bits'.length = bits.length ∧ ∀ i, bits'[i]? = if i ∈ is then some bValue else bits[i]? := by
  induction is generalizing bits with
  | nil => exact ⟨bits, rfl, rfl, fun i => (if_neg List.not_mem_nil).symm⟩
  | cons Index rest ih =>
    have hIndex := hall Index List.mem_cons_self
    obtain ⟨bits', hfold, hlength, hget⟩ := ih (bits.set Index bValue)
      (fun i hi => by rw [List.length_set]; exact hall i (List.mem_cons_of_mem _ hi))
    refine ⟨bits', ?_, hlength.trans List.length_set, fun i => ?_⟩
    · rw [List.foldlM_cons, setBit_of_lt hIndex]
      exact hfold
    · rw [hget, List.getElem?_set]
      by_cases hrest : i ∈ rest
      · rw [if_pos hrest, if_pos (List.mem_cons_of_mem _ hrest)]
      · rw [if_neg hrest]
        by_cases hi : Index = i
        · rw [if_pos hi, if_pos (hi ▸ hIndex), if_pos (hi ▸ List.mem_cons_self)]
        · rw [if_neg hi, if_neg]
          exact fun hmem => (List.mem_cons.mp hmem).elim (fun he => hi he.symm) hrest

/-- All bits of some indices of an array are set, or one of them is not. -/
theorem allBits_eq (bits : List Bool) (is : List ℕ) (hall : ∀ i ∈ is, i < bits.length) :
    ∃ bResult, allBits bits is = some bResult ∧ (bResult = true ↔ ∀ i ∈ is, bits[i]? = some true) := by
  induction is with
  | nil => exact ⟨true, rfl, iff_of_true rfl fun i hi => absurd hi List.not_mem_nil⟩
  | cons Index rest ih =>
    have hIndex := hall Index List.mem_cons_self
    obtain ⟨bRest, hrest, hiff⟩ := ih fun i hi => hall i (List.mem_cons_of_mem _ hi)
    have hget : bits[Index]? = some bits[Index] := List.getElem?_eq_getElem hIndex
    rw [allBits, testBit, hget, Option.bind_some]
    cases hbit : bits[Index] with
    | true =>
      refine ⟨bRest, by rw [if_pos rfl, hrest], ?_⟩
      rw [List.forall_mem_cons, hget, hbit, hiff]
      exact (and_iff_right rfl).symm
    | false =>
      refine ⟨false, if_neg Bool.false_ne_true, ?_⟩
      rw [List.forall_mem_cons, hget, hbit]
      exact iff_of_false Bool.false_ne_true fun hc => Bool.false_ne_true (Option.some.inj hc.1)

/-- The bits of a range are tested: they are all set, and there are bits. -/
theorem testBits_eq {bits : List Bool} {range : ℕ × ℕ} (hall : ∀ i ∈ indices range, i < bits.length) :
    ∃ bResult, testBits bits range = some bResult ∧
      (bResult = true ↔ bits ≠ [] ∧ ∀ i ∈ indices range, bits.getD i false = true) := by
  rw [testBits]
  split_ifs with hempty
  · exact ⟨false, rfl, iff_of_false Bool.false_ne_true fun hc => hc.1 (List.isEmpty_iff.mp hempty)⟩
  · obtain ⟨bResult, hbits, hiff⟩ := allBits_eq bits (indices range) hall
    refine ⟨bResult, hbits, hiff.trans ?_⟩
    rw [and_iff_right (mt List.isEmpty_iff.mpr hempty)]
    refine forall₂_congr fun i hi => ?_
    rw [List.getD_eq_getElem?_getD, List.getElem?_eq_getElem (hall i hi), Option.getD_some]
    exact Option.some_inj

end Bits

section Results

/-- There are no bits yet, or one for each block: what the functions assert. -/
def Sized (h : CFileHashEx) (s : Status) : Prop :=
  s.statusMap = [] ∨ s.statusMap.length = getStatusCount h

/-- The bit of a block: not set if there are no bits yet. -/
def bitOf (s : Status) (i : ℕ) : Bool := s.statusMap.getD i false

variable {s : Status} (hs : SizesOk h) (hsized : Sized h s) {uBegin uEnd : ℕ}
variable (hlt : uBegin < uEnd) (hend : uEnd ≤ h.totalSize)

theorem resized_length (hsized : Sized h s) : (resized h s).length = getStatusCount h := by
  rw [resized]
  split_ifs with hempty
  · exact List.length_replicate
  · rcases hsized with hnil | hlength
    · rw [hnil] at hempty
      exact absurd rfl hempty
    · exact hlength

theorem resized_getD (h : CFileHashEx) (s : Status) (i : ℕ) : (resized h s).getD i false = bitOf s i := by
  rw [resized, bitOf]
  split_ifs with hempty
  · rw [List.isEmpty_iff.mp hempty, List.getD_nil, List.getD_eq_getElem?_getD, List.getElem?_replicate]
    split_ifs <;> rfl
  · rfl

include hs hsized hlt hend

theorem lt_resized_length {i : ℕ} (hi : i ∈ indices (indexRange h uBegin uEnd true)) : i < (resized h s).length := by
  rw [resized_length hsized]
  exact lt_getStatusCount_of_mem hs hlt hend ((mem_indices_iff _ i).mp hi).2

/-- The bits of the blocks that a range meets are set, and no others. -/
theorem foldlM_range (bValue : Bool) : ∃ bits, (indices (indexRange h uBegin uEnd true)).foldlM
      (fun bits Index => setBit bits bValue Index) (resized h s) = some bits ∧
    bits.length = getStatusCount h ∧ ∀ i, (Meets h uBegin uEnd i → bits.getD i false = bValue) ∧
      (¬Meets h uBegin uEnd i → bits.getD i false = bitOf s i) := by
  obtain ⟨bits, hfold, hlength, hget⟩ := foldlM_setBit bValue (indices (indexRange h uBegin uEnd true)) (resized h s)
    fun i hi => lt_resized_length hs hsized hlt hend hi
  refine ⟨bits, hfold, hlength.trans (resized_length hsized), fun i => ?_⟩
  rw [← mem_envelope_iff hs hlt hend, ← mem_indices_iff, List.getD_eq_getElem?_getD, hget]
  constructor
  · intro hi
    rw [if_pos hi]
    rfl
  · intro hi
    rw [if_neg hi, ← List.getD_eq_getElem?_getD, resized_getD]

theorem setResult_spec (bResult : Bool) : ∃ s', setResult h s bResult uBegin uEnd = some s' ∧
    Sized h s' ∧ (∀ i, (Meets h uBegin uEnd i → bitOf s' i = bResult) ∧
      (¬Meets h uBegin uEnd i → bitOf s' i = bitOf s i)) ∧
    s'.corruptionSet = if bResult then s.corruptionSet else s.corruptionSet ++ [(uBegin, uEnd)] := by
  obtain ⟨bits, hfold, hlength, hget⟩ := foldlM_range hs hsized hlt hend bResult
  refine ⟨⟨bits, if bResult then s.corruptionSet else s.corruptionSet ++ [(uBegin, uEnd)]⟩, ?_,
    Or.inr hlength, hget, rfl⟩
  rw [setResult, hfold, Option.map_some]

theorem clearResult_spec : ∃ s', clearResult h s uBegin uEnd = some s' ∧
    Sized h s' ∧ (∀ i, (Meets h uBegin uEnd i → bitOf s' i = false) ∧
      (¬Meets h uBegin uEnd i → bitOf s' i = bitOf s i)) := by
  have hclear : clearBit = fun bits Index => setBit bits false Index :=
    funext fun bits => funext fun i => clearBit_eq bits i
  obtain ⟨bits, hfold, hlength, hget⟩ := foldlM_range hs hsized hlt hend false
  refine ⟨⟨bits, s.corruptionSet.filter fun I => ¬(I.1 < uEnd ∧ I.2 > uBegin)⟩, ?_, Or.inr hlength, hget⟩
  rw [clearResult, hclear, hfold, Option.map_some]

/-- `GetResult` tells whether all of them are set. -/
theorem getResult_spec : ∃ bResult, getResult h s uBegin uEnd = some bResult ∧
    (bResult = true ↔ ∀ i, Meets h uBegin uEnd i → bitOf s i = true) := by
  by_cases hempty : s.statusMap = []
  · obtain ⟨i, hi⟩ := exists_meets hs hlt hend
    refine ⟨false, by rw [getResult, hempty]; rfl, iff_of_false Bool.false_ne_true fun hc => ?_⟩
    have hbit := hc i hi
    rw [bitOf, hempty] at hbit
    exact Bool.false_ne_true hbit
  · have hsame : resized h s = s.statusMap := if_neg (mt List.isEmpty_iff.mp hempty)
    obtain ⟨bResult, htest, hiff⟩ := testBits_eq fun i hi => hsame ▸ lt_resized_length hs hsized hlt hend hi
    refine ⟨bResult, htest, hiff.trans ?_⟩
    rw [and_iff_right hempty]
    refine forall_congr' fun i => ?_
    rw [mem_indices_iff, mem_envelope_iff hs hlt hend]
    rfl

end Results

end Blocks

section Claim

/-- What is said about the ranges of blocks. -/
def Exact (h : CFileHashEx) (uBegin uEnd : ℕ) : Prop :=
  (∀ i, i ∈ indices (indexRange h uBegin uEnd true) ↔ Meets h uBegin uEnd i) ∧
  (∀ i, i ∈ indices (indexRange h uBegin uEnd false) ↔ Inside h uBegin uEnd i) ∧
  (∀ i < getStatusCount h, ∀ bEnvelope, indexRange h (indexOffset h i) (indexOffset h (i + 1)) bEnvelope = (i, i + 1)) ∧
  ∀ s, Sized h s → (∀ bResult, ∃ s', setResult h s bResult uBegin uEnd = some s' ∧ Sized h s') ∧
    (∃ s', clearResult h s uBegin uEnd = some s' ∧ Sized h s') ∧
    ∃ bResult, getResult h s uBegin uEnd = some bResult

end Claim

end NeoLoader.BlockIndex
