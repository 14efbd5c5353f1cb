import NeoLoader.FileReads
import NeoLoader.HashTreeSplits
import NeoLoader.SharedRanges

/-!
# Verifying a file with its hash tree

The verification walks the stored tree and compares each leaf in the window with the data of its
range. In part mode it asks the map of the file whether the range is available, and looks for what is
not verified yet before it enters a subtree. The last block of a torrent ends behind the end of the
file, where the map has no state.
-/

namespace NeoLoader.HashTreeVerify

open StepFunction Tiling RangeMap PartStates SharedRanges MerkleTree HashTree SHashTreeNode
open HashTreeRanges HashTreeCalculation HashTreeSplits

inductive EHashingMode where
  | eVerifyParts
  | eVerifyFile
  | eRecoverParts
  deriving DecidableEq

/-- The results of a hash. -/
structure Status where
  /-- `m_StatusMap`: one bit for each block, or no bits at all. -/
  statusMap : List Bool
  /-- `m_CorruptionSet`: the ranges that failed. -/
  corruptionSet : List (ℕ × ℕ)

section Results

variable {α : Type*} (tree : CFileHashTree α)

/-- `CFileHashEx::GetStatusCount`. -/
def getStatusCount : ℕ :=
  let uPartSize := tree.partSize.getD 0
  let uBlockCount := if tree.blockSize ≠ 0 then divUp uPartSize tree.blockSize % 2 ^ 16 else 1
  (if uPartSize ≠ 0 ∧ tree.blockSize ≠ 0 then
    tree.totalSize / uPartSize * uBlockCount + divUp (tree.totalSize % uPartSize) tree.blockSize
  else divUp tree.totalSize (if uPartSize ≠ 0 then uPartSize else tree.blockSize)) % 2 ^ 32

/-- `CFileHashEx::IndexRange`. -/
def indexRange (uBegin uEnd : ℕ) (bEnvelope : Bool) : ℕ × ℕ :=
  let uBlockCount := if tree.blockSize ≠ 0 ∧ tree.partSize.getD 0 ≠ 0 then
    divUp (tree.partSize.getD 0) tree.blockSize % 2 ^ 16 else 0
  let uPartSize := if tree.partSize.getD 0 = 0 then tree.blockSize else tree.partSize.getD 0
  let first := if uBlockCount ≠ 0 then
      uBegin / uPartSize * uBlockCount + if bEnvelope then uBegin % uPartSize / tree.blockSize
        else divUp (uBegin % uPartSize) tree.blockSize
    else if bEnvelope then uBegin / uPartSize else divUp uBegin uPartSize
  let second := if uBlockCount ≠ 0 then
      uEnd / uPartSize * uBlockCount + if bEnvelope ∨ uEnd ≥ tree.totalSize then
        divUp (uEnd % uPartSize) tree.blockSize else uEnd % uPartSize / tree.blockSize
    else if bEnvelope ∨ uEnd ≥ tree.totalSize then divUp uEnd uPartSize else uEnd / uPartSize
  if first % 2 ^ 32 ≥ second % 2 ^ 32 then (second % 2 ^ 32, second % 2 ^ 32)
  else (first % 2 ^ 32, second % 2 ^ 32)

/-- `testBits`, with what lies behind the bits. -/
def testBits (memory : ℕ → Bool) (bits : List Bool) (range : ℕ × ℕ) : Bool :=
  if bits.isEmpty then false
  else (List.range' range.1 (range.2 - range.1)).all fun Index => bits[Index]?.getD (memory Index)

/-- `CFileHashEx::GetResult`. -/
def getResult (memory : ℕ → Bool) (uBegin uEnd : ℕ) (s : Status) : Bool :=
  testBits memory s.statusMap (indexRange tree uBegin uEnd true)

/-- Set some bits. -/
def setBits (bValue : Bool) (bits : List Bool) (range : ℕ × ℕ) : List Bool :=
  (List.range' range.1 (range.2 - range.1)).foldl (fun bits Index => bits.set Index bValue) bits

/-- `CFileHashEx::SetResult`. -/
def setResult (bResult : Bool) (uBegin uEnd : ℕ) (s : Status) : Status where
  statusMap := setBits bResult (if s.statusMap.isEmpty then List.replicate (getStatusCount tree) false else s.statusMap)
    (indexRange tree uBegin uEnd true)
  corruptionSet := if bResult then s.corruptionSet else s.corruptionSet ++ [(uBegin, uEnd)]

/-- `CFileHashEx::ResetStatus`. -/
def resetStatus (bFull : Bool) (s : Status) : Status where
  statusMap := if bFull then [] else s.statusMap
  corruptionSet := []

end Results

section Verification

variable {α : Type*} [DecidableEq α] (H : CHashFunction α) (tree : CFileHashTree α)
variable (file : List UInt8) (parts : CRangeMap SPartRange) (memory : ℕ → Bool)
variable (uFrom uTo : ℕ) (Mode : EHashingMode)

/-- The loop of `CFileHashTree::VerifyBranche` for an available range in the window that has a bit
that is not set. -/
def findsPart (uBegin uEnd : ℕ) (s : Status) : Bool :=
  (rangesOf partMapOps parts uBegin uEnd (SPartRange.ofStates 0)).any fun range =>
    decide (uFrom < range.last ∧ uTo > range.first) && decide (range.value.and Part.Available ≠ 0) &&
        !getResult tree memory range.first range.last s

/-- `CFileHashTree::VerifyBranche` for a leaf, or a node without children. -/
def verifyLeaf (pHash : α) (uBegin uEnd : ℕ) (Balance : EBalance) (bLeaf : Bool) (s : Status) :
    Status :=
  if ¬(uFrom < uEnd ∧ uTo > uBegin) then s
  else if Mode = EHashingMode.eVerifyParts ∧ (getResult tree memory uBegin uEnd s = true ∨
      (parts.getRange partMapOps uBegin uEnd EMerge.eInter (SPartRange.ofStates 0)).and Part.Available = 0) then s
  else
    let TestBranche := if bLeaf then some (calculateLeaf H file uBegin uEnd)
      else calculateRange H tree file uBegin uEnd Balance 1
    let bResult := decide (TestBranche.map H.hashOf = some pHash)
    let uEnd := if uEnd > tree.totalSize then tree.totalSize else uEnd
    if Mode ≠ EHashingMode.eRecoverParts ∨ bResult then setResult tree bResult uBegin uEnd s else s

/-- `CFileHashTree::VerifyBranche`. -/
def verifyBranche : SHashTreeNode α → ℕ → ℕ → EBalance → Status → Bool × Status
  | null, uBegin, _, _, s => (decide (uBegin > tree.totalSize), s)
  | node pHash Left Right, uBegin, uEnd, Balance, s =>
    let BrancheSize := getBrancheSize tree uBegin uEnd Balance
    if uBegin > tree.totalSize then (true, s)
    else if BrancheSize ≥ uEnd - uBegin ∨ (node pHash Left Right).IsLeaf then
      (true, verifyLeaf H tree file parts memory uFrom uTo Mode pHash uBegin uEnd Balance
        (decide (BrancheSize ≥ uEnd - uBegin)) s)
    else if Mode = EHashingMode.eVerifyParts ∧
        findsPart tree parts memory uFrom uTo uBegin uEnd s = false then (true, s)
    else
      match verifyBranche Left uBegin (uBegin + BrancheSize) EBalance.eLeft s with
      | (false, s) => (false, s)
      | (true, s) => verifyBranche Right (uBegin + BrancheSize) uEnd EBalance.eRight s

/-- `CFileHashTree::Verify`. -/
def verify (s : Status) : Bool × Status :=
  match tree.treeRoot with
  | null => (false, resetStatus false s)
  | TreeRoot => verifyBranche H tree file parts memory uFrom uTo Mode TreeRoot 0 (getTreeSize tree)
      EBalance.eLeft (resetStatus false s)

end Verification

section Blocks

variable {α : Type*} (tree : CFileHashTree α)

/-- The block of a byte, counted from the begin of the file. -/
def firstBlock (x : ℕ) : ℕ :=
  x / partLength tree * divUp (partLength tree) tree.blockSize + x % partLength tree / tree.blockSize

/-- The number of blocks that begin before an offset. -/
def lastBlock (x : ℕ) : ℕ :=
  x / partLength tree * divUp (partLength tree) tree.blockSize + divUp (x % partLength tree) tree.blockSize

/-- The sizes of a file fit in the types that hold them. -/
structure SizesOk (tree : CFileHashTree α) : Prop extends LengthsOk tree where
  /-- The blocks of a part are counted by an `uint16`. -/
  blocks : divUp (partLength tree) tree.blockSize < 2 ^ 16
  /-- The bits are counted by an `int`. -/
  bits : lastBlock tree tree.totalSize < 2 ^ 31
  /-- The size of a file is a `qint64`. -/
  size : tree.totalSize < 2 ^ 63
  /-- Only AICH has parts. -/
  parts : tree.partSize = none ∨ tree.eType = EFileHashType.HashMule

variable {tree}

theorem div_le_divUp {value : ℕ} (hpos : 0 < value) (size : ℕ) : size / value ≤ divUp size value :=
  Nat.div_le_div_right (by omega)

theorem divUp_of_dvd {size value : ℕ} (hpos : 0 < value) (hdvd : value ∣ size) : divUp size value = size / value := by
  obtain ⟨k, rfl⟩ := hdvd
  rw [Nat.mul_div_cancel_left k hpos]
  rcases Nat.eq_zero_or_pos k with rfl | hk
  · rw [Nat.mul_zero, divUp, Nat.div_eq_zero_iff]
    omega
  · obtain ⟨j, rfl⟩ : ∃ j, k = j + 1 := ⟨k - 1, by omega⟩
    rw [Nat.mul_comm]
    exact divUp_eq (Nat.mul_lt_mul_of_pos_right (Nat.lt_succ_self j) hpos) le_rfl

theorem div_lt_divUp_succ {value : ℕ} (hpos : 0 < value) (size : ℕ) : size / value < divUp (size + 1) value := by
  have hadd : size + 1 + value - 1 = size + value := by omega
  rw [divUp, hadd, Nat.add_div_right size hpos]
  exact Nat.lt_succ_self _

section

variable (hl : LengthsOk tree)

include hl

theorem firstBlock_le_lastBlock (x : ℕ) : firstBlock tree x ≤ lastBlock tree x :=
  Nat.add_le_add_left (div_le_divUp hl.block _) _

theorem lastBlock_lt_part {x k : ℕ} (hlt : x / partLength tree < k) :
    lastBlock tree x ≤ k * divUp (partLength tree) tree.blockSize := by
  have hmod := Nat.mod_lt x hl.partLength_pos
  have hmono := divUp_mono tree.blockSize hmod.le
  obtain ⟨d, rfl⟩ : ∃ d, k = x / partLength tree + 1 + d := ⟨k - (x / partLength tree + 1), by omega⟩
  rw [lastBlock, Nat.add_mul, Nat.add_mul, Nat.one_mul]
  omega

/-- Later offsets have no fewer blocks before them. -/
theorem lastBlock_mono {x y : ℕ} (hle : x ≤ y) : lastBlock tree x ≤ lastBlock tree y := by
  have hdiv := Nat.div_le_div_right (c := partLength tree) hle
  rcases Nat.lt_or_ge (x / partLength tree) (y / partLength tree) with hlt | hge
  · exact (lastBlock_lt_part hl hlt).trans (Nat.le_add_right _ _)
  · have heq : x / partLength tree = y / partLength tree := le_antisymm hdiv hge
    have hx := Nat.div_add_mod x (partLength tree)
    have hy := Nat.div_add_mod y (partLength tree)
    rw [heq] at hx
    rw [lastBlock, lastBlock, heq]
    exact Nat.add_le_add_left (divUp_mono _ (by omega)) _

/-- A block that a range begins in begins before the end of the range. -/
theorem firstBlock_lt_lastBlock {x y : ℕ} (hlt : x < y) : firstBlock tree x < lastBlock tree y := by
  refine lt_of_lt_of_le ?_ (lastBlock_mono hl (show x + 1 ≤ y from hlt))
  have hpos := hl.partLength_pos
  have hmod := Nat.mod_lt x hpos
  have hx := Nat.div_add_mod' x (partLength tree)
  by_cases hend : x % partLength tree + 1 = partLength tree
  · have hnext : x + 1 = (x / partLength tree + 1) * partLength tree := by
      rw [Nat.add_mul]
      omega
    have hlast := div_lt_divUp_succ hl.block (x % partLength tree)
    rw [hend] at hlast
    rw [firstBlock, lastBlock, hnext, Nat.mul_div_cancel _ hpos, Nat.mul_mod_left, Nat.add_mul, Nat.one_mul]
    omega
  · have hdiv : (x + 1) / partLength tree = x / partLength tree := by
      rw [Nat.div_eq_iff hpos]
      omega
    have hrest : (x + 1) % partLength tree = x % partLength tree + 1 := by
      have hy := Nat.div_add_mod' (x + 1) (partLength tree)
      rw [hdiv] at hy
      omega
    rw [firstBlock, lastBlock, hdiv, hrest]
    exact Nat.add_lt_add_left (div_lt_divUp_succ hl.block _) _

theorem lastBlock_aligned {x : ℕ} (hx : tree.blockSize ∣ x % partLength tree) :
    lastBlock tree x = firstBlock tree x := by
  rw [lastBlock, firstBlock, divUp_of_dvd hl.block hx]

/-- Later offsets lie in no earlier block. -/
theorem firstBlock_mono {x y : ℕ} (hle : x ≤ y) : firstBlock tree x ≤ firstBlock tree y := by
  rcases Nat.eq_or_lt_of_le hle with rfl | hlt
  · exact le_rfl
  have hdiv := Nat.div_le_div_right (c := partLength tree) hle
  rcases Nat.lt_or_ge (x / partLength tree) (y / partLength tree) with hpart | hge
  · exact ((firstBlock_le_lastBlock hl x).trans (lastBlock_lt_part hl hpart)).trans (Nat.le_add_right _ _)
  · have heq : x / partLength tree = y / partLength tree := le_antisymm hdiv hge
    have hx := Nat.div_add_mod x (partLength tree)
    have hy := Nat.div_add_mod y (partLength tree)
    rw [heq] at hx
    rw [firstBlock, firstBlock, heq]
    exact Nat.add_le_add_left (Nat.div_le_div_right (by omega)) _

/-- Each block of a range has a byte of the range. -/
theorem exists_byte {uBegin uEnd Index : ℕ} (hlt : uBegin < uEnd)
    (hge : firstBlock tree uBegin ≤ Index) (hi : Index < lastBlock tree uEnd) :
    ∃ x, uBegin ≤ x ∧ x < uEnd ∧ firstBlock tree x ≤ Index ∧ Index < lastBlock tree (x + 1) := by
  induction uEnd, hlt using Nat.le_induction with
  | base => exact ⟨uBegin, le_rfl, Nat.lt_succ_self _, hge, hi⟩
  | succ uEnd hlt ih =>
    by_cases hbefore : Index < lastBlock tree uEnd
    · obtain ⟨x, hx, hend, hfirst, hlast⟩ := ih hbefore
      exact ⟨x, hx, by omega, hfirst, hlast⟩
    · have hfirst := firstBlock_le_lastBlock hl uEnd
      exact ⟨uEnd, by omega, Nat.lt_succ_self _, by omega, hi⟩

end

end Blocks

section Marks

variable {α : Type*} {tree : CFileHashTree α} {memory : ℕ → Bool}

/-- The bit of a block. -/
def Status.bit (s : Status) (Index : ℕ) : Bool := s.statusMap[Index]?.getD false

/-- There are no bits, or one for each block. -/
def StatusOk (tree : CFileHashTree α) (s : Status) : Prop :=
  s.statusMap = [] ∨ s.statusMap.length = getStatusCount tree

/-- All bits of a range are set. -/
def Marked (tree : CFileHashTree α) (s : Status) (uBegin uEnd : ℕ) : Prop :=
  ∀ Index, firstBlock tree uBegin ≤ Index → Index < lastBlock tree uEnd → s.bit Index = true

/-- Without parts the blocks are counted one by one. -/
theorem lastBlock_eq (hl : LengthsOk tree) (hpart : tree.partSize = none) (x : ℕ) :
    lastBlock tree x = divUp x tree.blockSize := by
  have hlen : partLength tree = tree.blockSize := by rw [partLength, hpart, Option.getD_none]
  have hone : divUp tree.blockSize tree.blockSize = 0 + 1 :=
    divUp_eq (by rw [Nat.zero_mul]; exact hl.block) (by omega)
  have hx := Nat.div_add_mod' x tree.blockSize
  have hmod := Nat.mod_lt x hl.block
  rw [lastBlock, hlen, hone, Nat.zero_add, Nat.mul_one]
  by_cases hrest : x % tree.blockSize = 0
  · rw [hrest, divUp_of_dvd hl.block (Nat.dvd_zero _), Nat.zero_div, Nat.add_zero,
      divUp_of_dvd hl.block (Nat.dvd_of_mod_eq_zero hrest)]
  · rw [divUp_eq (c := 0) (by omega) (by omega)]
    exact (divUp_eq (by omega) (by rw [Nat.add_mul]; omega)).symm

theorem firstBlock_eq (hl : LengthsOk tree) (hpart : tree.partSize = none) (x : ℕ) :
    firstBlock tree x = x / tree.blockSize := by
  have hlen : partLength tree = tree.blockSize := by rw [partLength, hpart, Option.getD_none]
  have hone : divUp tree.blockSize tree.blockSize = 0 + 1 :=
    divUp_eq (by rw [Nat.zero_mul]; exact hl.block) (by omega)
  rw [firstBlock, hlen, hone, Nat.zero_add, Nat.mul_one, Nat.div_eq_of_lt (Nat.mod_lt x hl.block), Nat.add_zero]

/-- The number of bits is that of the blocks. -/
theorem getStatusCount_eq (h : SizesOk tree) : getStatusCount tree = lastBlock tree tree.totalSize := by
  have hbits := h.bits
  have hblock := h.block.ne'
  unfold getStatusCount
  cases hp : tree.partSize with
  | none =>
    rw [lastBlock_eq h.toLengthsOk hp] at hbits ⊢
    dsimp only
    rw [Option.getD_none, if_neg (fun hne => hne.1 rfl), if_neg (fun hne => hne rfl), Nat.mod_eq_of_lt (by omega)]
  | some PartSize =>
    have hlen : partLength tree = PartSize := by rw [partLength, hp, Option.getD_some]
    have hsmall := h.blocks
    have hpos := h.part PartSize hp
    rw [lastBlock, hlen] at hbits ⊢
    rw [hlen] at hsmall
    dsimp only
    rw [Option.getD_some, if_pos ⟨hpos.ne', hblock⟩, if_pos hblock, Nat.mod_eq_of_lt hsmall,
      Nat.mod_eq_of_lt (by omega)]

variable {uBegin uEnd : ℕ}

/-- The bits of a range of the file. -/
theorem indexRange_eq (h : SizesOk tree) (hlt : uBegin < uEnd) (hend : uEnd ≤ tree.totalSize) :
    indexRange tree uBegin uEnd true = (firstBlock tree uBegin, lastBlock tree uEnd) := by
  have hl := h.toLengthsOk
  have hbits := h.bits
  have hblock := h.block.ne'
  have hindex := firstBlock_lt_lastBlock hl hlt
  have hmono := lastBlock_mono hl hend
  have hfirst : firstBlock tree uBegin % 2 ^ 32 = firstBlock tree uBegin := Nat.mod_eq_of_lt (by omega)
  have hlast : lastBlock tree uEnd % 2 ^ 32 = lastBlock tree uEnd := Nat.mod_eq_of_lt (by omega)
  unfold indexRange
  cases hp : tree.partSize with
  | none =>
    rw [firstBlock_eq hl hp] at hfirst hindex ⊢
    rw [lastBlock_eq hl hp] at hlast hindex ⊢
    simp only [and_false, if_false, if_true, true_or, ne_eq, not_true_eq_false, Option.getD_none]
    rw [hfirst, hlast, if_neg (by omega)]
  | some PartSize =>
    have hlen : partLength tree = PartSize := by rw [partLength, hp, Option.getD_some]
    have hsmall := h.blocks
    have hpos := (h.part PartSize hp).ne'
    obtain ⟨d, hd, -, -⟩ := divUp_spec (h.part PartSize hp) h.block
    have hcount : divUp PartSize tree.blockSize ≠ 0 := by omega
    rw [firstBlock, hlen] at hfirst hindex ⊢
    rw [lastBlock, hlen] at hlast hindex ⊢
    rw [hlen] at hsmall
    simp only [Option.getD_some, ne_eq, hblock, hpos, not_false_eq_true, and_self, if_true,
      true_or, if_false, Nat.mod_eq_of_lt hsmall, hcount]
    rw [hfirst, hlast, if_neg (by omega)]

/-- A range of the file is verified if and only if all its bits are set. -/
theorem getResult_iff (h : SizesOk tree) {s : Status} (hs : StatusOk tree s)
    (hlt : uBegin < uEnd) (hend : uEnd ≤ tree.totalSize) :
    getResult tree memory uBegin uEnd s = true ↔ Marked tree s uBegin uEnd := by
  have hindex := firstBlock_lt_lastBlock h.toLengthsOk hlt
  have hmono := lastBlock_mono h.toLengthsOk hend
  rw [getResult, indexRange_eq h hlt hend, testBits]
  rcases hs with hempty | hlen
  · rw [hempty, List.isEmpty_nil, if_pos rfl]
    refine ⟨fun hf => Bool.noConfusion hf, fun hm => ?_⟩
    have hfirst := hm _ le_rfl hindex
    rw [Status.bit, hempty, List.getElem?_nil] at hfirst
    exact Bool.noConfusion hfirst
  · rw [getStatusCount_eq h] at hlen
    have hne : s.statusMap.isEmpty = false := by
      rw [List.isEmpty_eq_false_iff, ← List.length_pos_iff]
      omega
    rw [hne, if_neg Bool.false_ne_true, List.all_eq_true]
    have hbit : ∀ Index < lastBlock tree uEnd,
        s.statusMap[Index]?.getD (memory Index) = s.bit Index := fun Index hi => by
      rw [Status.bit, List.getElem?_eq_getElem (by omega), Option.getD_some, Option.getD_some]
    constructor
    · intro hall Index hge hi
      rw [← hbit Index hi]
      exact hall Index (List.mem_range'_1.mpr ⟨hge, by omega⟩)
    · intro hm Index hi
      obtain ⟨hge, hi⟩ := List.mem_range'_1.mp hi
      rw [hbit Index (by omega)]
      exact hm Index hge (by omega)

theorem length_setBits (bValue : Bool) (bits : List Bool) (range : ℕ × ℕ) :
    (setBits bValue bits range).length = bits.length := by
  unfold setBits
  generalize List.range' range.1 (range.2 - range.1) = indices
  induction indices generalizing bits with
  | nil => rfl
  | cons Index rest ih => rw [List.foldl_cons, ih, List.length_set]

theorem getElem?_setBits (bValue : Bool) (bits : List Bool) (range : ℕ × ℕ) (i : ℕ) :
    (setBits bValue bits range)[i]? = if i ∈ List.range' range.1 (range.2 - range.1) ∧ i < bits.length
      then some bValue else bits[i]? := by
  unfold setBits
  generalize List.range' range.1 (range.2 - range.1) = indices
  induction indices generalizing bits with
  | nil => exact (if_neg fun h => by cases h.1).symm
  | cons Index rest ih =>
    rw [List.foldl_cons, ih, List.length_set]
    by_cases hrest : i ∈ rest ∧ i < bits.length
    · rw [if_pos hrest, if_pos ⟨List.mem_cons_of_mem _ hrest.1, hrest.2⟩]
    · rw [if_neg hrest, List.getElem?_set]
      by_cases hi : Index = i
      · subst hi
        by_cases hlen : Index < bits.length
        · rw [if_pos rfl, if_pos hlen, if_pos ⟨List.mem_cons_self, hlen⟩]
        · rw [if_pos rfl, if_neg hlen, if_neg (fun h => hlen h.2), List.getElem?_eq_none (by omega)]
      · rw [if_neg hi, if_neg fun h => hrest ⟨(List.mem_cons.mp h.1).resolve_left (Ne.symm hi), h.2⟩]

/-- What setting the result of a range of the file does. -/
theorem setResult_spec (h : SizesOk tree) {s : Status} (hs : StatusOk tree s)
    (bResult : Bool) (hlt : uBegin < uEnd) (hend : uEnd ≤ tree.totalSize) :
    StatusOk tree (setResult tree bResult uBegin uEnd s) ∧ ∀ Index, (setResult tree bResult uBegin uEnd s).bit Index =
        if firstBlock tree uBegin ≤ Index ∧ Index < lastBlock tree uEnd then bResult
        else s.bit Index := by
  have hmono := lastBlock_mono h.toLengthsOk hend
  have hcount := getStatusCount_eq h
  have hlen : (if s.statusMap.isEmpty then List.replicate (getStatusCount tree) false
      else s.statusMap).length = getStatusCount tree := by
    split_ifs with hempty
    · exact List.length_replicate
    · refine hs.resolve_left fun he => hempty ?_
      rw [he]
      rfl
  have hbits : ∀ Index, (if s.statusMap.isEmpty then List.replicate (getStatusCount tree) false
      else s.statusMap)[Index]?.getD false = s.bit Index := by
    intro Index
    split_ifs with hempty
    · rw [Status.bit, List.isEmpty_iff.mp hempty, List.getElem?_nil, List.getElem?_replicate]
      split_ifs <;> rfl
    · rfl
  refine ⟨Or.inr ?_, fun Index => ?_⟩
  · rw [setResult, length_setBits, hlen]
  · rw [Status.bit, setResult, indexRange_eq h hlt hend, getElem?_setBits, hlen]
    by_cases hin : firstBlock tree uBegin ≤ Index ∧ Index < lastBlock tree uEnd
    · rw [if_pos ⟨List.mem_range'_1.mpr ⟨hin.1, by omega⟩, by omega⟩, if_pos hin, Option.getD_some]
    · rw [if_neg fun hi => hin ?_, if_neg hin, hbits]
      obtain ⟨hge, hlast⟩ := List.mem_range'_1.mp hi.1
      exact ⟨hge, by omega⟩

end Marks

section Leaves

variable {α : Type*} {tree : CFileHashTree α}

/-- A leaf of the stored tree, or a node without children, with its range. -/
structure StoredLeaf (α : Type*) where
  /-- First offset of the range. -/
  uBegin : ℕ
  /-- First offset after the range. -/
  uEnd : ℕ
  /-- Which child it is. -/
  Balance : EBalance
  /-- The stored hash. -/
  pHash : α
  deriving DecidableEq

/-- The leaves of the stored tree, in the order of the file. -/
def storedLeaves (tree : CFileHashTree α) : SHashTreeNode α → ℕ → ℕ → EBalance → List (StoredLeaf α)
  | null, _, _, _ => []
  | node pHash Left Right, uBegin, uEnd, Balance =>
    if getBrancheSize tree uBegin uEnd Balance ≥ uEnd - uBegin ∨ (node pHash Left Right).IsLeaf then
      [⟨uBegin, uEnd, Balance, pHash⟩]
    else storedLeaves tree Left uBegin (uBegin + getBrancheSize tree uBegin uEnd Balance) EBalance.eLeft ++
      storedLeaves tree Right (uBegin + getBrancheSize tree uBegin uEnd Balance) uEnd EBalance.eRight

/-- The end of a leaf, as far as the file goes. -/
def StoredLeaf.fileEnd (tree : CFileHashTree α) (leaf : StoredLeaf α) : ℕ :=
  min leaf.uEnd tree.totalSize

/-- A range of whole parts begins with a part, and a shorter one with a block in a part. -/
structure Aligned (tree : CFileHashTree α) (uBegin uEnd : ℕ) : Prop where
  /-- The range begins with a block. -/
  block : tree.blockSize ∣ uBegin % partLength tree
  /-- It begins with a part or lies in one. -/
  part : partLength tree ∣ uBegin ∨ uBegin % partLength tree + (uEnd - uBegin) ≤ partLength tree

theorem aligned_zero (tree : CFileHashTree α) (uEnd : ℕ) : Aligned tree 0 uEnd where
  block := by
    rw [Nat.zero_mod]
    exact Nat.dvd_zero _
  part := Or.inl (Nat.dvd_zero _)

variable {uBegin uEnd : ℕ}

/-- Both halves of a range are as aligned as the range. -/
theorem Aligned.split (h : Aligned tree uBegin uEnd)
    {Balance : EBalance} (hsplit : getBrancheSize tree uBegin uEnd Balance < uEnd - uBegin) :
    Aligned tree uBegin (uBegin + getBrancheSize tree uBegin uEnd Balance) ∧
      Aligned tree (uBegin + getBrancheSize tree uBegin uEnd Balance) uEnd := by
  obtain ⟨k, hk⟩ : ∃ k, getBrancheSize tree uBegin uEnd Balance = k * blockOf tree (uEnd - uBegin) := by
    rw [getBrancheSize_toInt] at hsplit ⊢
    split_ifs at hsplit ⊢
    · exact absurd hsplit (lt_irrefl _)
    · exact ⟨_, rfl⟩
  rw [hk] at hsplit ⊢
  have hblock := h.block
  have hpart := h.part
  rw [blockOf_eq] at hsplit ⊢
  by_cases hlong : uEnd - uBegin > partLength tree
  · have hdvd : partLength tree ∣ uBegin := hpart.resolve_right (by omega)
    have hmid : partLength tree ∣ uBegin + k * partLength tree := Nat.dvd_add hdvd (Nat.dvd_mul_left _ _)
    rw [if_pos hlong]
    refine ⟨⟨hblock, Or.inl hdvd⟩, ⟨?_, Or.inl hmid⟩⟩
    rw [Nat.mod_eq_zero_of_dvd hmid]
    exact Nat.dvd_zero _
  · rw [if_neg hlong] at hsplit ⊢
    have hfit : uBegin % partLength tree + (uEnd - uBegin) ≤ partLength tree := by
      rcases hpart with hdvd | hfit
      · rw [Nat.mod_eq_zero_of_dvd hdvd]
        omega
      · exact hfit
    have hmod : (uBegin + k * tree.blockSize) % partLength tree = uBegin % partLength tree + k * tree.blockSize := by
      rw [Nat.add_mod, Nat.mod_eq_of_lt (show k * tree.blockSize < partLength tree by omega)]
      exact Nat.mod_eq_of_lt (by omega)
    refine ⟨⟨hblock, Or.inr (by omega)⟩, ⟨?_, Or.inr (by omega)⟩⟩
    rw [hmod]
    exact Nat.dvd_add hblock (Nat.dvd_mul_left _ _)

/-- The leaves of a range lie in it, one after the other. -/
theorem storedLeaves_spec (hl : LengthsOk tree) (TreeRoot : SHashTreeNode α)
    (hlt : uBegin < uEnd) (Balance : EBalance) : (∀ leaf ∈ storedLeaves tree TreeRoot uBegin uEnd Balance,
      uBegin ≤ leaf.uBegin ∧ leaf.uBegin < leaf.uEnd ∧ leaf.uEnd ≤ uEnd) ∧
    (storedLeaves tree TreeRoot uBegin uEnd Balance).Pairwise fun a b => a.uEnd ≤ b.uBegin := by
  induction TreeRoot generalizing uBegin uEnd Balance with
  | null => exact ⟨fun leaf hm => (List.not_mem_nil hm).elim, List.Pairwise.nil⟩
  | node pHash Left Right ihL ihR =>
    rw [storedLeaves]
    split_ifs with hleaf
    · refine ⟨fun leaf hm => ?_, List.pairwise_singleton _ _⟩
      rw [List.mem_singleton.mp hm]
      exact ⟨le_rfl, hlt, le_rfl⟩
    · obtain ⟨hpos, -⟩ := getBrancheSize_between hl hlt Balance
      have hsplit : getBrancheSize tree uBegin uEnd Balance < uEnd - uBegin := by
        by_contra hge
        exact hleaf (Or.inl (not_lt.mp hge))
      obtain ⟨hinL, hpairL⟩ := ihL (show uBegin < uBegin + getBrancheSize tree uBegin uEnd Balance by
        omega) EBalance.eLeft
      obtain ⟨hinR, hpairR⟩ := ihR (show uBegin + getBrancheSize tree uBegin uEnd Balance < uEnd by
        omega) EBalance.eRight
      refine ⟨fun leaf hm => ?_, List.pairwise_append.mpr ⟨hpairL, hpairR, fun a ha b hb => ?_⟩⟩
      · rcases List.mem_append.mp hm with hm | hm
        · have := hinL leaf hm
          omega
        · have := hinR leaf hm
          omega
      · exact (hinL a ha).2.2.trans (hinR b hb).1

theorem storedLeaves_apart (hl : LengthsOk tree) (TreeRoot : SHashTreeNode α)
    (hlt : uBegin < uEnd) (Balance : EBalance) {a b : StoredLeaf α}
    (ha : a ∈ storedLeaves tree TreeRoot uBegin uEnd Balance)
    (hb : b ∈ storedLeaves tree TreeRoot uBegin uEnd Balance) : a = b ∨ a.uEnd ≤ b.uBegin ∨ b.uEnd ≤ a.uBegin := by
  have hpair := (storedLeaves_spec hl TreeRoot hlt Balance).2
  refine List.Pairwise.forall_of_forall_of_flip
    (R := fun a b => a = b ∨ a.uEnd ≤ b.uBegin ∨ b.uEnd ≤ a.uBegin) (fun x _ => Or.inl rfl)
    (hpair.imp fun h => Or.inr (Or.inl h)) ?_ ha hb
  exact hpair.imp fun h => Or.inr (Or.inr h)

end Leaves

section Run

variable {α : Type*} (H : CHashFunction α) (tree : CFileHashTree α)
variable (file : List UInt8) (parts : CRangeMap SPartRange) (memory : ℕ → Bool) (uFrom uTo : ℕ)

/-- All bytes of a leaf are available. -/
def Complete (leaf : StoredLeaf α) : Prop :=
  ∀ x, leaf.uBegin ≤ x → x < leaf.fileEnd tree → bit (RangeMap.stateAt partMapOps parts x) 0 = true

/-- The data of a leaf has the stored hash. -/
def Matches (leaf : StoredLeaf α) : Prop :=
  (calculateRange H tree file leaf.uBegin leaf.uEnd leaf.Balance 1).map H.hashOf = some leaf.pHash

/-- A leaf lies in the window. -/
def Inside (leaf : StoredLeaf α) : Prop := uFrom ≤ leaf.uBegin ∧ leaf.fileEnd tree ≤ uTo

/-- A leaf is marked as verified. -/
def Verified (s : Status) (leaf : StoredLeaf α) : Prop :=
  Marked tree s leaf.uBegin (leaf.fileEnd tree)

/-- A leaf is marked as failed. -/
def Failed (s : Status) (leaf : StoredLeaf α) : Prop :=
  (∀ Index, firstBlock tree leaf.uBegin ≤ Index → Index < lastBlock tree (leaf.fileEnd tree) →
    s.bit Index = false) ∧ (leaf.uBegin, leaf.fileEnd tree) ∈ s.corruptionSet

/-- The bits of a leaf are as they were. -/
def SameBits (s s' : Status) (leaf : StoredLeaf α) : Prop :=
  ∀ Index, firstBlock tree leaf.uBegin ≤ Index → Index < lastBlock tree (leaf.fileEnd tree) → s'.bit Index = s.bit Index

/-- A leaf is to be compared: it is available, ends in the file and is not verified. -/
structure Due (s : Status) (leaf : StoredLeaf α) : Prop where
  /-- It is available. -/
  complete : Complete tree parts leaf
  /-- It ends in the file. -/
  uEnd_le : leaf.uEnd ≤ tree.totalSize
  /-- It is not verified. -/
  unverified : ¬Verified tree s leaf

/-- What happens to a leaf: it is compared if it is to be compared, and else left alone. In the window
no leaf to be compared is left out. -/
inductive Outcome (s s' : Status) (leaf : StoredLeaf α) : Prop where
  /-- The data fits. -/
  | good : Due tree parts s leaf → Matches H tree file leaf → Verified tree s' leaf → Outcome s s' leaf
  /-- The data does not fit. -/
  | bad : Due tree parts s leaf → ¬Matches H tree file leaf → Failed tree s' leaf → Outcome s s' leaf
  /-- The leaf is left alone. -/
  | kept : SameBits tree s s' leaf → ¬(Inside tree uFrom uTo leaf ∧ Due tree parts s leaf) → Outcome s s' leaf

/-- What a run over a range does. -/
structure Run (uBegin uEnd : ℕ) (leaves : List (StoredLeaf α)) (s s' : Status) : Prop where
  /-- The bits are as many as before. -/
  ok : StatusOk tree s'
  /-- The bits of other ranges are as before. -/
  frame : ∀ Index, Index < firstBlock tree uBegin ∨ lastBlock tree (min uEnd tree.totalSize) ≤ Index →
    s'.bit Index = s.bit Index
  /-- Failed ranges are kept. -/
  grows : s.corruptionSet ⊆ s'.corruptionSet
  /-- New ones are leaves that were compared. -/
  failed : ∀ range ∈ s'.corruptionSet, range ∈ s.corruptionSet ∨ ∃ leaf ∈ leaves,
    range = (leaf.uBegin, leaf.fileEnd tree) ∧ Due tree parts s leaf ∧ ¬Matches H tree file leaf
  /-- What happens to the leaves that begin in the file. -/
  outcome : ∀ leaf ∈ leaves, leaf.uBegin < tree.totalSize → Outcome H tree file parts uFrom uTo s s' leaf

variable {H tree file parts memory uFrom uTo} {leaf : StoredLeaf α}

theorem SameBits.verified_iff {s s' : Status} (h : SameBits tree s s' leaf) :
    Verified tree s' leaf ↔ Verified tree s leaf := by
  constructor
  · intro hm Index hge hlt
    rw [← h Index hge hlt]
    exact hm Index hge hlt
  · intro hm Index hge hlt
    rw [h Index hge hlt]
    exact hm Index hge hlt

theorem SameBits.due_iff {s s' : Status} (h : SameBits tree s s' leaf) :
    Due tree parts s' leaf ↔ Due tree parts s leaf :=
  ⟨fun hd => ⟨hd.complete, hd.uEnd_le, fun hv => hd.unverified (h.verified_iff.mpr hv)⟩,
    fun hd => ⟨hd.complete, hd.uEnd_le, fun hv => hd.unverified (h.verified_iff.mp hv)⟩⟩

/-- What happens to a leaf does not depend on what is done elsewhere. -/
theorem Outcome.congr {s s' t t' : Status}
    (h : Outcome H tree file parts uFrom uTo s s' leaf) (hs : SameBits tree s t leaf)
    (hs' : SameBits tree s' t' leaf) (hgrows : s'.corruptionSet ⊆ t'.corruptionSet) :
    Outcome H tree file parts uFrom uTo t t' leaf := by
  cases h with
  | good hdue hmatch hv =>
    exact Outcome.good (hs.due_iff.mpr hdue) hmatch (hs'.verified_iff.mpr hv)
  | bad hdue hmatch hf =>
    refine Outcome.bad (hs.due_iff.mpr hdue) hmatch ⟨fun Index hge hlt => ?_, hgrows hf.2⟩
    rw [hs' Index hge hlt]
    exact hf.1 Index hge hlt
  | kept hsame hnot =>
    refine Outcome.kept (fun Index hge hlt => ?_) fun hd => hnot ⟨hd.1, hs.due_iff.mp hd.2⟩
    rw [hs' Index hge hlt, hsame Index hge hlt, hs Index hge hlt]

theorem run_refl {uBegin uEnd : ℕ} {leaves : List (StoredLeaf α)} {s : Status} (hs : StatusOk tree s)
    (hnot : ∀ leaf ∈ leaves, ¬(Inside tree uFrom uTo leaf ∧ Due tree parts s leaf)) :
    Run H tree file parts uFrom uTo uBegin uEnd leaves s s where
  ok := hs
  frame := fun _ _ => rfl
  grows := fun _ hm => hm
  failed := fun _ hm => Or.inl hm
  outcome := fun leaf hm _ => Outcome.kept (fun _ _ _ => rfl) (hnot leaf hm)

/-- A run over two halves. -/
theorem Run.append (hl : LengthsOk tree) {uBegin uMid uEnd : ℕ} {front back : List (StoredLeaf α)}
    {s s₁ s₂ : Status} (h : Run H tree file parts uFrom uTo uBegin uMid front s s₁)
    (h' : Run H tree file parts uFrom uTo uMid uEnd back s₁ s₂) (hle : uBegin ≤ uMid)
    (hle' : uMid ≤ uEnd) (hmid : Aligned tree uMid uEnd)
    (hfront : ∀ leaf ∈ front, uBegin ≤ leaf.uBegin ∧ leaf.uEnd ≤ uMid) (hback : ∀ leaf ∈ back, uMid ≤ leaf.uBegin) :
    Run H tree file parts uFrom uTo uBegin uEnd (front ++ back) s s₂ := by
  have hblocks := lastBlock_aligned hl hmid.block
  have hfrontBits : ∀ leaf ∈ front, SameBits tree s₁ s₂ leaf := by
    intro leaf hm Index _ hlt
    refine h'.frame Index (Or.inl ?_)
    rw [← hblocks]
    exact hlt.trans_le (lastBlock_mono hl ((min_le_left _ _).trans (hfront leaf hm).2))
  have hbackBits : ∀ leaf ∈ back, SameBits tree s₁ s leaf := by
    intro leaf hm Index hge _
    refine (h.frame Index (Or.inr ?_)).symm
    refine (lastBlock_mono hl (min_le_left uMid tree.totalSize)).trans ?_
    rw [hblocks]
    exact (firstBlock_mono hl (hback leaf hm)).trans hge
  refine ⟨h'.ok, fun Index hor => ?_, fun range hm => h'.grows (h.grows hm), fun range hm => ?_, fun leaf hm hin => ?_⟩
  · have hmono := firstBlock_mono hl hle
    have hlast := lastBlock_mono hl (show min uMid tree.totalSize ≤ min uEnd tree.totalSize by omega)
    rw [h'.frame Index (hor.imp_left fun hlt => by omega), h.frame Index (hor.imp_right fun hge => by omega)]
  · rcases h'.failed range hm with hm | ⟨leaf, hleaf, heq, hdue, hmatch⟩
    · refine (h.failed range hm).imp_right ?_
      rintro ⟨leaf, hleaf, heq, hdue, hmatch⟩
      exact ⟨leaf, List.mem_append_left _ hleaf, heq, hdue, hmatch⟩
    · exact Or.inr ⟨leaf, List.mem_append_right _ hleaf, heq, (hbackBits leaf hleaf).due_iff.mpr hdue, hmatch⟩
  · rcases List.mem_append.mp hm with hm | hm
    · exact (h.outcome leaf hm hin).congr (fun _ _ _ => rfl) (hfrontBits leaf hm) h'.grows
    · exact (h'.outcome leaf hm hin).congr (hbackBits leaf hm) (fun _ _ _ => rfl) fun _ hm => hm

end Run

section Leaf

variable {α : Type*} {H : CHashFunction α} {tree : CFileHashTree α} {file : List UInt8}
variable {parts : CRangeMap SPartRange} {memory : ℕ → Bool} {uFrom uTo : ℕ} {uBegin uEnd : ℕ}

/-- A map that knows all bytes of a range has it available if and only if all its bytes are. -/
theorem getRange_available {size : ℕ} (hp : Canonical partMapOps size parts) (hsize : size < 2 ^ 63)
    (hlt : uBegin < uEnd) (hend : uEnd ≤ size) :
    (parts.getRange partMapOps uBegin uEnd EMerge.eInter (SPartRange.ofStates 0)).and Part.Available ≠ 0 ↔
      ∀ x, uBegin ≤ x → x < uEnd → bit (RangeMap.stateAt partMapOps parts x) 0 = true := by
  have hmask : ∀ v, CRangeMap.masked partMapOps (SPartRange.ofStates 0) v = v := fun v =>
    if_neg (by decide)
  have hrange := @getRange_forall _ partMapOps size parts hp (by omega) EMerge.eInter
    (fun v => v.and Part.Available ≠ 0) FileReads.available_inter uBegin uEnd hlt hend
    (SPartRange.ofStates 0)
  refine hrange.trans (forall₃_congr fun x _ _ => ?_)
  rw [hmask]
  exact FileReads.and_available_ne_zero _

/-- Behind the end of the map there is no state. -/
theorem getRange_past {size : ℕ} (hp : Canonical partMapOps size parts) (hgt : size < uEnd) (hend : uEnd ≠ minusOne) :
    parts.getRange partMapOps uBegin uEnd EMerge.eInter (SPartRange.ofStates 0) =
      SPartRange.ofStates 0 := by
  have hnone : lowerBound parts.partMap uEnd = parts.partMap.length := by
    refine List.findIdx_eq_length.mpr fun part hm => ?_
    have hle := hp.le_size hm
    exact decide_eq_false (by omega)
  unfold CRangeMap.getRange
  dsimp only
  rw [if_neg hend, if_pos hnone]
  rfl

theorem testBranche_eq (hl : LengthsOk tree) (hlt : uBegin < uEnd) (Balance : EBalance) :
    (if decide (getBrancheSize tree uBegin uEnd Balance ≥ uEnd - uBegin) = true then
      some (calculateLeaf H file uBegin uEnd) else calculateRange H tree file uBegin uEnd Balance 1) =
      calculateRange H tree file uBegin uEnd Balance 1 := by
  obtain ⟨hpos, -⟩ := getBrancheSize_between hl hlt Balance
  split_ifs with hleaf
  · rw [calculateRange, dif_neg hpos.ne', dif_pos (of_decide_eq_true hleaf)]
  · rfl

variable {leaf : StoredLeaf α}

/-- What comparing a leaf does. -/
theorem setResult_run (h : SizesOk tree) {s : Status} (hs : StatusOk tree s)
    (hlt : leaf.uBegin < leaf.uEnd) (hdue : Due tree parts s leaf) {bResult : Bool}
    (hresult : bResult = true ↔ Matches H tree file leaf) :
    Run H tree file parts uFrom uTo leaf.uBegin leaf.uEnd [leaf] s
      (setResult tree bResult leaf.uBegin leaf.uEnd s) := by
  have hle := hdue.uEnd_le
  have hfileEnd : leaf.fileEnd tree = leaf.uEnd := min_eq_left hle
  obtain ⟨hok, hbits⟩ := setResult_spec h hs bResult hlt hle
  have hset : (setResult tree bResult leaf.uBegin leaf.uEnd s).corruptionSet = if bResult = true then
      s.corruptionSet else s.corruptionSet ++ [(leaf.uBegin, leaf.uEnd)] := rfl
  refine ⟨hok, fun Index hor => ?_, fun range hm => ?_, fun range hm => ?_, fun other hm _ => ?_⟩
  · rw [min_eq_left hle] at hor
    rw [hbits, if_neg (by omega)]
  · rw [hset]
    split_ifs
    · exact hm
    · exact List.mem_append_left _ hm
  · rw [hset] at hm
    split_ifs at hm with htrue
    · exact Or.inl hm
    · refine (List.mem_append.mp hm).imp_right fun hm => ⟨leaf, List.mem_singleton_self _, ?_, hdue,
        fun hmatch => htrue (hresult.mpr hmatch)⟩
      rw [List.mem_singleton.mp hm, hfileEnd]
  · rw [List.mem_singleton.mp hm]
    by_cases hmatch : Matches H tree file leaf
    · refine Outcome.good hdue hmatch fun Index hge hlast => ?_
      rw [hfileEnd] at hlast
      rw [hbits, if_pos ⟨hge, hlast⟩]
      exact hresult.mpr hmatch
    · have hfalse : bResult = false := Bool.not_eq_true _ ▸ fun htrue => hmatch (hresult.mp htrue)
      refine Outcome.bad hdue hmatch ⟨fun Index hge hlast => ?_, ?_⟩
      · rw [hfileEnd] at hlast
        rw [hbits, if_pos ⟨hge, hlast⟩, hfalse]
      · rw [setResult, hfalse, if_neg Bool.false_ne_true, hfileEnd]
        exact List.mem_append_right _ (List.mem_singleton_self _)

/-- A leaf is compared if and only if it overlaps the window and is due. -/
theorem due_iff (memory : ℕ → Bool) (h : SizesOk tree) (hp : Canonical partMapOps tree.totalSize parts) {s : Status}
    (hs : StatusOk tree s) (hlt : leaf.uBegin < leaf.uEnd) (hend : leaf.uEnd ≠ minusOne) :
    Due tree parts s leaf ↔ ¬(getResult tree memory leaf.uBegin leaf.uEnd s = true ∨
      (parts.getRange partMapOps leaf.uBegin leaf.uEnd EMerge.eInter (SPartRange.ofStates 0)).and
        Part.Available = 0) := by
  by_cases hle : leaf.uEnd ≤ tree.totalSize
  · have hfileEnd : leaf.fileEnd tree = leaf.uEnd := min_eq_left hle
    rw [getResult_iff h hs hlt hle, not_or]
    constructor
    · intro hdue
      refine ⟨fun hm => hdue.unverified ?_, (getRange_available hp h.size hlt hle).mpr ?_⟩
      · rw [Verified, hfileEnd]
        exact hm
      · intro x hx hxe
        exact hdue.complete x hx (by rw [hfileEnd]; exact hxe)
    · rintro ⟨hm, hrange⟩
      refine ⟨fun x hx hxe => ?_, hle, fun hv => hm ?_⟩
      · rw [hfileEnd] at hxe
        exact (getRange_available hp h.size hlt hle).mp hrange x hx hxe
      · rw [Verified, hfileEnd] at hv
        exact hv
  · rw [getRange_past hp (not_le.mp hle) hend]
    exact ⟨fun hdue => absurd hdue.uEnd_le hle, fun hnot => absurd (Or.inr (by decide)) hnot⟩

/-- If no part is found, no leaf in the window is to be compared. -/
theorem findsPart_false (h : SizesOk tree) (hp : Canonical partMapOps tree.totalSize parts)
    {s : Status} (hs : StatusOk tree s) (hlt : uBegin < uEnd) (hto : uEnd < 2 ^ 64)
    (hfinds : findsPart tree parts memory uFrom uTo uBegin uEnd s = false)
    (hbegin : uBegin ≤ leaf.uBegin) (hleaf : leaf.uBegin < leaf.uEnd) (hend : leaf.uEnd ≤ uEnd) :
    ¬(Inside tree uFrom uTo leaf ∧ Due tree parts s leaf) := by
  rintro ⟨⟨hfrom, hwindow⟩, hdue⟩
  have hle := hdue.uEnd_le
  have hsize := h.size
  have hfileEnd : leaf.fileEnd tree = leaf.uEnd := min_eq_left hle
  rw [hfileEnd] at hwindow
  -- a block that is not verified has a byte, and the map has a range around it
  obtain ⟨Index, hge, hlast, hbit⟩ : ∃ Index, firstBlock tree leaf.uBegin ≤ Index ∧
      Index < lastBlock tree leaf.uEnd ∧ s.bit Index ≠ true := by
    by_contra hall
    refine hdue.unverified fun Index hge hlast => ?_
    rw [hfileEnd] at hlast
    by_contra hbit
    exact hall ⟨Index, hge, hlast, hbit⟩
  obtain ⟨x, hx, hxe, hfirst, hnext⟩ := exists_byte h.toLengthsOk hleaf hge hlast
  have hcollected := rangesOf_collected hp (by omega) hlt hto (SPartRange.ofStates 0)
  have htiles := hcollected.tiles (by omega)
  obtain ⟨front, range, back, hsplit, hcovers, -⟩ := htiles.exists_split (x := x) (by omega) (by omega)
  have hm : range ∈ rangesOf partMapOps parts uBegin uEnd (SPartRange.ofStates 0) := by
    rw [hsplit]
    exact List.mem_append_right _ List.mem_cons_self
  obtain ⟨-, hrange, hrangeEnd⟩ := htiles.bounds hm
  have hseen := hcollected.same range hm x hcovers
  obtain ⟨hcover, hcover'⟩ := hcovers
  have hvalue : RangeMap.stateAt partMapOps parts x = range.value := by
    rw [seen, Option.map_eq_some_iff] at hseen
    obtain ⟨v, hv, hmask⟩ := hseen
    rw [RangeMap.stateAt, hv, Option.getD_some, ← hmask]
    exact (if_neg (by decide)).symm
  have hresult : getResult tree memory range.first range.last s = false := by
    rw [← Bool.not_eq_true, getResult_iff h hs hrange (by omega)]
    intro hm
    refine hbit (hm Index ?_ ?_)
    · exact (firstBlock_mono h.toLengthsOk hcover).trans hfirst
    · exact hnext.trans_le (lastBlock_mono h.toLengthsOk hcover')
  have havailable : range.value.and Part.Available ≠ 0 := by
    rw [FileReads.and_available_ne_zero, ← hvalue]
    exact hdue.complete x hx (by rw [hfileEnd]; exact hxe)
  have hfound : findsPart tree parts memory uFrom uTo uBegin uEnd s = true := by
    refine List.any_eq_true.mpr ⟨range, hm, ?_⟩
    rw [decide_eq_true (show uFrom < range.last ∧ uTo > range.first by omega), decide_eq_true havailable, hresult]
    rfl
  rw [hfound] at hfinds
  exact Bool.noConfusion hfinds

end Leaf

section Whole

variable {α : Type*} [DecidableEq α] {H : CHashFunction α} {tree : CFileHashTree α}
variable {file : List UInt8} {parts : CRangeMap SPartRange} {memory : ℕ → Bool} {uFrom uTo : ℕ}

/-- What the verification of a leaf does. -/
theorem verifyLeaf_run (h : SizesOk tree) (hp : Canonical partMapOps tree.totalSize parts)
    {s : Status} (hs : StatusOk tree s) {leaf : StoredLeaf α} (hlt : leaf.uBegin < leaf.uEnd)
    (hend : leaf.uEnd ≠ minusOne) : Run H tree file parts uFrom uTo leaf.uBegin leaf.uEnd [leaf] s
      (verifyLeaf H tree file parts memory uFrom uTo EHashingMode.eVerifyParts leaf.pHash leaf.uBegin
        leaf.uEnd leaf.Balance
        (decide (getBrancheSize tree leaf.uBegin leaf.uEnd leaf.Balance ≥ leaf.uEnd - leaf.uBegin))
        s) := by
  have hiff := due_iff memory h hp hs hlt hend
  unfold verifyLeaf
  rw [testBranche_eq h.toLengthsOk hlt]
  by_cases hwindow : uFrom < leaf.uEnd ∧ uTo > leaf.uBegin
  · rw [if_neg (not_not.mpr hwindow)]
    by_cases hdue : Due tree parts s leaf
    · rw [if_neg fun hskip => hiff.mp hdue hskip.2]
      dsimp only
      rw [if_neg (not_lt.mpr hdue.uEnd_le), if_pos (Or.inl (by decide))]
      exact setResult_run h hs hlt hdue decide_eq_true_iff
    · rw [if_pos ⟨rfl, not_not.mp fun hnot => hdue (hiff.mpr hnot)⟩]
      refine run_refl hs fun other hm hboth => hdue ?_
      rw [List.mem_singleton.mp hm] at hboth
      exact hboth.2
  · rw [if_pos hwindow]
    refine run_refl hs fun other hm hboth => hwindow ?_
    obtain ⟨⟨hfrom, hto⟩, hdue⟩ := hboth
    rw [List.mem_singleton.mp hm] at hfrom hto hdue
    have hfileEnd : leaf.fileEnd tree = leaf.uEnd := min_eq_left hdue.uEnd_le
    rw [hfileEnd] at hto
    exact ⟨by omega, by omega⟩

/-- What the verification of a range does. -/
theorem verifyBranche_run (h : SizesOk tree) (hp : Canonical partMapOps tree.totalSize parts)
    (TreeRoot : SHashTreeNode α) (hroot : TreeRoot ≠ null) {uBegin uEnd : ℕ} (hlt : uBegin < uEnd)
    (hto : uEnd < minusOne) (haligned : Aligned tree uBegin uEnd) (Balance : EBalance) {s : Status}
    (hs : StatusOk tree s) :
    (verifyBranche H tree file parts memory uFrom uTo EHashingMode.eVerifyParts TreeRoot uBegin uEnd
      Balance s).1 = true ∧
    Run H tree file parts uFrom uTo uBegin uEnd (storedLeaves tree TreeRoot uBegin uEnd Balance) s
      (verifyBranche H tree file parts memory uFrom uTo EHashingMode.eVerifyParts TreeRoot uBegin uEnd
        Balance s).2 := by
  have hmax : minusOne < 2 ^ 64 := by decide
  induction TreeRoot generalizing uBegin uEnd Balance s with
  | null => exact absurd rfl hroot
  | node pHash Left Right ihL ihR =>
    have hspec := (storedLeaves_spec h.toLengthsOk (node pHash Left Right) hlt Balance).1
    rw [verifyBranche]
    by_cases hpast : uBegin > tree.totalSize
    · rw [if_pos hpast]
      refine ⟨rfl, run_refl hs fun leaf hm hboth => ?_⟩
      have hle := hboth.2.uEnd_le
      have hin := hspec leaf hm
      omega
    · rw [if_neg hpast]
      by_cases hleaf : getBrancheSize tree uBegin uEnd Balance ≥ uEnd - uBegin ∨ (node pHash Left Right).IsLeaf = true
      · rw [if_pos hleaf, storedLeaves, if_pos hleaf]
        have hone : (⟨uBegin, uEnd, Balance, pHash⟩ : StoredLeaf α).uBegin < uEnd := hlt
        exact ⟨rfl, verifyLeaf_run h hp hs hone hto.ne⟩
      · rw [if_neg hleaf]
        by_cases hfinds : findsPart tree parts memory uFrom uTo uBegin uEnd s = false
        · rw [if_pos ⟨rfl, hfinds⟩]
          refine ⟨rfl, run_refl hs fun leaf hm => ?_⟩
          obtain ⟨hge, hin, hend⟩ := hspec leaf hm
          exact findsPart_false h hp hs hlt (by omega) hfinds hge hin hend
        · have hsplit : getBrancheSize tree uBegin uEnd Balance < uEnd - uBegin := by
            by_contra hge
            exact hleaf (Or.inl (not_lt.mp hge))
          obtain ⟨hpos, -⟩ := getBrancheSize_between h.toLengthsOk hlt Balance
          obtain ⟨halignL, halignR⟩ := haligned.split hsplit
          obtain ⟨hL, hR⟩ : Left ≠ null ∧ Right ≠ null := by
            cases Left with
            | null => exact absurd (Or.inr rfl) hleaf
            | node hLeft ll lr =>
              cases Right with
              | null => exact absurd (Or.inr rfl) hleaf
              | node hRight rl rr => exact ⟨nofun, nofun⟩
          obtain ⟨hokL, hrunL⟩ := ihL hL (show uBegin < uBegin + getBrancheSize tree uBegin uEnd Balance
            by omega) (by omega) halignL EBalance.eLeft hs
          obtain ⟨hokR, hrunR⟩ := ihR hR (show uBegin + getBrancheSize tree uBegin uEnd Balance < uEnd by
            omega) hto halignR EBalance.eRight hrunL.ok
          have hspecL := (storedLeaves_spec h.toLengthsOk Left (show uBegin < uBegin +
            getBrancheSize tree uBegin uEnd Balance by omega) EBalance.eLeft).1
          have hspecR := (storedLeaves_spec h.toLengthsOk Right (show uBegin +
            getBrancheSize tree uBegin uEnd Balance < uEnd by omega) EBalance.eRight).1
          rw [if_neg fun hnot => hfinds hnot.2, storedLeaves, if_neg hleaf]
          generalize verifyBranche H tree file parts memory uFrom uTo EHashingMode.eVerifyParts Left
            uBegin _ EBalance.eLeft s = left at hokL hrunL hokR hrunR ⊢
          obtain ⟨bLeft, s₁⟩ := left
          dsimp only at hokL
          subst hokL
          exact ⟨hokR, hrunL.append h.toLengthsOk hrunR (by omega) (by omega) halignR
            (fun leaf hm => ⟨(hspecL leaf hm).1, (hspecL leaf hm).2.2⟩) fun leaf hm => (hspecR leaf hm).1⟩

end Whole

section Results

variable {α : Type*} (H : CHashFunction α) (tree : CFileHashTree α) (file : List UInt8)
variable (parts : CRangeMap SPartRange) (uFrom uTo : ℕ)

/-- The leaves of the file. -/
def fileLeaves : List (StoredLeaf α) :=
  storedLeaves tree tree.treeRoot 0 (getTreeSize tree) EBalance.eLeft

/-- Each available leaf in the window is marked as verified if its data has the stored hash and as failed
otherwise, and a leaf that is not available gets no result. -/
def Verifies (s s' : Status) : Prop :=
  ∀ leaf ∈ fileLeaves tree, leaf.uBegin < leaf.fileEnd tree → (Inside tree uFrom uTo leaf → Complete tree parts leaf →
      (Matches H tree file leaf → Verified tree s' leaf) ∧
      (¬Matches H tree file leaf → Failed tree s' leaf)) ∧
    (¬Complete tree parts leaf → SameBits tree s s' leaf ∧
      ∀ range ∈ s'.corruptionSet, range.2 ≤ leaf.uBegin ∨ leaf.fileEnd tree ≤ range.1)

/-- Each available leaf in the window that is marked as verified has the stored hash, and each one that
is not ends in the file. -/
def Comparable (s : Status) : Prop :=
  ∀ leaf ∈ fileLeaves tree, leaf.uBegin < leaf.fileEnd tree → Inside tree uFrom uTo leaf → Complete tree parts leaf →
      (Verified tree s leaf → Matches H tree file leaf) ∧
      (¬Verified tree s leaf → leaf.uEnd ≤ tree.totalSize)

variable {H tree file parts uFrom uTo}

/-- The leaves of a torrent's tree end before the greatest offset. -/
theorem getTreeSize_lt (h : SizesOk tree) (hpos : 0 < tree.totalSize) : getTreeSize tree < minusOne := by
  have hsize := h.size
  have hmax : minusOne = 2 ^ 64 - 1 := rfl
  unfold getTreeSize
  split_ifs with htype
  · have hpart : tree.partSize = none := h.parts.resolve_right fun hmule => by
      rw [htype] at hmule
      cases hmule
    have hbits := h.bits
    rw [lastBlock_eq h.toLengthsOk hpart] at hbits
    obtain ⟨c, hc, -, -⟩ := divUp_spec hpos h.block
    rw [toInt_eq hbits, Int.toNat_natCast, hc]
    have hheight : 0 < Nat.size (c + 1) := Nat.size_pos.mpr (Nat.succ_pos c)
    have heven : 2 ∣ 2 ^ Nat.size (c + 1) * tree.blockSize % 2 ^ 64 := by
      rw [Nat.dvd_mod_iff (by decide)]
      exact Nat.dvd_mul_right_of_dvd (dvd_pow_self 2 hheight.ne') _
    have hlt := Nat.mod_lt (2 ^ Nat.size (c + 1) * tree.blockSize) (Nat.two_pow_pos 64)
    omega
  · omega

/-- The sizes of every tree that the constructor makes are in order, if blocks have bytes and the bits
are few enough. -/
theorem sizesOk_create (H : CHashFunction α) (eType : EFileHashType) {totalSize : ℕ}
    (blockSize : Option ℕ) (depthLimit : ℤ) (TreeRoot : SHashTreeNode α)
    (hblock : ∀ b, blockSize = some b → 0 < b) (hsize : totalSize < 2 ^ 63)
    (hbits : lastBlock (CFileHashTree.create H eType totalSize blockSize depthLimit) totalSize < 2 ^ 31) :
    SizesOk { CFileHashTree.create H eType totalSize blockSize depthLimit with treeRoot := TreeRoot } := by
  have hone : ∀ b, 0 < b → divUp b b < 2 ^ 16 := fun b hb => by
    rw [divUp_eq (c := 0) (by omega) (by omega)]
    decide
  have hpos : 0 < blockSize.getD (64 * 1024) := by
    cases hb : blockSize with
    | none => decide
    | some b => exact hblock b hb
  have hneo : 0 < 256 * 1024 := by decide
  have htiger : 0 < 1024 := by decide
  have hmule : 0 < 184320 ∧ divUp 9728000 184320 < 2 ^ 16 := by decide
  cases eType with
  | HashNeo | HashXNeo => exact ⟨⟨hneo, nofun⟩, hone _ hneo, hbits, hsize, Or.inl rfl⟩
  | HashTigerTree => exact ⟨⟨htiger, nofun⟩, hone _ htiger, hbits, hsize, Or.inl rfl⟩
  | HashTorrent => exact ⟨⟨hpos, nofun⟩, hone _ hpos, hbits, hsize, Or.inl rfl⟩
  | HashMule =>
    refine ⟨⟨hmule.1, fun PartSize hp => ?_⟩, hmule.2, hbits, hsize, Or.inr rfl⟩
    rw [← Option.some.inj hp]
    exact (by decide : 0 < 9728000)

/-- A leaf with bytes in the file shows that the tree has bytes. -/
theorem treeSize_pos {leaf : StoredLeaf α} (hm : leaf ∈ fileLeaves tree)
    (hlt : leaf.uBegin < leaf.fileEnd tree) : 0 < getTreeSize tree := by
  by_contra hzero
  have hsize : getTreeSize tree = 0 := by omega
  have hlt' : leaf.uBegin < leaf.uEnd := hlt.trans_le (min_le_left _ _)
  unfold fileLeaves at hm
  rw [hsize] at hm
  cases hroot : tree.treeRoot with
  | null =>
    rw [hroot] at hm
    cases hm
  | node pHash Left Right =>
    rw [hroot, storedLeaves, if_pos (Or.inl (Nat.zero_le _)), List.mem_singleton] at hm
    rw [hm] at hlt'
    exact absurd hlt' (lt_irrefl 0)

/-- What a run from no failed ranges on does to a leaf. -/
theorem Run.verifies_iff (hl : LengthsOk tree) {s s' : Status} (hempty : s.corruptionSet = [])
    (hpos : 0 < getTreeSize tree) (hrun : Run H tree file parts uFrom uTo 0 (getTreeSize tree) (fileLeaves tree) s s') :
    Verifies H tree file parts uFrom uTo s s' ↔ Comparable H tree file parts uFrom uTo s := by
  have hfailed : ∀ range ∈ s'.corruptionSet, ∃ leaf ∈ fileLeaves tree,
      range = (leaf.uBegin, leaf.fileEnd tree) ∧ Due tree parts s leaf := by
    intro range hm
    rcases hrun.failed range hm with hold | ⟨leaf, hleaf, heq, hdue, -⟩
    · rw [hempty] at hold
      cases hold
    · exact ⟨leaf, hleaf, heq, hdue⟩
  have hapart := fun (a b : StoredLeaf α) (ha : a ∈ fileLeaves tree) (hb : b ∈ fileLeaves tree) =>
    storedLeaves_apart hl tree.treeRoot hpos EBalance.eLeft ha hb
  constructor
  · intro hv leaf hm hlt hin hcomplete
    have hindex := firstBlock_lt_lastBlock hl hlt
    have hle : leaf.fileEnd tree ≤ leaf.uEnd := min_le_left _ _
    obtain ⟨hmarks, -⟩ := hv leaf hm hlt
    cases hrun.outcome leaf hm (hlt.trans_le (min_le_right _ _)) with
    | good hdue hmatch _ => exact ⟨fun _ => hmatch, fun _ => hdue.uEnd_le⟩
    | bad hdue _ _ => exact ⟨fun hverified => absurd hverified hdue.unverified, fun _ => hdue.uEnd_le⟩
    | kept hsame hnot =>
      refine ⟨fun hverified => ?_, fun hunverified => ?_⟩
      · by_contra hmatch
        have hfirst := ((hmarks hin hcomplete).2 hmatch).1 _ le_rfl hindex
        rw [hsame _ le_rfl hindex, hverified _ le_rfl hindex] at hfirst
        exact Bool.noConfusion hfirst
      · by_cases hmatch : Matches H tree file leaf
        · exact absurd (hsame.verified_iff.mp ((hmarks hin hcomplete).1 hmatch)) hunverified
        · obtain ⟨other, hother, heq, hdue⟩ := hfailed _ ((hmarks hin hcomplete).2 hmatch).2
          obtain ⟨hbegin, hend⟩ := Prod.mk.inj heq
          have hle' : other.fileEnd tree ≤ other.uEnd := min_le_left _ _
          rcases hapart leaf other hm hother with rfl | hbefore | hbehind
          · exact hdue.uEnd_le
          · omega
          · omega
  · intro hcomparable leaf hm hlt
    have houtcome := hrun.outcome leaf hm (hlt.trans_le (min_le_right _ _))
    refine ⟨fun hin hcomplete => ?_, fun hincomplete => ⟨?_, fun range hrange => ?_⟩⟩
    · obtain ⟨hmarked, hunmarked⟩ := hcomparable leaf hm hlt hin hcomplete
      cases houtcome with
      | good _ hmatch hverified => exact ⟨fun _ => hverified, fun hno => absurd hmatch hno⟩
      | bad _ hno hfailed => exact ⟨fun hmatch => absurd hmatch hno, fun _ => hfailed⟩
      | kept hsame hnot =>
        have hverified : Verified tree s leaf := by
          by_contra hunverified
          exact hnot ⟨hin, hcomplete, hunmarked hunverified, hunverified⟩
        exact ⟨fun _ => hsame.verified_iff.mpr hverified, fun hno => absurd (hmarked hverified) hno⟩
    · cases houtcome with
      | good hdue _ _ => exact absurd hdue.complete hincomplete
      | bad hdue _ _ => exact absurd hdue.complete hincomplete
      | kept hsame _ => exact hsame
    · obtain ⟨other, hother, rfl, hdue⟩ := hfailed range hrange
      have hle : leaf.fileEnd tree ≤ leaf.uEnd := min_le_left _ _
      have hle' : other.fileEnd tree ≤ other.uEnd := min_le_left _ _
      rcases hapart leaf other hm hother with rfl | hbefore | hbehind
      · exact absurd hdue.complete hincomplete
      · exact Or.inr (hle.trans hbefore)
      · exact Or.inl (hle'.trans hbehind)

end Results

section Verify

variable {α : Type*} [DecidableEq α] {H : CHashFunction α} {tree : CFileHashTree α}
variable {parts : CRangeMap SPartRange}

/-- The verification of a file that has a tree. -/
theorem verify_run (h : SizesOk tree) (hp : Canonical partMapOps tree.totalSize parts)
    (file : List UInt8) (memory : ℕ → Bool) (uFrom uTo : ℕ) {s : Status} (hs : StatusOk tree s)
    (hroot : tree.treeRoot ≠ null) (hpos : 0 < getTreeSize tree) :
    (verify H tree file parts memory uFrom uTo EHashingMode.eVerifyParts s).1 = true ∧
    Run H tree file parts uFrom uTo 0 (getTreeSize tree) (fileLeaves tree) (resetStatus false s)
      (verify H tree file parts memory uFrom uTo EHashingMode.eVerifyParts s).2 := by
  obtain ⟨part, hm, hlast⟩ := hp.exists_last
  have hsize := getTreeSize_lt h (hlast ▸ hp.positive part hm)
  have hverify : verify H tree file parts memory uFrom uTo EHashingMode.eVerifyParts s =
      verifyBranche H tree file parts memory uFrom uTo EHashingMode.eVerifyParts tree.treeRoot 0
        (getTreeSize tree) EBalance.eLeft (resetStatus false s) := by
    unfold verify
    cases hnode : tree.treeRoot with
    | null => exact absurd hnode hroot
    | node pHash Left Right => rfl
  have hreset : StatusOk tree (resetStatus false s) := hs
  rw [hverify]
  exact verifyBranche_run h hp tree.treeRoot hroot hpos hsize (aligned_zero tree _) EBalance.eLeft hreset

/-- Hashes that are all the same, but for those of bytes behind the end. -/
def sameHash : CHashFunction Bool where
  leaf := fun _ => true
  branch := fun _ _ => true
  zero := false

/-- The tree of a torrent of one and a half blocks. -/
def torrentTree : CFileHashTree Bool :=
  { CFileHashTree.create sameHash EFileHashType.HashTorrent 24576 (some 16384) (-1) with
    treeRoot := node true (node true (alloc true) (alloc true)) (node true (alloc false) (alloc false)) }

/-- The map of a file that is all there. -/
def fullMap : CRangeMap SPartRange := ⟨[(24576, SPartRange.ofStates 1)], 1⟩

theorem sizesOk_torrentTree : SizesOk torrentTree :=
  sizesOk_create sameHash EFileHashType.HashTorrent (some 16384) (-1) _
    (fun b hb => by cases hb; decide) (by decide) (by decide)

/-- The map of a file that is all there is in order. -/
theorem canonical_fullMap : Canonical partMapOps torrentTree.totalSize fullMap where
  increasing := List.pairwise_singleton _ _
  last := rfl
  positive := fun part hm => by
    rw [List.mem_singleton.mp hm]
    decide
  distinct := List.isChain_singleton _
  stored := fun part hm => by
    rw [List.mem_singleton.mp hm]
    exact ⟨rfl, rfl⟩
  revision_pos := Nat.one_pos

theorem mem_fileLeaves_torrentTree :
    (⟨16384, 32768, EBalance.eRight, true⟩ : StoredLeaf Bool) ∈ fileLeaves torrentTree := by
  decide

theorem complete_torrentTree (leaf : StoredLeaf Bool) : Complete torrentTree fullMap leaf := by
  intro x _ hx
  have hlt : x < 24576 := hx.trans_le (min_le_right _ _)
  have hvalue : valueAt fullMap.partMap x = some (SPartRange.ofStates 1) := if_pos hlt
  rw [RangeMap.stateAt, hvalue]
  rfl

end Verify

end NeoLoader.HashTreeVerify
