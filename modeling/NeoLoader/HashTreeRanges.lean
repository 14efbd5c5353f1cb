import Mathlib.Data.Nat.Size
import NeoLoader.HashTree

/-!
# How a hash tree splits the file

A node stands for a range of the file, and a range of several blocks is split in
two. AICH first splits the file into parts and then each part into blocks. The
number of blocks of a range is an `int`, so a range of `2 ^ 31` blocks and more is
split by a wrong number, or not at all.
-/

namespace NeoLoader.HashTreeRanges

open HashTree

def divUp (size value : ℕ) : ℕ := (size + value - 1) / value

/-- A number that is stored in an `int`. -/
def toInt (n : ℕ) : ℤ := (BitVec.ofNat 32 n).toInt

/-- `EBalance`: whether a node is a left or a right child. -/
inductive EBalance where
  | eLeft
  | eRight
  deriving DecidableEq

section Counts

/-- The next power of two, from the highest bit and whether a lower one is set. -/
def roundUp (LeftCount : ℕ) : ℕ :=
  let pos := Nat.log2 LeftCount
  if LeftCount * 2 ^ (64 - pos) % 2 ^ 64 ≠ 0 then 2 ^ (pos + 1) else 2 ^ pos

/-- Number of blocks in the left half of a range of at least two blocks. -/
def leftCount (eType : EFileHashType) (Balance : EBalance) (Count : ℕ) : ℕ :=
  if eType = EFileHashType.HashTigerTree ∨ eType = EFileHashType.HashTorrent then
    roundUp (Count / 2)
  else if Balance ≠ EBalance.eRight ∧ Count % 2 = 1 then Count / 2 + 1
  else Count / 2

/-- A number between two powers of two. -/
theorem roundUp_between {n : ℕ} (hpos : 0 < n) (hlt : n < 2 ^ 63) :
    ∃ k, n ≤ 2 ^ k ∧ 2 ^ k < 2 * n ∧ roundUp n = 2 ^ k := by
  have hle : 2 ^ Nat.log2 n ≤ n := Nat.log2_self_le hpos.ne'
  have hgt : n < 2 ^ (Nat.log2 n + 1) := Nat.lt_log2_self
  have hlog : Nat.log2 n < 63 := (Nat.log2_lt hpos.ne').mpr hlt
  have hmod : n * 2 ^ (64 - Nat.log2 n) % 2 ^ 64 = n % 2 ^ Nat.log2 n * 2 ^ (64 - Nat.log2 n) := by
    have hpow : 2 ^ 64 = 2 ^ Nat.log2 n * 2 ^ (64 - Nat.log2 n) := by
      rw [← pow_add]
      congr 1
      omega
    rw [hpow, Nat.mul_mod_mul_right]
  have hshift : 0 < 2 ^ (64 - Nat.log2 n) := Nat.two_pow_pos _
  rw [pow_succ] at hgt
  unfold roundUp
  dsimp only
  rw [hmod]
  split_ifs with hlow
  · refine ⟨Nat.log2 n + 1, by rw [pow_succ]; omega, ?_, rfl⟩
    have hne : 2 ^ Nat.log2 n ≠ n := fun he => by
      rw [he, Nat.mod_self, Nat.zero_mul] at hlow
      exact hlow rfl
    rw [pow_succ]
    omega
  · refine ⟨Nat.log2 n, ?_, by omega, rfl⟩
    have hzero : n % 2 ^ Nat.log2 n = 0 := by
      by_contra hne
      exact hlow (Nat.mul_ne_zero hne hshift.ne')
    have hsub : n - 2 ^ Nat.log2 n < 2 ^ Nat.log2 n := by omega
    rw [Nat.mod_eq_sub_mod hle, Nat.mod_eq_of_lt hsub] at hzero
    omega

theorem leftCount_between (eType : EFileHashType) (Balance : EBalance) {Count : ℕ}
    (htwo : 2 ≤ Count) (hlt : Count < 2 ^ 64) :
    0 < leftCount eType Balance Count ∧ leftCount eType Balance Count < Count := by
  unfold leftCount
  split_ifs
  · obtain ⟨k, hle, hgt, hk⟩ := roundUp_between (n := Count / 2) (by omega) (by omega)
    omega
  · omega
  · omega

/-- Both halves of a range of at most `2 ^ (k + 1)` blocks have at most `2 ^ k`. -/
theorem leftCount_halves (eType : EFileHashType) (Balance : EBalance) {Count k : ℕ}
    (htwo : 2 ≤ Count) (hlt : Count < 2 ^ 64) (hle : Count ≤ 2 ^ (k + 1)) :
    leftCount eType Balance Count ≤ 2 ^ k ∧ Count - leftCount eType Balance Count ≤ 2 ^ k := by
  rw [pow_succ] at hle
  unfold leftCount
  split_ifs
  · obtain ⟨j, hj, hgt, hroot⟩ := roundUp_between (n := Count / 2) (by omega) (by omega)
    have hjk : j ≤ k := by
      by_contra hkj
      have hpow : 2 ^ (k + 1) ≤ 2 ^ j := Nat.pow_le_pow_right (by omega) (by omega)
      rw [pow_succ] at hpow
      omega
    have hpow : 2 ^ j ≤ 2 ^ k := Nat.pow_le_pow_right (by omega) hjk
    omega
  · omega
  · omega

theorem divUp_eq {size value c : ℕ} (hgt : c * value < size) (hle : size ≤ (c + 1) * value) :
    divUp size value = c + 1 := by
  have hpos : 0 < value := by
    rcases Nat.eq_zero_or_pos value with rfl | hpos
    · omega
    · exact hpos
  unfold divUp
  rw [Nat.div_eq_iff hpos]
  rw [Nat.add_mul] at hle ⊢
  omega

theorem divUp_spec {size value : ℕ} (hsize : 0 < size) (hpos : 0 < value) :
    ∃ c, divUp size value = c + 1 ∧ c * value < size ∧ size ≤ (c + 1) * value := by
  have hdiv := Nat.div_add_mod' (size - 1) value
  have hmod := Nat.mod_lt (size - 1) hpos
  have hgt : (size - 1) / value * value < size := by omega
  have hle : size ≤ ((size - 1) / value + 1) * value := by
    rw [Nat.add_mul]
    omega
  exact ⟨_, divUp_eq hgt hle, hgt, hle⟩

theorem toInt_eq {n : ℕ} (h : n < 2 ^ 31) : toInt n = n := by
  unfold toInt
  rw [BitVec.toInt_eq_toNat_of_lt, BitVec.toNat_ofNat, Nat.mod_eq_of_lt (by omega)]
  rw [BitVec.toNat_ofNat]
  omega

theorem toInt_le (n : ℕ) : toInt n ≤ n ∧ toInt n < 2 ^ 31 := by
  have hmod : n % 2 ^ 32 ≤ n := Nat.mod_le _ _
  have hlt : n % 2 ^ 32 < 2 ^ 32 := Nat.mod_lt _ (Nat.two_pow_pos 32)
  unfold toInt
  rw [BitVec.toInt_eq_toNat_cond, BitVec.toNat_ofNat]
  split_ifs <;> omega

theorem toInt_huge {n : ℕ} (h : 2 ^ 31 ≤ n) : toInt n < 0 ∨ toInt n + 2 ^ 32 ≤ n := by
  have hdiv := Nat.div_add_mod n (2 ^ 32)
  unfold toInt
  rw [BitVec.toInt_eq_toNat_cond, BitVec.toNat_ofNat]
  split_ifs <;> omega

end Counts

section Ranges

variable {α : Type*} (tree : CFileHashTree α)

/-- `CFileHashTree::GetTreeSize`. -/
def getTreeSize : ℕ :=
  if tree.eType = EFileHashType.HashTorrent then
    2 ^ Nat.size (toInt (divUp tree.totalSize tree.blockSize)).toNat * tree.blockSize % 2 ^ 64
  else tree.totalSize

/-- `CFileHashTree::GetBrancheSize`. -/
def getBrancheSize (uBegin uEnd : ℕ) (Balance : EBalance) : ℕ :=
  let uSize := uEnd - uBegin
  let BlockSize := match tree.partSize with
    | none => tree.blockSize
    | some PartSize => if uSize > PartSize then PartSize else tree.blockSize
  let Count := toInt (divUp uSize BlockSize)
  if Count ≤ 1 then uSize else leftCount tree.eType Balance Count.toNat * BlockSize

/-- Length of the ranges whose hashes make up a hash set. -/
def partLength : ℕ := tree.partSize.getD tree.blockSize

/-- Number of parts of a hash set. -/
def partCount : ℕ := divUp tree.totalSize (partLength tree)

/-- Lengths of blocks and parts that make sense. -/
structure LengthsOk (tree : CFileHashTree α) : Prop where
  /-- A block has bytes. -/
  block : 0 < tree.blockSize
  /-- A part has bytes. -/
  part : ∀ PartSize, tree.partSize = some PartSize → 0 < PartSize

variable {tree}

theorem LengthsOk.partLength_pos (h : LengthsOk tree) : 0 < partLength tree := by
  unfold partLength
  cases hp : tree.partSize with
  | none => exact h.block
  | some PartSize => exact h.part PartSize hp

/-- The left half of a range has bytes, and is the whole range or shorter. -/
theorem getBrancheSize_between (h : LengthsOk tree) {uBegin uEnd : ℕ} (hlt : uBegin < uEnd)
    (Balance : EBalance) : 0 < getBrancheSize tree uBegin uEnd Balance ∧
      getBrancheSize tree uBegin uEnd Balance ≤ uEnd - uBegin := by
  have hsplit : ∀ BlockSize, 0 < BlockSize → ¬toInt (divUp (uEnd - uBegin) BlockSize) ≤ 1 →
      0 < leftCount tree.eType Balance (toInt (divUp (uEnd - uBegin) BlockSize)).toNat *
        BlockSize ∧ leftCount tree.eType Balance
          (toInt (divUp (uEnd - uBegin) BlockSize)).toNat * BlockSize ≤ uEnd - uBegin := by
    intro BlockSize hpos hcount
    obtain ⟨c, hc, hgt, -⟩ := divUp_spec (show 0 < uEnd - uBegin by omega) hpos
    obtain ⟨hle, hint⟩ := toInt_le (divUp (uEnd - uBegin) BlockSize)
    obtain ⟨hleft, hright⟩ := leftCount_between tree.eType Balance
      (show 2 ≤ (toInt (divUp (uEnd - uBegin) BlockSize)).toNat by omega) (by omega)
    refine ⟨Nat.mul_pos hleft hpos, ?_⟩
    have hlc : leftCount tree.eType Balance (toInt (divUp (uEnd - uBegin) BlockSize)).toNat ≤ c := by
      omega
    exact (Nat.mul_le_mul_right _ hlc).trans hgt.le
  unfold getBrancheSize
  dsimp only
  split_ifs with hcount
  · omega
  · refine hsplit _ ?_ hcount
    cases hp : tree.partSize with
    | none => exact h.block
    | some PartSize =>
      dsimp only
      split_ifs
      · exact h.part PartSize hp
      · exact h.block

/-- The parts of a range are split by their number, as far as it is an `int`. -/
theorem getBrancheSize_eq (h : LengthsOk tree) {k d uEnd : ℕ} {Balance : EBalance}
    (hgt : (k + (d + 2) - 1) * partLength tree < uEnd) (hle : uEnd ≤ (k + (d + 2)) * partLength tree) :
    getBrancheSize tree (k * partLength tree) uEnd Balance = if toInt (d + 2) ≤ 1 then uEnd - k * partLength tree
      else leftCount tree.eType Balance (toInt (d + 2)).toNat * partLength tree := by
  have hpos := h.partLength_pos
  have hsub : k + (d + 2) - 1 = k + (d + 1) := by omega
  rw [hsub, Nat.add_mul] at hgt
  rw [Nat.add_mul] at hle
  have hle' : uEnd ≤ k * partLength tree + (d + 1 + 1) * partLength tree := hle
  have hcount : divUp (uEnd - k * partLength tree) (partLength tree) = d + 2 :=
    divUp_eq (by omega) (by omega)
  have hlong : uEnd - k * partLength tree > partLength tree := by
    rw [Nat.add_mul d 1, Nat.one_mul] at hgt
    omega
  have hblock : (match tree.partSize with
      | none => tree.blockSize
      | some PartSize => if uEnd - k * partLength tree > PartSize then PartSize
        else tree.blockSize) = partLength tree := by
    unfold partLength at hlong ⊢
    cases hp : tree.partSize with
    | none => rfl
    | some PartSize =>
      rw [hp] at hlong
      exact if_pos hlong
  unfold getBrancheSize
  dsimp only
  rw [hblock, hcount]

theorem getBrancheSize_parts (h : LengthsOk tree) {k c uEnd : ℕ} (Balance : EBalance)
    (htwo : 2 ≤ c) (hint : c < 2 ^ 31) (hgt : (k + c - 1) * partLength tree < uEnd)
    (hle : uEnd ≤ (k + c) * partLength tree) :
    getBrancheSize tree (k * partLength tree) uEnd Balance = leftCount tree.eType Balance c * partLength tree := by
  obtain ⟨d, rfl⟩ : ∃ d, c = d + 2 := ⟨c - 2, by omega⟩
  rw [getBrancheSize_eq h hgt hle, toInt_eq hint, if_neg (by omega), Int.toNat_natCast]

/-- Length of the blocks that a range is split into. -/
def blockOf (tree : CFileHashTree α) (uSize : ℕ) : ℕ :=
  match tree.partSize with
  | none => tree.blockSize
  | some PartSize => if uSize > PartSize then PartSize else tree.blockSize

/-- A range of a few blocks is split by their number, one block not at all. -/
theorem getBrancheSize_blockOf {uBegin uEnd c : ℕ} (Balance : EBalance)
    (hcount : divUp (uEnd - uBegin) (blockOf tree (uEnd - uBegin)) = c) (hint : c < 2 ^ 31) :
    getBrancheSize tree uBegin uEnd Balance = if c ≤ 1 then uEnd - uBegin
      else leftCount tree.eType Balance c * blockOf tree (uEnd - uBegin) := by
  have hsize : getBrancheSize tree uBegin uEnd Balance =
      if toInt (divUp (uEnd - uBegin) (blockOf tree (uEnd - uBegin))) ≤ 1 then uEnd - uBegin
      else leftCount tree.eType Balance (toInt (divUp (uEnd - uBegin) (blockOf tree (uEnd - uBegin)))).toNat *
          blockOf tree (uEnd - uBegin) := rfl
  have hcast : (c : ℤ) ≤ 1 ↔ c ≤ 1 := by omega
  rw [hsize, hcount, toInt_eq hint, Int.toNat_natCast]
  simp only [hcast]

end Ranges

end NeoLoader.HashTreeRanges
