import Mathlib.Tactic.Linarith
import NeoLoader.HashTreeCalculation

/-!
# The halves of a range of a hash tree

A range of several blocks is split at a block. The left half of an AICH or Neo range is the larger
one on the left and the smaller one on the right; the one of a tiger tree or a torrent should be the
largest power of two below the number of blocks. Whatever the halves are, in the end the leaves are
the blocks of the file, one after the other.
-/

namespace NeoLoader.HashTreeSplits

open MerkleTree HashTree SHashTreeNode HashTreeRanges HashTreeCalculation

section Powers

theorem exists_two_pow_lt {c : ℕ} (htwo : 2 ≤ c) : ∃ j, 2 ^ j < c ∧ c ≤ 2 ^ (j + 1) := by
  have hle : 2 ^ Nat.log2 (c - 1) ≤ c - 1 := Nat.log2_self_le (by omega)
  have hgt : c - 1 < 2 ^ (Nat.log2 (c - 1) + 1) := Nat.lt_log2_self
  exact ⟨Nat.log2 (c - 1), by omega, by omega⟩

theorem two_pow_unique {c j k : ℕ} (hj : 2 ^ j < c) (hk : c ≤ 2 ^ (k + 1)) : j ≤ k := by
  have hlt : j < k + 1 := (Nat.pow_lt_pow_iff_right (by omega)).mp (hj.trans_le hk)
  omega

/-- Half a number rounded up to a power of two is the highest power of two below the number, unless it
is one more than a power of two. -/
theorem roundUp_half {c j : ℕ} (hlow : 2 ^ j < c) (hhigh : c ≤ 2 ^ (j + 1)) (hlt : c < 2 ^ 63) :
    roundUp (c / 2) = 2 ^ j ↔ ∀ k, 1 ≤ k → c ≠ 2 ^ k + 1 := by
  have hpos := Nat.two_pow_pos j
  obtain ⟨k, hle, hgt, hk⟩ := roundUp_between (n := c / 2) (by omega) (by omega)
  have hjk : k ≤ j := by
    by_contra hne
    have hpow : 2 ^ (j + 1) ≤ 2 ^ k := Nat.pow_le_pow_right (by omega) (by omega)
    rw [pow_succ] at hhigh hpow
    omega
  rw [hk]
  constructor
  · intro heq m hm hc
    have hjm : j = m := by
      refine le_antisymm ?_ ?_
      · have hup : 2 ^ m + 1 ≤ 2 ^ (m + 1) := by
          rw [pow_succ]
          have := Nat.two_pow_pos m
          omega
        exact two_pow_unique hlow (hc ▸ hup)
      · exact two_pow_unique (by omega) hhigh
    obtain ⟨m', rfl⟩ : ∃ m', m = m' + 1 := ⟨m - 1, by omega⟩
    rw [hjm] at heq
    rw [heq, hc] at hgt
    rw [pow_succ] at hgt
    omega
  · intro hother
    by_contra hne
    have hkj : k < j := by
      refine lt_of_le_of_ne hjk fun he => hne (by rw [he])
    obtain ⟨j', rfl⟩ : ∃ j', j = j' + 1 := ⟨j - 1, by omega⟩
    have hpow : 2 ^ k ≤ 2 ^ j' := Nat.pow_le_pow_right (by omega) (by omega)
    refine hother (j' + 1) (by omega) ?_
    rw [pow_succ] at hlow ⊢
    omega

end Powers

section Halves

variable {α : Type*} (tree : CFileHashTree α)

/-- The number of blocks, or of parts, of a range. -/
def countOf (uBegin uEnd : ℕ) : ℕ := divUp (uEnd - uBegin) (blockOf tree (uEnd - uBegin))

/-- The hashes of a tiger tree or a torrent. -/
def IsBinary : Prop :=
  tree.eType = EFileHashType.HashTigerTree ∨ tree.eType = EFileHashType.HashTorrent

instance : Decidable (IsBinary tree) := inferInstanceAs (Decidable (_ ∨ _))

/-- The left half of a range is as it should be: it is neither empty nor the whole range, and consists
of whole blocks, whose number is a power of two for a tiger tree or a torrent, and about half of them
for the others. -/
structure Splits (uBegin uEnd : ℕ) (Balance : EBalance) : Prop where
  /-- The left half is not empty. -/
  pos : 0 < getBrancheSize tree uBegin uEnd Balance
  /-- The right half is not empty. -/
  lt : getBrancheSize tree uBegin uEnd Balance < uEnd - uBegin
  /-- The blocks of the left half. -/
  blocks : ∃ k, getBrancheSize tree uBegin uEnd Balance = k * blockOf tree (uEnd - uBegin) ∧
    (IsBinary tree → ∃ j, k = 2 ^ j ∧ 2 ^ j < countOf tree uBegin uEnd ∧ countOf tree uBegin uEnd ≤ 2 ^ (j + 1)) ∧
    (¬IsBinary tree → k = if Balance = EBalance.eLeft then (countOf tree uBegin uEnd + 1) / 2
      else countOf tree uBegin uEnd / 2)

/-- The number of blocks fits in an `int`, and for a tiger tree or a torrent it is not one more than a
power of two from two on. -/
def CountFits (c : ℕ) : Prop := c < 2 ^ 31 ∧ (IsBinary tree → ∀ k, 1 ≤ k → c ≠ 2 ^ k + 1)

variable {tree}

theorem blockOf_pos (hl : LengthsOk tree) (uSize : ℕ) : 0 < blockOf tree uSize := by
  unfold blockOf
  cases hp : tree.partSize with
  | none => exact hl.block
  | some PartSize =>
    dsimp only
    split_ifs
    exacts [hl.part PartSize hp, hl.block]

/-- The blocks of the left half by their number. -/
theorem leftCount_eq {c : ℕ} (Balance : EBalance) :
    leftCount tree.eType Balance c = if IsBinary tree then roundUp (c / 2)
      else if Balance = EBalance.eLeft then (c + 1) / 2 else c / 2 := by
  unfold leftCount
  by_cases hbinary : IsBinary tree
  · rw [if_pos hbinary]
    exact if_pos hbinary
  · rw [if_neg hbinary, if_neg (show ¬(_ ∨ _) from hbinary)]
    cases Balance with
    | eLeft =>
      rw [if_pos rfl]
      split_ifs with hodd
      · omega
      · have heven : ¬c % 2 = 1 := fun h => hodd ⟨by decide, h⟩
        omega
    | eRight => rw [if_neg (fun h => h.1 rfl), if_neg (by decide)]

/-- A range is split as it should be if and only if its number of blocks fits. -/
theorem splits_iff (hl : LengthsOk tree) {uBegin uEnd : ℕ} (htwo : 2 ≤ countOf tree uBegin uEnd)
    (Balance : EBalance) : Splits tree uBegin uEnd Balance ↔ CountFits tree (countOf tree uBegin uEnd) := by
  have hblock := blockOf_pos hl (uEnd - uBegin)
  have hsize : 0 < uEnd - uBegin := by
    by_contra hzero
    have hcount : countOf tree uBegin uEnd ≤ 1 := by
      unfold countOf divUp
      rw [show uEnd - uBegin = 0 by omega] at hblock ⊢
      rw [Nat.zero_add]
      exact (Nat.div_le_of_le_mul (by omega))
    omega
  obtain ⟨d, hd, hgt, -⟩ := divUp_spec hsize hblock
  have hcount : countOf tree uBegin uEnd = d + 1 := hd
  constructor
  · intro hsplit
    obtain ⟨k, hk, hbinary, hother⟩ := hsplit.blocks
    rw [getBrancheSize_toInt] at hk
    change (if toInt (countOf tree uBegin uEnd) ≤ 1 then _ else _) = _ at hk
    have hlt := hsplit.lt
    rw [getBrancheSize_toInt] at hlt
    change (if toInt (countOf tree uBegin uEnd) ≤ 1 then _ else _) < _ at hlt
    by_cases hone : toInt (countOf tree uBegin uEnd) ≤ 1
    · rw [if_pos hone] at hlt
      exact absurd hlt (lt_irrefl _)
    rw [if_neg hone] at hk
    have hkeq : leftCount tree.eType Balance (toInt (countOf tree uBegin uEnd)).toNat = k :=
      Nat.eq_of_mul_eq_mul_right hblock hk
    rw [leftCount_eq] at hkeq
    have hint := toInt_le (countOf tree uBegin uEnd)
    have hsmall : countOf tree uBegin uEnd < 2 ^ 31 := by
      by_contra hhuge
      -- the number that the `int` holds is too small for the half that is asked for
      have hwrap := (toInt_huge (not_lt.mp hhuge)).resolve_left (by omega)
      by_cases hbin : IsBinary tree
      · obtain ⟨j, hj, -, hup⟩ := hbinary hbin
        rw [if_pos hbin, hj] at hkeq
        obtain ⟨i, hi, hi', hroot⟩ := roundUp_between
          (n := (toInt (countOf tree uBegin uEnd)).toNat / 2) (by omega) (by omega)
        rw [pow_succ] at hup
        omega
      · rw [if_neg hbin, hother hbin] at hkeq
        split_ifs at hkeq <;> omega
    refine ⟨hsmall, fun hbin => ?_⟩
    obtain ⟨j, hj, hlow, hhigh⟩ := hbinary hbin
    rw [toInt_eq hsmall, Int.toNat_natCast, if_pos hbin, hj] at hkeq
    exact (roundUp_half hlow hhigh (by omega)).mp hkeq
  · rintro ⟨hsmall, hpowers⟩
    have hbranch : getBrancheSize tree uBegin uEnd Balance = if countOf tree uBegin uEnd ≤ 1 then
        uEnd - uBegin else leftCount tree.eType Balance (countOf tree uBegin uEnd) *
          blockOf tree (uEnd - uBegin) := getBrancheSize_blockOf Balance rfl hsmall
    rw [if_neg (by omega)] at hbranch
    obtain ⟨hleft, hright⟩ := leftCount_between tree.eType Balance htwo (by omega)
    have hmul := Nat.mul_le_mul_right (blockOf tree (uEnd - uBegin))
      (show leftCount tree.eType Balance (countOf tree uBegin uEnd) ≤ d by omega)
    refine ⟨?_, ?_, _, hbranch, fun hbin => ?_, fun hbin => ?_⟩
    · rw [hbranch]
      exact Nat.mul_pos hleft hblock
    · rw [hbranch]
      exact hmul.trans_lt hgt
    · obtain ⟨j, hlow, hhigh⟩ := exists_two_pow_lt htwo
      refine ⟨j, ?_, hlow, hhigh⟩
      rw [leftCount_eq, if_pos hbin]
      exact (roundUp_half hlow hhigh (by omega)).mpr (hpowers hbin)
    · rw [leftCount_eq, if_neg hbin]

end Halves

section Blocks

variable {α : Type*}

/-- The ranges of `value` bytes that a range consists of, the last one as far as it goes. -/
def blockRanges (uBegin uEnd value : ℕ) : List (ℕ × ℕ) :=
  (List.range (divUp (uEnd - uBegin) value)).map fun i =>
    (uBegin + i * value, min (uBegin + (i + 1) * value) uEnd)

/-- The blocks of a range, part by part. -/
def leafRanges (tree : CFileHashTree α) (uBegin uEnd : ℕ) : List (ℕ × ℕ) :=
  (blockRanges uBegin uEnd (partLength tree)).flatMap fun r => blockRanges r.1 r.2 tree.blockSize

/-- The parts of the range, and the blocks of its first part, are as few as an `int` holds. -/
def LeavesFit (tree : CFileHashTree α) (uBegin uEnd : ℕ) : Prop :=
  divUp (uEnd - uBegin) (partLength tree) < 2 ^ 31 ∧
    divUp (min (uEnd - uBegin) (partLength tree)) tree.blockSize < 2 ^ 31

/-- The leaves of a tree are those of the ranges if the numbers fit, and else they are fewer. -/
structure Covers (f : ℕ → ℕ → α) (T : Merkle α) (rs : List (ℕ × ℕ)) (Fit : Prop) : Prop where
  /-- There are no more leaves than ranges. -/
  le : T.leaves.length ≤ rs.length
  /-- If the numbers fit, the leaves are those of the ranges. -/
  eq : Fit → T.leaves = rs.map fun r => f r.1 r.2
  /-- Else there are fewer. -/
  lt : ¬Fit → T.leaves.length < rs.length

/-- The leaves of two halves. -/
theorem Covers.fork {f : ℕ → ℕ → α} {L R : Merkle α} {ls rs : List (ℕ × ℕ)} {FitL FitR Fit : Prop}
    (hL : Covers f L ls FitL) (hR : Covers f R rs FitR) (hfit : Fit ↔ FitL ∧ FitR) :
    Covers f (Merkle.fork L R) (ls ++ rs) Fit := by
  have hle := hL.le
  have hle' := hR.le
  refine ⟨?_, fun h => ?_, fun h => ?_⟩
  · rw [Merkle.leaves, List.length_append, List.length_append]
    omega
  · obtain ⟨hl, hr⟩ := hfit.mp h
    rw [Merkle.leaves, hL.eq hl, hR.eq hr, List.map_append]
  · rw [Merkle.leaves, List.length_append, List.length_append]
    by_cases hl : FitL
    · have := hR.lt fun hr => h (hfit.mpr ⟨hl, hr⟩)
      omega
    · have := hL.lt hl
      omega

theorem Covers.one (f : ℕ → ℕ → α) (uBegin uEnd : ℕ) {Fit : Prop} (hfit : Fit) :
    Covers f (Merkle.leaf (f uBegin uEnd)) [(uBegin, uEnd)] Fit :=
  ⟨le_rfl, fun _ => rfl, fun h => absurd hfit h⟩

theorem Covers.many (f : ℕ → ℕ → α) (h : α) {rs : List (ℕ × ℕ)} (hlt : 1 < rs.length) {Fit : Prop}
    (hfit : ¬Fit) : Covers f (Merkle.leaf h) rs Fit :=
  ⟨hlt.le, fun h => absurd h hfit, fun _ => hlt⟩

theorem Covers.eq_iff {f : ℕ → ℕ → α} {T : Merkle α} {rs : List (ℕ × ℕ)} {Fit : Prop}
    (h : Covers f T rs Fit) : (T.leaves = rs.map fun r => f r.1 r.2) ↔ Fit := by
  refine ⟨fun heq => ?_, h.eq⟩
  by_contra hne
  have hlt := h.lt hne
  rw [heq, List.length_map] at hlt
  exact lt_irrefl _ hlt

theorem length_blockRanges (uBegin uEnd value : ℕ) :
    (blockRanges uBegin uEnd value).length = divUp (uEnd - uBegin) value := by
  rw [blockRanges, List.length_map, List.length_range]

theorem blockRanges_one {uBegin uEnd value : ℕ} (hlt : uBegin < uEnd) (hle : uEnd - uBegin ≤ value) :
    blockRanges uBegin uEnd value = [(uBegin, uEnd)] := by
  have hcount : divUp (uEnd - uBegin) value = 0 + 1 := divUp_eq (by omega) (by omega)
  rw [blockRanges, hcount, List.range_one, List.map_singleton, Nat.zero_mul, Nat.add_zero, Nat.zero_add,
    Nat.one_mul, min_eq_right (by omega)]

/-- The number of blocks of the two halves. -/
theorem divUp_split {size value l c : ℕ} (hcount : divUp size value = c) (hpos : 0 < value)
    (hsize : 0 < size) (hl : 0 < l) (hlc : l < c) :
    divUp (l * value) value = l ∧ divUp (size - l * value) value = c - l ∧ l * value < size := by
  obtain ⟨d, hd, hgt, hle⟩ := divUp_spec hsize hpos
  obtain ⟨l', rfl⟩ : ∃ l', l = l' + 1 := ⟨l - 1, by omega⟩
  obtain ⟨e, rfl⟩ : ∃ e, d = l' + 1 + e := ⟨d - (l' + 1), by omega⟩
  rw [Nat.add_mul (l' + 1) e] at hgt
  rw [Nat.add_assoc (l' + 1) e 1, Nat.add_mul (l' + 1) (e + 1)] at hle
  refine ⟨divUp_eq (Nat.mul_lt_mul_of_pos_right (Nat.lt_succ_self l') hpos) le_rfl, ?_, by omega⟩
  have hsub : c - (l' + 1) = e + 1 := by omega
  rw [hsub]
  exact divUp_eq (by omega) (by omega)

/-- The blocks of a range are those of its halves. -/
theorem blockRanges_split {uBegin uEnd value l c : ℕ} (hcount : divUp (uEnd - uBegin) value = c)
    (hpos : 0 < value) (hlt : uBegin < uEnd) (hl : 0 < l) (hlc : l < c) : blockRanges uBegin uEnd value =
      blockRanges uBegin (uBegin + l * value) value ++ blockRanges (uBegin + l * value) uEnd value := by
  obtain ⟨hleft, hright, hmid⟩ := divUp_split hcount hpos (by omega) hl hlc
  rw [blockRanges, blockRanges, blockRanges, hcount, Nat.add_sub_cancel_left, hleft, Nat.sub_add_eq,
    hright, show c = l + (c - l) by omega, List.range_add, List.map_append, List.map_map,
    Nat.add_sub_cancel_left]
  congr 1
  · refine List.map_congr_left fun i hi => ?_
    have hi' := Nat.mul_le_mul_right value (show i + 1 ≤ l by
      have := List.mem_range.mp hi
      omega)
    rw [min_eq_left (by omega), min_eq_left (by omega)]
  · refine List.map_congr_left fun i _ => ?_
    rw [Function.comp_apply, Nat.add_mul, Nat.add_assoc l i 1, Nat.add_mul, Nat.add_assoc, Nat.add_assoc]

theorem divUp_mono (value : ℕ) {s t : ℕ} (hle : s ≤ t) : divUp s value ≤ divUp t value :=
  Nat.div_le_div_right (by omega)

theorem leafRanges_parts {tree : CFileHashTree α} (hl : LengthsOk tree) {uBegin uEnd l c : ℕ}
    (hcount : divUp (uEnd - uBegin) (partLength tree) = c) (hlt : uBegin < uEnd) (hpos : 0 < l)
    (hlc : l < c) : leafRanges tree uBegin uEnd = leafRanges tree uBegin (uBegin + l * partLength tree) ++
        leafRanges tree (uBegin + l * partLength tree) uEnd := by
  rw [leafRanges, leafRanges, leafRanges, blockRanges_split hcount hl.partLength_pos hlt hpos hlc, List.flatMap_append]

theorem leafRanges_short (tree : CFileHashTree α) {uBegin uEnd : ℕ} (hlt : uBegin < uEnd)
    (hle : uEnd - uBegin ≤ partLength tree) : leafRanges tree uBegin uEnd = blockRanges uBegin uEnd tree.blockSize := by
  rw [leafRanges, blockRanges_one hlt hle, List.flatMap_singleton]

end Blocks

section Leaves

variable {α : Type*} {tree : CFileHashTree α}

theorem blockOf_eq (tree : CFileHashTree α) (uSize : ℕ) :
    blockOf tree uSize = if uSize > partLength tree then partLength tree else tree.blockSize := by
  unfold blockOf partLength
  cases tree.partSize with
  | none => exact (ite_self _).symm
  | some PartSize => rfl

variable {uBegin uEnd : ℕ}

theorem leavesFit_short (hlt : uBegin < uEnd) (hle : uEnd - uBegin ≤ partLength tree) :
    LeavesFit tree uBegin uEnd ↔ divUp (uEnd - uBegin) tree.blockSize < 2 ^ 31 := by
  have hone : divUp (uEnd - uBegin) (partLength tree) = 0 + 1 := divUp_eq (by omega) (by omega)
  rw [LeavesFit, hone, min_eq_left hle]
  exact ⟨And.right, fun h => ⟨by omega, h⟩⟩

theorem countOf_short (hle : uEnd - uBegin ≤ partLength tree) :
    countOf tree uBegin uEnd = divUp (uEnd - uBegin) tree.blockSize := by
  rw [countOf, blockOf_eq, if_neg (by omega)]

theorem countOf_long (hgt : partLength tree < uEnd - uBegin) :
    countOf tree uBegin uEnd = divUp (uEnd - uBegin) (partLength tree) := by
  rw [countOf, blockOf_eq, if_pos hgt]

section

variable (hl : LengthsOk tree)

include hl

/-- The blocks of a range are those of its halves. -/
theorem leafRanges_split {uBegin uEnd l : ℕ} (hlt : uBegin < uEnd) (hpos : 0 < l) (hlc : l < countOf tree uBegin uEnd) :
    leafRanges tree uBegin uEnd = leafRanges tree uBegin (uBegin + l * blockOf tree (uEnd - uBegin)) ++
        leafRanges tree (uBegin + l * blockOf tree (uEnd - uBegin)) uEnd := by
  rw [blockOf_eq]
  by_cases hlong : uEnd - uBegin > partLength tree
  · rw [countOf_long hlong] at hlc
    rw [if_pos hlong]
    exact leafRanges_parts hl rfl hlt hpos hlc
  · rw [countOf_short (by omega)] at hlc
    obtain ⟨-, -, hmid⟩ := divUp_split rfl hl.block (by omega) hpos hlc
    have hleft : 0 < l * tree.blockSize := Nat.mul_pos hpos hl.block
    rw [if_neg hlong, leafRanges_short tree hlt (by omega), leafRanges_short tree (by omega) (by omega),
      leafRanges_short tree (by omega) (by omega)]
    exact blockRanges_split rfl hl.block hlt hpos hlc

/-- The numbers of a range fit if those of its halves do, where the left half has as many blocks as
an `int` holds. -/
theorem leavesFit_split {uBegin uEnd l : ℕ} (hlt : uBegin < uEnd) (hpos : 0 < l)
    (hint : (l : ℤ) < toInt (countOf tree uBegin uEnd)) :
    LeavesFit tree uBegin uEnd ↔ LeavesFit tree uBegin (uBegin + l * blockOf tree (uEnd - uBegin)) ∧
        LeavesFit tree (uBegin + l * blockOf tree (uEnd - uBegin)) uEnd := by
  obtain ⟨hle, hsmall⟩ := toInt_le (countOf tree uBegin uEnd)
  have hfit : countOf tree uBegin uEnd < 2 ^ 31 ↔ countOf tree uBegin uEnd - l < 2 ^ 31 := by
    refine ⟨fun h => by omega, fun h => ?_⟩
    by_contra hhuge
    have hwrap := toInt_huge (not_lt.mp hhuge)
    omega
  rw [blockOf_eq]
  by_cases hlong : uEnd - uBegin > partLength tree
  · rw [countOf_long hlong] at hfit hint hle hsmall
    obtain ⟨hleft, hright, hmid⟩ := divUp_split rfl hl.partLength_pos (by omega) hpos
      (show l < divUp (uEnd - uBegin) (partLength tree) by omega)
    have hpart : partLength tree ≤ l * partLength tree := Nat.le_mul_of_pos_left _ hpos
    rw [if_pos hlong, LeavesFit, LeavesFit, LeavesFit, Nat.add_sub_cancel_left, hleft, Nat.sub_add_eq,
      hright, min_eq_right (by omega), min_eq_right hpart, hfit]
    have hmono := divUp_mono tree.blockSize (min_le_right (uEnd - uBegin - l * partLength tree) (partLength tree))
    exact ⟨fun h => ⟨⟨by omega, h.2⟩, h.1, by omega⟩, fun h => ⟨h.2.1, h.1.2⟩⟩
  · rw [countOf_short (by omega)] at hfit hint hle hsmall
    obtain ⟨hleft, hright, hmid⟩ := divUp_split rfl hl.block (by omega) hpos
      (show l < divUp (uEnd - uBegin) tree.blockSize by omega)
    have hblock : 0 < l * tree.blockSize := Nat.mul_pos hpos hl.block
    rw [if_neg hlong, leavesFit_short hlt (by omega), leavesFit_short (by omega) (by omega),
      leavesFit_short (by omega) (by omega), Nat.add_sub_cancel_left, hleft, Nat.sub_add_eq, hright, hfit]
    exact ⟨fun h => ⟨by omega, h⟩, And.right⟩

/-- A range has blocks. -/
theorem leafRanges_pos (hlt : uBegin < uEnd) : 0 < (leafRanges tree uBegin uEnd).length := by
  have hshort : ∀ uBegin uEnd, uBegin < uEnd → uEnd - uBegin ≤ partLength tree →
      0 < (leafRanges tree uBegin uEnd).length := by
    intro uBegin uEnd hlt hle
    obtain ⟨d, hd, -, -⟩ := divUp_spec (show 0 < uEnd - uBegin by omega) hl.block
    rw [leafRanges_short tree hlt hle, length_blockRanges]
    omega
  by_cases hlong : uEnd - uBegin ≤ partLength tree
  · exact hshort _ _ hlt hlong
  · obtain ⟨d, hd, hgt, hle⟩ := divUp_spec (show 0 < uEnd - uBegin by omega) hl.partLength_pos
    have hd0 : d ≠ 0 := by
      rintro rfl
      omega
    have hpos := hl.partLength_pos
    rw [leafRanges_parts hl hd hlt (show 0 < 1 by omega) (by omega), List.length_append]
    have := hshort uBegin (uBegin + 1 * partLength tree) (by omega) (by omega)
    omega

theorem one_lt_leafRanges (hlt : uBegin < uEnd)
    (htwo : 2 ≤ countOf tree uBegin uEnd) : 1 < (leafRanges tree uBegin uEnd).length := by
  have hblock := blockOf_pos hl (uEnd - uBegin)
  obtain ⟨-, -, hmid⟩ := divUp_split rfl hblock (by omega) (show 0 < 1 by omega)
    (show 1 < divUp (uEnd - uBegin) (blockOf tree (uEnd - uBegin)) from htwo)
  have hleft := leafRanges_pos hl (show uBegin < uBegin + 1 * blockOf tree (uEnd - uBegin) by omega)
  have hright := leafRanges_pos hl (show uBegin + 1 * blockOf tree (uEnd - uBegin) < uEnd by omega)
  rw [leafRanges_split hl hlt (show 0 < 1 by omega) htwo, List.length_append]
  omega

/-- A range that fits in a block is one block, and one that does not fit in an `int` is split wrong. -/
theorem covers_block (f : ℕ → ℕ → α) (hlt : uBegin < uEnd) (hone : toInt (countOf tree uBegin uEnd) ≤ 1) :
    Covers f (Merkle.leaf (f uBegin uEnd)) (leafRanges tree uBegin uEnd) (LeavesFit tree uBegin uEnd) := by
  have hblock := blockOf_pos hl (uEnd - uBegin)
  obtain ⟨d, hd, hgt, hle⟩ := divUp_spec (show 0 < uEnd - uBegin by omega) hblock
  have hcount : countOf tree uBegin uEnd = d + 1 := hd
  by_cases hsmall : countOf tree uBegin uEnd < 2 ^ 31
  · rw [toInt_eq hsmall] at hone
    have hd0 : d = 0 := by omega
    have hshort : uEnd - uBegin ≤ blockOf tree (uEnd - uBegin) := by
      rw [hd0, Nat.zero_add, Nat.one_mul] at hle
      exact hle
    have hpart : uEnd - uBegin ≤ partLength tree := by
      by_contra hlong
      rw [blockOf_eq, if_pos (by omega)] at hshort
      exact hlong hshort
    rw [countOf_short hpart] at hsmall
    rw [blockOf_eq, if_neg (by omega)] at hshort
    rw [leafRanges_short tree hlt hpart, blockRanges_one hlt hshort]
    exact Covers.one f uBegin uEnd ((leavesFit_short hlt hpart).mpr hsmall)
  · refine Covers.many f _ (one_lt_leafRanges hl hlt (by omega)) fun hfit => hsmall ?_
    by_cases hlong : uEnd - uBegin ≤ partLength tree
    · rw [countOf_short hlong]
      exact (leavesFit_short hlt hlong).mp hfit
    · rw [countOf_long (by omega)]
      exact hfit.1

/-- The leaves of the tree over a range are its blocks, as far as their numbers fit. -/
theorem covers_of_rangeTree {f : ℕ → ℕ → α}
    {Balance : EBalance} {T : Merkle α} (h : RangeTree tree f uBegin uEnd Balance T)
    (hlt : uBegin < uEnd) : Covers f T (leafRanges tree uBegin uEnd) (LeavesFit tree uBegin uEnd) := by
  induction h with
  | @block uBegin uEnd Balance hle =>
    refine covers_block hl f hlt ?_
    by_contra hmany
    obtain ⟨d, hd, hgt, -⟩ := divUp_spec (show 0 < uEnd - uBegin by omega) (blockOf_pos hl (uEnd - uBegin))
    have hcount : countOf tree uBegin uEnd = d + 1 := hd
    obtain ⟨hint, hsmall⟩ := toInt_le (countOf tree uBegin uEnd)
    obtain ⟨-, hleft⟩ := leftCount_between tree.eType Balance
      (show 2 ≤ (toInt (countOf tree uBegin uEnd)).toNat by omega) (by omega)
    have hmul := Nat.mul_le_mul_right (blockOf tree (uEnd - uBegin)) (show leftCount tree.eType Balance
      (toInt (countOf tree uBegin uEnd)).toNat ≤ d by omega)
    have hhalf : getBrancheSize tree uBegin uEnd Balance = leftCount tree.eType Balance
        (toInt (countOf tree uBegin uEnd)).toNat * blockOf tree (uEnd - uBegin) := by
      rw [getBrancheSize_toInt]
      exact if_neg hmany
    omega
  | @fork uBegin uEnd Balance L R hsplit _ _ ihL ihR =>
    have hmany : ¬toInt (countOf tree uBegin uEnd) ≤ 1 := by
      intro hone
      rw [getBrancheSize_toInt] at hsplit
      change (if toInt (countOf tree uBegin uEnd) ≤ 1 then _ else _) < _ at hsplit
      rw [if_pos hone] at hsplit
      exact lt_irrefl _ hsplit
    have hhalf : getBrancheSize tree uBegin uEnd Balance = leftCount tree.eType Balance
        (toInt (countOf tree uBegin uEnd)).toNat * blockOf tree (uEnd - uBegin) := by
      rw [getBrancheSize_toInt]
      exact if_neg hmany
    obtain ⟨hint, hsmall⟩ := toInt_le (countOf tree uBegin uEnd)
    obtain ⟨hpos, hleft⟩ := leftCount_between tree.eType Balance
      (show 2 ≤ (toInt (countOf tree uBegin uEnd)).toNat by omega) (by omega)
    have hbytes := Nat.mul_pos hpos (blockOf_pos hl (uEnd - uBegin))
    rw [hhalf] at ihL ihR hsplit
    rw [leafRanges_split hl hlt hpos (by omega)]
    exact (ihL (by omega)).fork (ihR (by omega)) (leavesFit_split hl hlt hpos (by omega))

end

/-- Hashes that count bytes. -/
def countHash : CHashFunction ℕ where
  leaf := List.length
  branch := fun a b => a + b
  zero := 0

/-- The tiger tree of three blocks. -/
def threeBlocks : CFileHashTree ℕ :=
  CFileHashTree.create countHash EFileHashType.HashTigerTree 3072 none (-1)

theorem lengthsOk_threeBlocks : LengthsOk threeBlocks :=
  ⟨by decide, fun PartSize hp => by cases hp⟩

end Leaves

end NeoLoader.HashTreeSplits
