import Mathlib.Data.Nat.Log
import Mathlib.Tactic.Ring
import Mathlib.Tactic.Linarith

/-!
# Two notations for the nodes of a tree

A node of a binary tree has a path of turns. Its Neo path takes the left turn as the larger one, and its Merkle index
counts the nodes of a level from the left. Either is turned into the other by mirroring a level. A shift by all bits of
a number, or by more, has no result.
-/

namespace NeoLoader.TreeNotation

section Mirroring

/-- The number at the same place of its level from the other end. -/
def mirror (n : ℕ) : ℕ := 3 * 2 ^ n.log2 - 1 - n

variable {n : ℕ}

theorem log2_bounds (h : n ≠ 0) : 2 ^ n.log2 ≤ n ∧ n < 2 * 2 ^ n.log2 := by
  have hlt := Nat.lt_log2_self (n := n)
  rw [Nat.pow_succ] at hlt
  exact ⟨Nat.log2_self_le h, by omega⟩

theorem log2_eq {n k : ℕ} (hlow : 2 ^ k ≤ n) (hhigh : n < 2 * 2 ^ k) : n.log2 = k := by
  have hpos : 0 < 2 ^ k := Nat.two_pow_pos k
  refine (Nat.log2_eq_iff (by omega)).mpr ⟨hlow, ?_⟩
  rw [Nat.pow_succ]
  omega

theorem mirror_bounds (h : n ≠ 0) : 2 ^ n.log2 ≤ mirror n ∧ mirror n < 2 * 2 ^ n.log2 := by
  have hbounds := log2_bounds h
  unfold mirror
  omega

theorem mirror_mirror (h : n ≠ 0) : mirror (mirror n) = n := by
  have hbounds := log2_bounds h
  have hlevel : (mirror n).log2 = n.log2 := log2_eq (mirror_bounds h).1 (mirror_bounds h).2
  rw [mirror, hlevel, mirror]
  omega

theorem log2_child (h : n ≠ 0) {turn : ℕ} (hturn : turn < 2) : (2 * n + turn).log2 = n.log2 + 1 := by
  have hbounds := log2_bounds h
  refine log2_eq ?_ ?_
  · rw [Nat.pow_succ]
    omega
  · rw [Nat.pow_succ]
    omega

theorem mirror_child (h : n ≠ 0) {turn : ℕ} (hturn : turn < 2) : mirror (2 * n + turn) = 2 * mirror n + (1 - turn) := by
  have hbounds := log2_bounds h
  rw [mirror, mirror, log2_child h hturn, Nat.pow_succ]
  omega

end Mirroring

section Paths

/-- The Neo path of a node, whose left turns are `true`. -/
def neoPath : List Bool → ℕ
  | [] => 1
  | left :: turns => 2 * neoPath turns + left.toNat

/-- The Merkle index of a node. The last turn stands first. -/
def merkleIndex : List Bool → ℕ
  | [] => 0
  | left :: turns => 2 * merkleIndex turns + if left then 1 else 2

theorem neoPath_bounds (turns : List Bool) :
    2 ^ turns.length ≤ neoPath turns ∧ neoPath turns < 2 * 2 ^ turns.length := by
  induction turns with
  | nil => simp [neoPath]
  | cons left turns ih =>
    have hleft := left.toNat_le
    rw [neoPath, List.length_cons, Nat.pow_succ]
    omega

theorem mirror_neoPath (turns : List Bool) : mirror (neoPath turns) = merkleIndex turns + 1 := by
  induction turns with
  | nil => decide
  | cons left turns ih =>
    have hbounds := neoPath_bounds turns
    have hpos : 0 < 2 ^ turns.length := Nat.two_pow_pos _
    rw [neoPath, mirror_child (by omega) left.toNat_lt, ih, merkleIndex]
    cases left with
    | false =>
      simp
      omega
    | true =>
      simp
      omega

end Paths

section Conversion

/-- A shift to the right, of less than all bits. -/
def shiftRight (val : UInt32) (n : ℕ) : Option UInt32 := if n < 32 then some (val >>> UInt32.ofNat n) else none

/-- The loop of `cbits` that finds the highest bit, of so many rounds at most. -/
def findBit (val : UInt32) : ℕ → ℕ → Option ℕ
  | 0, _ => none
  | rounds + 1, pos => do
    let rest ← shiftRight val (pos + 1)
    if rest ≠ 0 ∧ pos < 32 then findBit val rounds (pos + 1) else return pos

def cbits (val : UInt32) : Option UInt32 := do
  let pos ← findBit val 32 0
  let hob := 1 <<< UInt32.ofNat pos
  let tmp := (hob <<< 1) - val
  return hob + tmp - 1

def neo2Merkle (N : UInt32) : Option UInt32 := (cbits N).map fun n => n - 1

def merkle2Neo (M : UInt32) : Option UInt32 := cbits (M + 1)

theorem shiftRight_eq (val : UInt32) {n : ℕ} (h : n < 32) :
    ∃ rest, shiftRight val n = some rest ∧ rest.toNat = val.toNat / 2 ^ n := by
  refine ⟨val >>> UInt32.ofNat n, if_pos h, ?_⟩
  have hn : (UInt32.ofNat n).toNat = n := UInt32.toNat_ofNat_of_lt' (by
    show n < 4294967296
    omega)
  rw [UInt32.toNat_shiftRight, hn, Nat.mod_eq_of_lt h, Nat.shiftRight_eq_div_pow]

variable {val : UInt32}

/-- The highest bit is found below the last one. -/
theorem findBit_eq (hpos : val.toNat ≠ 0) (h : val.toNat < 2 ^ 31) {rounds pos : ℕ}
    (hlow : pos ≤ val.toNat.log2) (hrounds : val.toNat.log2 < pos + rounds) :
    findBit val rounds pos = some val.toNat.log2 := by
  have hlast : val.toNat.log2 < 31 := (Nat.log2_lt hpos).mpr h
  induction rounds generalizing pos with
  | zero => omega
  | succ rounds ih =>
    obtain ⟨rest, hshift, hrest⟩ := shiftRight_eq val (show pos + 1 < 32 by omega)
    have hzero : rest ≠ 0 ↔ pos + 1 ≤ val.toNat.log2 := by
      rw [Nat.le_log2 hpos, ne_eq, ← UInt32.toNat_inj, hrest, UInt32.toNat_zero, Nat.div_eq_zero_iff]
      have hpower : 0 < 2 ^ (pos + 1) := Nat.two_pow_pos _
      omega
    rw [findBit, hshift, Option.bind_eq_bind, Option.bind_some]
    by_cases hmore : pos + 1 ≤ val.toNat.log2
    · rw [if_pos ⟨hzero.mpr hmore, by omega⟩]
      exact ih hmore (by omega)
    · rw [if_neg fun hboth => hmore (hzero.mp hboth.1)]
      have hsame : pos = val.toNat.log2 := by omega
      rw [hsame]
      rfl

/-- With the last bit the value is shifted by all of its bits. -/
theorem findBit_eq_none (h : 2 ^ 31 ≤ val.toNat) (rounds : ℕ) {pos : ℕ} (hpos : pos ≤ 31) :
    findBit val rounds pos = none := by
  induction rounds generalizing pos with
  | zero => rfl
  | succ rounds ih =>
    by_cases hlast : pos = 31
    · simp [findBit, shiftRight, hlast]
    · obtain ⟨rest, hshift, hrest⟩ := shiftRight_eq val (show pos + 1 < 32 by omega)
      have hpower : 2 ^ (pos + 1) ≤ 2 ^ 31 := Nat.pow_le_pow_right (by omega) (by omega)
      have hzero : rest ≠ 0 := by
        rw [ne_eq, ← UInt32.toNat_inj, hrest, UInt32.toNat_zero, Nat.div_eq_zero_iff]
        have hpos : 0 < 2 ^ (pos + 1) := Nat.two_pow_pos _
        omega
      rw [findBit, hshift, Option.bind_eq_bind, Option.bind_some, if_pos ⟨hzero, by omega⟩]
      exact ih (by omega)

/-- `cbits` mirrors a level. -/
theorem cbits_eq (hpos : val.toNat ≠ 0) (h : val.toNat < 2 ^ 31) :
    ∃ n, cbits val = some n ∧ n.toNat = mirror val.toNat := by
  have hbounds := log2_bounds hpos
  have hlast : val.toNat.log2 < 31 := (Nat.log2_lt hpos).mpr h
  have hfind : findBit val 32 0 = some val.toNat.log2 := findBit_eq hpos h (by omega) (by omega)
  have hshift : (UInt32.ofNat val.toNat.log2).toNat = val.toNat.log2 := UInt32.toNat_ofNat_of_lt' (by
    show val.toNat.log2 < 4294967296
    omega)
  have hpower : 2 ^ val.toNat.log2 ≤ 2 ^ 30 := Nat.pow_le_pow_right (by omega) (by omega)
  have hhob : ((1 : UInt32) <<< UInt32.ofNat val.toNat.log2).toNat = 2 ^ val.toNat.log2 := by
    rw [UInt32.toNat_shiftLeft, hshift, Nat.mod_eq_of_lt (show val.toNat.log2 < 32 by omega), Nat.shiftLeft_eq]
    simp
    omega
  have hdouble : ((1 : UInt32) <<< UInt32.ofNat val.toNat.log2 <<< 1).toNat = 2 * 2 ^ val.toNat.log2 := by
    rw [UInt32.toNat_shiftLeft, hhob, Nat.shiftLeft_eq]
    simp
    omega
  refine ⟨_, by rw [cbits, hfind]; rfl, ?_⟩
  have htmp : ((1 : UInt32) <<< UInt32.ofNat val.toNat.log2 <<< 1 - val).toNat =
      2 * 2 ^ val.toNat.log2 - val.toNat := by
    rw [UInt32.toNat_sub, hdouble]
    omega
  have hsum : ((1 : UInt32) <<< UInt32.ofNat val.toNat.log2 +
      ((1 : UInt32) <<< UInt32.ofNat val.toNat.log2 <<< 1 - val)).toNat = 3 * 2 ^ val.toNat.log2 - val.toNat := by
    rw [UInt32.toNat_add, hhob, htmp]
    omega
  have hone : (1 : UInt32).toNat = 1 := rfl
  rw [UInt32.toNat_sub, hsum, hone, mirror]
  omega

theorem cbits_eq_none (h : 2 ^ 31 ≤ val.toNat) : cbits val = none := by
  rw [cbits, findBit_eq_none h 32 (by omega)]
  rfl

theorem neo2Merkle_eq {N : UInt32} (hpos : N.toNat ≠ 0) (h : N.toNat < 2 ^ 31) :
    ∃ M, neo2Merkle N = some M ∧ M.toNat + 1 = mirror N.toNat := by
  obtain ⟨n, hn, hvalue⟩ := cbits_eq hpos h
  have hbounds := mirror_bounds hpos
  have hpower : 0 < 2 ^ N.toNat.log2 := Nat.two_pow_pos _
  have hlt := n.toNat_lt
  refine ⟨n - 1, by rw [neo2Merkle, hn, Option.map_some], ?_⟩
  have hone : (1 : UInt32).toNat = 1 := rfl
  rw [UInt32.toNat_sub, hone, hvalue]
  omega

theorem merkle2Neo_eq {M : UInt32} (h : M.toNat + 1 < 2 ^ 31) :
    ∃ N, merkle2Neo M = some N ∧ N.toNat = mirror (M.toNat + 1) := by
  have hnext : (M + 1).toNat = M.toNat + 1 := by
    rw [UInt32.toNat_add]
    simp
    omega
  obtain ⟨N, hN, hvalue⟩ := @cbits_eq (M + 1) (by omega) (by omega)
  rw [hnext] at hvalue
  exact ⟨N, hN, hvalue⟩

end Conversion

section Results

/-- A path of any width, as an argument of 32 bits. -/
def argument (p : ℕ) : UInt32 := UInt32.ofNat p

/-- A path is read back from its index, and its children are at the children of the index. -/
def PathRight (p : ℕ) : Prop :=
  ∃ M, neo2Merkle (argument p) = some M ∧ (∃ N, merkle2Neo M = some N ∧ N.toNat = p) ∧
    (∃ L, neo2Merkle (argument (2 * p + 1)) = some L ∧ L.toNat = 2 * M.toNat + 1) ∧
    ∃ R, neo2Merkle (argument (2 * p)) = some R ∧ R.toNat = 2 * M.toNat + 2

/-- An index is read back from its path. -/
def IndexRight (M : ℕ) : Prop :=
  ∃ N, merkle2Neo (argument M) = some N ∧ ∃ M', neo2Merkle N = some M' ∧ M'.toNat = M

theorem toNat_argument {p : ℕ} (h : p < 2 ^ 32) : (argument p).toNat = p := UInt32.toNat_ofNat_of_lt' h

/-- Exactly the paths whose children do without the last bit are right. -/
theorem pathRight_iff {p : ℕ} (hp : 1 ≤ p) : PathRight p ↔ p < 2 ^ 30 := by
  constructor
  · rintro ⟨M, hM, ⟨N, -, hN⟩, -, R, hR, -⟩
    have hlt := N.toNat_lt
    by_contra hwide
    by_cases hlast : p < 2 ^ 31
    · have hvalue : (argument (2 * p)).toNat = 2 * p := toNat_argument (by omega)
      rw [neo2Merkle, cbits_eq_none (by omega)] at hR
      cases hR
    · have hvalue : (argument p).toNat = p := toNat_argument (by omega)
      rw [neo2Merkle, cbits_eq_none (by omega)] at hM
      cases hM
  · intro hsmall
    have hself := toNat_argument (show p < 2 ^ 32 by omega)
    have hleft := toNat_argument (show 2 * p + 1 < 2 ^ 32 by omega)
    have hright := toNat_argument (show 2 * p < 2 ^ 32 by omega)
    obtain ⟨M, hM, hindex⟩ := neo2Merkle_eq (N := argument p) (by omega) (by omega)
    obtain ⟨L, hL, hlindex⟩ := neo2Merkle_eq (N := argument (2 * p + 1)) (by omega) (by omega)
    obtain ⟨R, hR, hrindex⟩ := neo2Merkle_eq (N := argument (2 * p)) (by omega) (by omega)
    have hlchild := mirror_child (n := p) (by omega) (show 1 < 2 by omega)
    have hrchild := mirror_child (n := p) (by omega) (show 0 < 2 by omega)
    rw [hself] at hindex
    rw [hleft, hlchild] at hlindex
    rw [hright] at hrindex
    rw [Nat.add_zero] at hrchild
    have hbounds := mirror_bounds (n := p) (by omega)
    have hlevel := log2_bounds (n := p) (by omega)
    obtain ⟨N, hN, hback⟩ := merkle2Neo_eq (M := M) (by omega)
    rw [hindex, mirror_mirror (by omega)] at hback
    exact ⟨M, hM, ⟨N, hN, hback⟩, ⟨L, hL, by omega⟩, R, hR, by omega⟩

/-- Exactly the indices of paths without the last bit are right. -/
theorem indexRight_iff (M : ℕ) : IndexRight M ↔ M < 2 ^ 31 - 1 := by
  constructor
  · rintro ⟨N, hN, M', hM', hback⟩
    have hlt := M'.toNat_lt
    have hself : (argument M).toNat = M := toNat_argument (by omega)
    by_contra hwide
    by_cases hlast : M + 1 < 2 ^ 32
    · have hnext : (argument M + 1).toNat = M + 1 := by
        rw [UInt32.toNat_add, hself]
        simp
        omega
      rw [merkle2Neo, cbits_eq_none (by omega)] at hN
      cases hN
    · have hmax : argument M = 0xFFFFFFFF := UInt32.toNat_inj.mp (hself.trans (by
        show M = 4294967295
        omega))
      have hpath : merkle2Neo (0xFFFFFFFF : UInt32) = some 2 := by decide
      have hindex : neo2Merkle 2 = some 2 := by decide
      rw [hmax, hpath] at hN
      rw [← Option.some.inj hN, hindex] at hM'
      have htwo : M'.toNat = 2 := congrArg UInt32.toNat (Option.some.inj hM').symm
      omega
  · intro hsmall
    have hself := toNat_argument (show M < 2 ^ 32 by omega)
    obtain ⟨N, hN, hpath⟩ := merkle2Neo_eq (M := argument M) (by omega)
    rw [hself] at hpath
    have hbounds := mirror_bounds (n := M + 1) (by omega)
    have hlevel := log2_bounds (n := M + 1) (by omega)
    have hlast : (M + 1).log2 < 31 := (Nat.log2_lt (by omega)).mpr (by omega)
    have hpower : 2 ^ (M + 1).log2 ≤ 2 ^ 30 := Nat.pow_le_pow_right (by omega) (by omega)
    obtain ⟨M', hM', hindex⟩ := neo2Merkle_eq (N := N) (by omega) (by omega)
    rw [hpath, mirror_mirror (by omega)] at hindex
    exact ⟨N, hN, M', hM', by omega⟩

/-- The index of a node of the tree is made of its path, up to thirty turns from the root. -/
theorem neo2Merkle_neoPath {turns : List Bool} (h : turns.length ≤ 30) :
    ∃ M, neo2Merkle (argument (neoPath turns)) = some M ∧ M.toNat = merkleIndex turns := by
  have hbounds := neoPath_bounds turns
  have hpos : 0 < 2 ^ turns.length := Nat.two_pow_pos _
  have hpower : 2 ^ turns.length ≤ 2 ^ 30 := Nat.pow_le_pow_right (by omega) h
  have hself := toNat_argument (show neoPath turns < 2 ^ 32 by omega)
  obtain ⟨M, hM, hindex⟩ := neo2Merkle_eq (N := argument (neoPath turns)) (by omega) (by omega)
  rw [hself, mirror_neoPath] at hindex
  exact ⟨M, hM, by omega⟩

/-- A node below the right child of the root. -/
theorem neo2Merkle_neoPath_two : ∃ M, neo2Merkle (argument (neoPath [true, false])) = some M ∧
    M.toNat = merkleIndex [true, false] := neo2Merkle_neoPath (by decide)

/-- The two notations are right for exactly the paths and indices that leave the last bit free. -/
theorem notation_right_iff {p : ℕ} (hp : 1 ≤ p) (M : ℕ) :
    (PathRight p ↔ p < 2 ^ 30) ∧ (IndexRight M ↔ M < 2 ^ 31 - 1) := ⟨pathRight_iff hp, indexRight_iff M⟩

/-- The fifth path and the sixth index. -/
theorem notation_right_five : PathRight 5 ∧ IndexRight 6 :=
  ⟨(notation_right_iff (show 1 ≤ 5 by omega) 6).1.mpr (by omega),
    (notation_right_iff (show 1 ≤ 5 by omega) 6).2.mpr (by omega)⟩

/-- The first path of 32 bits has no index, and its parent has no index for this child. -/
theorem notation_wrong : neo2Merkle (argument (2 ^ 31)) = none ∧ ¬ PathRight (2 ^ 30) ∧ ¬ PathRight (2 ^ 31) := by
  have hnone : neo2Merkle (argument (2 ^ 31)) = none := by decide
  refine ⟨hnone, fun h => ?_, fun h => ?_⟩
  · exact absurd ((pathRight_iff (by omega)).mp h) (by omega)
  · exact absurd ((pathRight_iff (by omega)).mp h) (by omega)

end Results

end NeoLoader.TreeNotation
