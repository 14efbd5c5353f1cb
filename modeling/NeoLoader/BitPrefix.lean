import Mathlib.Data.BitVec
import Mathlib.Data.Nat.Bitwise
import Mathlib.Tactic.Ring

/-!
# The first bits of bit vectors

The first bits of a vector are a number. Of two vectors with the same first bits the
one with the next bit set is the larger one, whatever follows.
-/

namespace NeoLoader.BitPrefix

variable {w : ℕ}

/-- The first `L` bits. -/
def topBits (L : ℕ) (x : BitVec w) : BitVec w := x >>> (w - L)

theorem toNat_topBits (L : ℕ) (x : BitVec w) : (topBits L x).toNat = x.toNat / 2 ^ (w - L) := by
  rw [topBits, BitVec.toNat_ushiftRight, Nat.shiftRight_eq_div_pow]

variable {L : ℕ}

theorem toNat_topBits_lt (hL : L ≤ w) (x : BitVec w) : (topBits L x).toNat < 2 ^ L := by
  rw [toNat_topBits, Nat.div_lt_iff_lt_mul (Nat.two_pow_pos _), ← pow_add, Nat.add_sub_cancel' hL]
  exact x.isLt

@[simp] theorem topBits_zero (x : BitVec w) : topBits 0 x = 0 := by
  refine BitVec.eq_of_toNat_eq ?_
  rw [toNat_topBits, Nat.sub_zero, Nat.div_eq_of_lt x.isLt]
  rfl

theorem topBits_all (h : w ≤ L) (x : BitVec w) : topBits L x = x := by
  rw [topBits, Nat.sub_eq_zero_of_le h, BitVec.ushiftRight_zero]

@[simp] theorem topBits_xor (L : ℕ) (x y : BitVec w) :
    topBits L (x ^^^ y) = topBits L x ^^^ topBits L y := BitVec.ushiftRight_xor_distrib ..

theorem toNat_getMsbD (hL : L < w) (x : BitVec w) : (x.getMsbD L).toNat = x.toNat / 2 ^ (w - (L + 1)) % 2 := by
  have hindex : w - 1 - L = w - (L + 1) := by omega
  rw [BitVec.getMsbD_eq_getLsbD, decide_eq_true hL, Bool.true_and, hindex, BitVec.getLsbD,
    Nat.testBit_eq_decide_div_mod_eq]
  rcases Nat.mod_two_eq_zero_or_one (x.toNat / 2 ^ (w - (L + 1))) with h | h <;> simp [h]

theorem toNat_topBits_succ (hL : L < w) (x : BitVec w) :
    (topBits (L + 1) x).toNat = 2 * (topBits L x).toNat + (x.getMsbD L).toNat := by
  have hpow : 2 ^ (w - L) = 2 ^ (w - (L + 1)) * 2 := by
    rw [← pow_succ]
    congr 1
    omega
  rw [toNat_topBits, toNat_topBits, toNat_getMsbD hL, hpow, ← Nat.div_div_eq_div_mul]
  omega

theorem topBits_succ (hL : L < w) (x : BitVec w) :
    topBits (L + 1) x = topBits L x <<< 1 + BitVec.ofNat w (x.getMsbD L).toNat := by
  refine BitVec.eq_of_toNat_eq ?_
  have hlt := (topBits (L + 1) x).isLt
  have hsucc := toNat_topBits_succ hL x
  have hbit : (x.getMsbD L).toNat < 2 := Bool.toNat_lt _
  have htwo : 2 ≤ 2 ^ w := Nat.le_self_pow (by omega) 2
  rw [BitVec.toNat_add, BitVec.toNat_shiftLeft, BitVec.toNat_ofNat, Nat.shiftLeft_eq, pow_one,
    Nat.mod_eq_of_lt (show (topBits L x).toNat * 2 < 2 ^ w by omega),
    Nat.mod_eq_of_lt (show (x.getMsbD L).toNat < 2 ^ w by omega), Nat.mod_eq_of_lt (by omega)]
  omega

theorem lt_of_topBits_eq (hL : L < w) {x y : BitVec w} (h : topBits L x = topBits L y)
    (hx : x.getMsbD L = false) (hy : y.getMsbD L = true) : x.toNat < y.toNat := by
  have hless : (topBits (L + 1) x).toNat < (topBits (L + 1) y).toNat := by
    rw [toNat_topBits_succ hL, toNat_topBits_succ hL, h, hx, hy]
    exact Nat.lt_succ_self _
  rw [toNat_topBits, toNat_topBits] at hless
  exact Nat.lt_of_div_lt_div hless

end NeoLoader.BitPrefix
