import Mathlib.Data.List.Basic
import Mathlib.Tactic.Linarith

/-!
# Random access to bytes

A range of a list can be read and written. Writing behind the end fills the gap. Ranges that have nothing
in common can be written in any order, and do not see each other.
-/

namespace NeoLoader.RandomAccess

variable {α : Type*}

/-- The elements of a range, as far as there are any. -/
def slice (l : List α) (i n : ℕ) : List α := (l.drop i).take n

/-- The list with other elements from a place on; a gap before the place is filled. -/
def put (fill : α) (l : List α) (i : ℕ) (x : List α) : List α :=
  if x = [] then l
  else (l ++ List.replicate (i - l.length) fill).take i ++ x ++ l.drop (i + x.length)

/-- Two ranges have nothing in common. -/
def Apart (i n j m : ℕ) : Prop := i + n ≤ j ∨ j + m ≤ i ∨ n = 0 ∨ m = 0

instance (i n j m : ℕ) : Decidable (Apart i n j m) := instDecidableOr

theorem Apart.symm {i n j m : ℕ} (h : Apart i n j m) : Apart j m i n := by
  unfold Apart at *
  omega

theorem getElem?_slice (l : List α) (i n k : ℕ) : (slice l i n)[k]? = if k < n then l[i + k]? else none := by
  simp [slice, List.getElem?_take, List.getElem?_drop]

theorem length_slice (l : List α) (i n : ℕ) : (slice l i n).length = min n (l.length - i) := by
  simp [slice]

variable {i : ℕ}

theorem slice_append (l r : List α) (n : ℕ) (hi : i ≤ l.length) :
    slice (l ++ r) i n = slice l i (min n (l.length - i)) ++ slice r 0 (n - (l.length - i)) := by
  refine List.ext_getElem? fun k => ?_
  have hfront : (slice l i (min n (l.length - i))).length = min n (l.length - i) := by
    rw [length_slice]
    omega
  rw [List.getElem?_append, hfront, getElem?_slice, getElem?_slice, getElem?_slice, List.getElem?_append]
  grind

theorem slice_append_right (l r : List α) (n : ℕ) (hi : l.length ≤ i) :
    slice (l ++ r) i n = slice r (i - l.length) n := by
  refine List.ext_getElem? fun k => ?_
  rw [getElem?_slice, getElem?_slice, List.getElem?_append]
  grind

@[simp] theorem slice_zero (l : List α) (i : ℕ) : slice l i 0 = [] := by simp [slice]

@[simp] theorem slice_nil (i n : ℕ) : slice ([] : List α) i n = [] := by simp [slice]

theorem slice_self (x : List α) : slice x 0 x.length = x := by simp [slice]

variable (fill : α)

@[simp] theorem put_nil (l : List α) (i : ℕ) : put fill l i [] = l := by simp [put]

variable {x : List α}

theorem length_put (l : List α) (i : ℕ) (hx : x ≠ []) : (put fill l i x).length = max l.length (i + x.length) := by
  simp only [put, hx, if_false, List.length_append, List.length_take, List.length_replicate, List.length_drop]
  omega

theorem length_le_put (l : List α) (i : ℕ) (x : List α) : l.length ≤ (put fill l i x).length := by
  by_cases hx : x = []
  · simp [hx]
  · rw [length_put fill l i hx]
    exact Nat.le_max_left _ _

theorem getElem?_put (l : List α) (i : ℕ) (hx : x ≠ []) (k : ℕ) : (put fill l i x)[k]? =
      if k < i then (if k < l.length then l[k]? else some fill)
      else if k < i + x.length then x[k - i]? else l[k]? := by
  have hfront : ((l ++ List.replicate (i - l.length) fill).take i).length = i := by
    simp only [List.length_take, List.length_append, List.length_replicate]
    omega
  simp only [put, hx, if_false, List.getElem?_append, List.length_append, hfront, List.getElem?_take,
    List.getElem?_replicate, List.getElem?_drop]
  grind

theorem length_put_inside (l : List α) (h : i + x.length ≤ l.length) : (put fill l i x).length = l.length := by
  by_cases hx : x = []
  · simp [hx]
  · rw [length_put fill l i hx]
    exact Nat.max_eq_left h

theorem put_append_left (l r : List α) (h : i + x.length ≤ l.length) : put fill (l ++ r) i x = put fill l i x ++ r := by
  by_cases hx : x = []
  · simp [hx]
  · refine List.ext_getElem? fun k => ?_
    rw [getElem?_put fill _ i hx, List.getElem?_append, List.getElem?_append,
      length_put_inside fill l h, getElem?_put fill _ i hx, List.length_append]
    grind

theorem put_append_right (l r : List α) (h : l.length ≤ i) :
    put fill (l ++ r) i x = l ++ put fill r (i - l.length) x := by
  by_cases hx : x = []
  · simp [hx]
  · refine List.ext_getElem? fun k => ?_
    rw [getElem?_put fill _ i hx, List.getElem?_append, List.getElem?_append,
      getElem?_put fill _ _ hx, List.length_append]
    grind

theorem put_append (l r : List α) {x y : List α} (hi : i + x.length = l.length)
    (hx : x ≠ []) : put fill (l ++ r) i (x ++ y) = put fill l i x ++ put fill r 0 y := by
  by_cases hy : y = []
  · rw [hy, List.append_nil, put_nil, put_append_left fill l r hi.le]
  · have hxy : x ++ y ≠ [] := fun h => hx (List.append_eq_nil_iff.mp h).1
    refine List.ext_getElem? fun k => ?_
    simp only [getElem?_put fill _ i hxy, List.getElem?_append, length_put_inside fill l hi.le,
      getElem?_put fill _ i hx, getElem?_put fill _ 0 hy, List.length_append]
    grind

theorem slice_put (l : List α) (i : ℕ) (x : List α) {j n : ℕ} (hj : i ≤ j)
    (hn : j + n ≤ i + x.length) : slice (put fill l i x) j n = slice x (j - i) n := by
  by_cases hx : x = []
  · rw [hx, List.length_nil] at hn
    have hzero : n = 0 := by omega
    simp [hzero, slice]
  · refine List.ext_getElem? fun k => ?_
    rw [getElem?_slice, getElem?_slice, getElem?_put fill l i hx]
    grind

theorem slice_put_apart (l : List α) {j n : ℕ}
    (hapart : Apart i x.length j n) (hinside : j + n ≤ l.length ∨ i + x.length ≤ l.length) :
    slice (put fill l i x) j n = slice l j n := by
  by_cases hx : x = []
  · simp [hx]
  · refine List.ext_getElem? fun k => ?_
    have hpos := List.length_pos_iff.mpr hx
    rw [getElem?_slice, getElem?_slice, getElem?_put fill l i hx]
    unfold Apart at hapart
    grind

/-- Ranges that are apart can be put in any order. -/
theorem put_put_comm (l : List α) {i j : ℕ} {x y : List α} (hapart : Apart i x.length j y.length) :
    put fill (put fill l i x) j y = put fill (put fill l j y) i x := by
  by_cases hx : x = []
  · simp [hx]
  by_cases hy : y = []
  · simp [hy]
  have hxpos := List.length_pos_iff.mpr hx
  have hypos := List.length_pos_iff.mpr hy
  refine List.ext_getElem? fun k => ?_
  rw [getElem?_put fill _ j hy, getElem?_put fill _ i hx, getElem?_put fill _ i hx,
    getElem?_put fill _ j hy, length_put fill l i hx, length_put fill l j hy]
  unfold Apart at hapart
  grind

end NeoLoader.RandomAccess
