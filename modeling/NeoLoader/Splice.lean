import Mathlib.Data.List.Basic
import Mathlib.Tactic.Linarith

/-!
# Splices of lists and moves in memory

A splice puts a list in place of some elements of another one. Memory is a list of
cells, and reading or writing outside of it has no result.
-/

namespace NeoLoader.Splice

variable {α : Type*}

/-- The list with `n` elements from `i` on replaced. -/
def splice (l : List α) (i n : ℕ) (x : List α) : List α := l.take i ++ x ++ l.drop (i + n)

/-- The memory with other cells from `i` on. -/
def write (m : List α) (i : ℕ) (x : List α) : List α := splice m i x.length x

/-- `memcpy` of a list to an address. -/
def memcpy (m : List α) (dst : ℕ) (x : List α) : Option (List α) :=
  if x = [] ∨ dst + x.length ≤ m.length then some (write m dst x) else none

/-- `memmove` within the memory. -/
def memmove (m : List α) (dst src count : ℕ) : Option (List α) :=
  if count = 0 then some m
  else if src + count ≤ m.length ∧ dst + count ≤ m.length then
    some (write m dst ((m.drop src).take count))
  else none

theorem length_splice {l : List α} {i n : ℕ} (h : i + n ≤ l.length) (x : List α) :
    (splice l i n x).length = l.length - n + x.length := by
  simp only [splice, List.length_append, List.length_take, List.length_drop]
  omega

theorem splice_remove_insert {l : List α} {i : ℕ} (h : i ≤ l.length) (n : ℕ) (x : List α) :
    splice (splice l i n []) i 0 x = splice l i n x := by
  refine List.ext_getElem? fun j => ?_
  simp only [splice, List.getElem?_append, List.getElem?_take, List.getElem?_drop,
    List.length_append, List.length_take, List.append_nil]
  grind

variable {m : List α} {x : List α}

theorem length_write {i : ℕ} (h : i + x.length ≤ m.length) : (write m i x).length = m.length := by
  rw [write, length_splice h]
  omega

theorem memcpy_eq {dst : ℕ} (h : dst + x.length ≤ m.length) : memcpy m dst x = some (write m dst x) := if_pos (Or.inr h)

theorem memmove_eq {dst src count : ℕ} (hsrc : src + count ≤ m.length) (hdst : dst + count ≤ m.length) :
    memmove m dst src count = some (write m dst ((m.drop src).take count)) := by
  unfold memmove
  split_ifs with hzero hin
  · subst hzero
    simp [write, splice]
  · rfl
  · exact absurd ⟨hsrc, hdst⟩ hin

theorem take_write {i s : ℕ} (hi : i ≤ s) (h : i + x.length ≤ m.length) :
    (write m i x).take (max s (i + x.length)) = splice (m.take s) i x.length x := by
  refine List.ext_getElem? fun j => ?_
  simp only [write, splice, List.getElem?_take, List.getElem?_append, List.getElem?_drop,
    List.length_append, List.length_take]
  grind

theorem take_write_remove {i n s : ℕ} (h : i + n ≤ s) {count : ℕ}
    (hcount : s - n ≤ i + count) (hin : i + n + count ≤ m.length) :
    (write m i ((m.drop (i + n)).take count)).take (s - n) = splice (m.take s) i n [] := by
  refine List.ext_getElem? fun j => ?_
  simp only [write, splice, List.getElem?_take, List.getElem?_append, List.getElem?_drop,
    List.length_append, List.length_take, List.length_drop]
  grind

theorem take_write_insert {i s : ℕ} (hi : i ≤ s) (h : s + x.length ≤ m.length) :
    (write (write m (i + x.length) ((m.drop i).take (s - i))) i x).take (s + x.length) = splice (m.take s) i 0 x := by
  refine List.ext_getElem? fun j => ?_
  simp only [write, splice, List.getElem?_take, List.getElem?_append, List.getElem?_drop,
    List.length_append, List.length_take, List.length_drop]
  grind

end NeoLoader.Splice
