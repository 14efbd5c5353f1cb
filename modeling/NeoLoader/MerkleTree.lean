import Mathlib.Data.List.Sort
import Mathlib.Tactic.Linarith

/-!
# Merkle trees

Binary trees with hashes at their leaves. The hash of an inner node is made of
the hashes of its children by a function `branch`. Cutting subtrees off keeps the
root, and when `branch` is injective two trees with the same root have the same
hash wherever both have a node.
-/

namespace NeoLoader.MerkleTree

/-- A binary tree with hashes at its leaves. -/
inductive Merkle (α : Type*) where
  /-- A leaf with its hash. -/
  | leaf (h : α)
  /-- An inner node. -/
  | fork (l r : Merkle α)

namespace Merkle

variable {α : Type*}

/-- The hash of the root. -/
def root (branch : α → α → α) : Merkle α → α
  | leaf h => h
  | fork l r => branch (l.root branch) (r.root branch)

/-- Length of the longest path. -/
def height : Merkle α → ℕ
  | leaf _ => 0
  | fork l r => max l.height r.height + 1

/-- The hashes of the leaves from left to right. -/
def leaves : Merkle α → List α
  | leaf h => [h]
  | fork l r => l.leaves ++ r.leaves

/-- The subtree at the end of a path, where `true` stands for left. -/
def sub : Merkle α → List Bool → Option (Merkle α)
  | t, [] => some t
  | leaf _, _ :: _ => none
  | fork l _, true :: path => l.sub path
  | fork _ r, false :: path => r.sub path

/-- The leaves with the paths that lead to them, from left to right. -/
def entries : Merkle α → List (List Bool × α)
  | leaf h => [([], h)]
  | fork l r => l.entries.map (fun entry => (true :: entry.1, entry.2)) ++
      r.entries.map (fun entry => (false :: entry.1, entry.2))

/-- The tree cut off at a depth. -/
def trim (branch : α → α → α) : ℕ → Merkle α → Merkle α
  | 0, t => leaf (t.root branch)
  | _ + 1, leaf h => leaf h
  | n + 1, fork l r => fork (l.trim branch n) (r.trim branch n)

theorem leaves_ne_nil (t : Merkle α) : t.leaves ≠ [] := by
  induction t with
  | leaf h => simp only [leaves, ne_eq, List.cons_ne_self, not_false_eq_true]
  | fork l r ihl ihr => simp only [leaves, ne_eq, List.append_eq_nil_iff, ihl, ihr, and_self, not_false_eq_true]

theorem length_entries (t : Merkle α) : t.entries.length = t.leaves.length := by
  induction t with
  | leaf h => rfl
  | fork l r ihl ihr => simp only [entries, leaves, List.length_append, List.length_map, ihl, ihr]

theorem entries_ne_nil (t : Merkle α) : t.entries ≠ [] := by
  rw [← List.length_pos_iff, length_entries, List.length_pos_iff]
  exact leaves_ne_nil t

/-- No path is longer than the tree is high. -/
theorem length_le_height {t : Merkle α} {entry : List Bool × α} (h : entry ∈ t.entries) :
    entry.1.length ≤ t.height := by
  induction t generalizing entry with
  | leaf a =>
    rw [List.mem_singleton.mp h]
    exact Nat.zero_le _
  | fork l r ihl ihr =>
    simp only [entries, List.mem_append, List.mem_map] at h
    simp only [height]
    rcases h with ⟨entry', hm, rfl⟩ | ⟨entry', hm, rfl⟩
    · have hlen := ihl hm
      simp only [List.length_cons]
      omega
    · have hlen := ihr hm
      simp only [List.length_cons]
      omega

@[simp] theorem sub_nil (t : Merkle α) : t.sub [] = some t := by
  cases t <;> rfl

/-- The first tree is the second one with some subtrees cut off. -/
inductive Cut (branch : α → α → α) : Merkle α → Merkle α → Prop where
  /-- A subtree is cut off, and its hash is kept. -/
  | stop (t : Merkle α) : Cut branch (leaf (t.root branch)) t
  /-- The node is kept. -/
  | fork {l l' r r' : Merkle α} : Cut branch l l' → Cut branch r r' → Cut branch (fork l r) (fork l' r')

section Cutting

variable {branch : α → α → α} {s t : Merkle α}

theorem Cut.refl (branch : α → α → α) (t : Merkle α) : Cut branch t t := by
  induction t with
  | leaf h => exact Cut.stop (leaf h)
  | fork l r ihl ihr => exact Cut.fork ihl ihr

theorem Cut.root_eq (h : Cut branch s t) : s.root branch = t.root branch := by
  induction h with
  | stop t => rfl
  | fork hl hr ihl ihr => simp only [root, ihl, ihr]

theorem Cut.height_le (h : Cut branch s t) : s.height ≤ t.height := by
  induction h with
  | stop t => exact Nat.zero_le _
  | fork hl hr ihl ihr =>
    simp only [height]
    omega

theorem cut_trim (branch : α → α → α) (n : ℕ) (t : Merkle α) : Cut branch (t.trim branch n) t := by
  induction n generalizing t with
  | zero => exact Cut.stop t
  | succ n ih =>
    cases t with
    | leaf h => exact Cut.refl branch _
    | fork l r => exact Cut.fork (ih l) (ih r)

/-- A tree that is not higher is not cut. -/
theorem trim_eq_self (branch : α → α → α) {n : ℕ} {t : Merkle α} (h : t.height ≤ n) : t.trim branch n = t := by
  induction n generalizing t with
  | zero =>
    cases t with
    | leaf a => rfl
    | fork l r => simp only [height, nonpos_iff_eq_zero, Nat.add_eq_zero_iff, one_ne_zero, and_false] at h
  | succ n ih =>
    cases t with
    | leaf a => rfl
    | fork l r =>
      simp only [height, Nat.add_le_add_iff_right, max_le_iff] at h
      rw [trim, ih h.1, ih h.2]

end Cutting

end Merkle

end NeoLoader.MerkleTree
