import Mathlib.Data.Vector.Basic
import Mathlib.Data.List.GetD
import NeoLoader.MerkleTree

/-!
# The hash tree of a file

A node has a hash and two children. It counts as a leaf as soon as one child is
missing. The tree of a file replaces the one it had if its root fits to the hash
that is known of the file; a torrent's tree is never compared. Memory that was
not written yet is a parameter of whatever allocates nodes.
-/

namespace NeoLoader.HashTree

open MerkleTree

/-- The types of hashes that have a tree. -/
inductive EFileHashType where
  | HashNeo
  | HashXNeo
  | HashTorrent
  /-- `HashMule`, the tree of AICH. -/
  | HashMule
  | HashTigerTree
  deriving DecidableEq

/-- `SHashTreeNode`, or a null pointer to one. -/
inductive SHashTreeNode (α : Type*) where
  /-- The null pointer. -/
  | null
  /-- A node. -/
  | node (pHash : α) (Left Right : SHashTreeNode α)
  deriving DecidableEq

/-- The hash function, with the marks that a tiger tree adds to its input. -/
structure CHashFunction (α : Type*) where
  /-- The hash of a piece of the file. -/
  leaf : List UInt8 → α
  /-- The hash of the hashes of two children. -/
  branch : α → α → α
  /-- All bytes zero, which stands for a hash that is not known. -/
  zero : α

section Nodes

variable {α : Type*}

namespace SHashTreeNode

/-- `SHashTreeNode::IsLeaf`. -/
def IsLeaf : SHashTreeNode α → Bool
  | node _ (node _ _ _) (node _ _ _) => false
  | _ => true

/-- A new node, with what its memory holds. -/
def alloc (pHash : α) : SHashTreeNode α := node pHash null null

/-- The left child. -/
def left : SHashTreeNode α → SHashTreeNode α
  | null => null
  | node _ Left _ => Left

/-- The right child. -/
def right : SHashTreeNode α → SHashTreeNode α
  | null => null
  | node _ _ Right => Right

/-- The node with another left child. -/
def setLeft : SHashTreeNode α → SHashTreeNode α → SHashTreeNode α
  | null, _ => null
  | node pHash _ Right, Left => node pHash Left Right

/-- The node with another right child. -/
def setRight : SHashTreeNode α → SHashTreeNode α → SHashTreeNode α
  | null, _ => null
  | node pHash Left _, Right => node pHash Left Right

/-- The node with another hash. -/
def setHash : SHashTreeNode α → α → SHashTreeNode α
  | null, _ => null
  | node _ Left Right, pHash => node pHash Left Right

/-- Length of the longest path. -/
def depth : SHashTreeNode α → ℕ
  | null => 0
  | node pHash Left Right =>
    if (node pHash Left Right).IsLeaf then 0 else max Left.depth Right.depth + 1

/-- Number of leaves. -/
def leafCount : SHashTreeNode α → ℕ
  | null => 0
  | node pHash Left Right =>
    if (node pHash Left Right).IsLeaf then 1 else Left.leafCount + Right.leafCount

/-- The node at the end of a path, where `true` stands for left. -/
def sub : SHashTreeNode α → List Bool → SHashTreeNode α
  | t, [] => t
  | t, true :: path => t.left.sub path
  | t, false :: path => t.right.sub path

end SHashTreeNode

open SHashTreeNode

variable (H : CHashFunction α)

/-- The hash of a node. -/
def CHashFunction.hashOf : SHashTreeNode α → α
  | null => H.zero
  | node pHash _ _ => pHash

/-- `CFileHashTree::CalculateBranche`. -/
def calculateBranche : SHashTreeNode α → SHashTreeNode α
  | null => null
  | node _ Left Right => node (H.branch (H.hashOf Left) (H.hashOf Right)) Left Right

/-- `CFileHashTree::CalculateTree`. -/
def calculateTree : SHashTreeNode α → Option (SHashTreeNode α)
  | null => none
  | node pHash Left Right =>
    if (node pHash Left Right).IsLeaf then some (node pHash Left Right)
    else (calculateTree Left).bind fun Left => (calculateTree Right).map fun Right =>
      calculateBranche H (node pHash Left Right)

/-- Every inner node has two children and the hash of their hashes. -/
inductive Valid : SHashTreeNode α → Prop where
  /-- A leaf may have any hash. -/
  | leaf (pHash : α) : Valid (alloc pHash)
  /-- An inner node. -/
  | fork {Left Right : SHashTreeNode α} : Valid Left → Valid Right →
    Valid (node (H.branch (H.hashOf Left) (H.hashOf Right)) Left Right)

/-- A tree with hashes at the leaves, with all inner hashes. -/
def ofTree : Merkle α → SHashTreeNode α
  | Merkle.leaf h => alloc h
  | Merkle.fork l r => node (H.branch (l.root H.branch) (r.root H.branch)) (ofTree l) (ofTree r)

/-- A node has the form and the leaves of a tree, whatever its inner hashes are. -/
inductive HasShape : SHashTreeNode α → Merkle α → Prop where
  /-- A leaf. -/
  | leaf (h : α) : HasShape (alloc h) (Merkle.leaf h)
  /-- An inner node. -/
  | fork (pHash : α) {Left Right : SHashTreeNode α} {l r : Merkle α} : HasShape Left l →
    HasShape Right r → HasShape (node pHash Left Right) (Merkle.fork l r)

variable {H}

theorem isLeaf_node {pHash : α} {Left Right : SHashTreeNode α} (hl : Left ≠ null)
    (hr : Right ≠ null) : (node pHash Left Right).IsLeaf = false := by
  cases Left with
  | null => exact absurd rfl hl
  | node hLeft ll lr =>
    cases Right with
    | null => exact absurd rfl hr
    | node hRight rl rr => rfl

variable {t : SHashTreeNode α}

theorem HasShape.ne_null {T : Merkle α} (h : HasShape t T) : t ≠ null := by
  cases h <;> exact fun he => by cases he

theorem hasShape_ofTree (H : CHashFunction α) (T : Merkle α) : HasShape (ofTree H T) T := by
  induction T with
  | leaf h => exact HasShape.leaf h
  | fork l r ihl ihr => exact HasShape.fork _ ihl ihr

theorem ofTree_ne_null (H : CHashFunction α) (T : Merkle α) : ofTree H T ≠ null :=
  (hasShape_ofTree H T).ne_null

@[simp] theorem hashOf_ofTree (H : CHashFunction α) (T : Merkle α) : H.hashOf (ofTree H T) = T.root H.branch := by
  cases T <;> rfl

theorem HasShape.calculateTree {T : Merkle α} (h : HasShape t T) : calculateTree H t = some (ofTree H T) := by
  induction h with
  | leaf h => rfl
  | fork pHash hl hr ihl ihr =>
    rw [HashTree.calculateTree, isLeaf_node hl.ne_null hr.ne_null, if_neg Bool.false_ne_true, ihl, ihr]
    simp only [Option.bind_some, Option.map_some, calculateBranche, hashOf_ofTree, ofTree]

/-- The valid nodes are the trees with all inner hashes. -/
theorem valid_iff : Valid H t ↔ ∃ T, t = ofTree H T := by
  constructor
  · intro h
    induction h with
    | leaf pHash => exact ⟨Merkle.leaf pHash, rfl⟩
    | fork hl hr ihl ihr =>
      obtain ⟨l, rfl⟩ := ihl
      obtain ⟨r, rfl⟩ := ihr
      exact ⟨Merkle.fork l r, by rw [hashOf_ofTree, hashOf_ofTree, ofTree]⟩
  · rintro ⟨T, rfl⟩
    induction T with
    | leaf h => exact Valid.leaf h
    | fork l r ihl ihr =>
      rw [ofTree, ← hashOf_ofTree H l, ← hashOf_ofTree H r]
      exact Valid.fork ihl ihr

theorem depth_ofTree (H : CHashFunction α) (T : Merkle α) : (ofTree H T).depth = T.height := by
  induction T with
  | leaf h => rfl
  | fork l r ihl ihr =>
    rw [ofTree, depth, isLeaf_node (ofTree_ne_null H l) (ofTree_ne_null H r),
      if_neg Bool.false_ne_true, ihl, ihr, Merkle.height]

theorem leafCount_ofTree (H : CHashFunction α) (T : Merkle α) : (ofTree H T).leafCount = T.leaves.length := by
  induction T with
  | leaf h => rfl
  | fork l r ihl ihr =>
    rw [ofTree, leafCount, isLeaf_node (ofTree_ne_null H l) (ofTree_ne_null H r),
      if_neg Bool.false_ne_true, ihl, ihr, Merkle.leaves, List.length_append]

end Nodes

section File

variable {α : Type*} [DecidableEq α]

/-- `CFileHashTree`, with the hash of the file. -/
structure CFileHashTree (α : Type*) where
  eType : EFileHashType
  totalSize : ℕ
  blockSize : ℕ
  /-- `m_PartSize`, unless it is -1. -/
  partSize : Option ℕ
  depthLimit : ℤ
  hash : α
  treeRoot : SHashTreeNode α

/-- The constructor of `CFileHashTree`. The sizes that only a debug build compares
are left out. -/
def CFileHashTree.create (H : CHashFunction α) (eType : EFileHashType) (totalSize : ℕ)
    (blockSize : Option ℕ) (depthLimit : ℤ) : CFileHashTree α where
  eType := eType
  totalSize := totalSize
  blockSize := match eType with
    | EFileHashType.HashNeo | EFileHashType.HashXNeo => 256 * 1024
    | EFileHashType.HashMule => 184320
    | EFileHashType.HashTigerTree => 1024
    | EFileHashType.HashTorrent => blockSize.getD (64 * 1024)
  partSize := match eType with
    | EFileHashType.HashMule => some 9728000
    | _ => none
  depthLimit := match eType with
    | EFileHashType.HashNeo | EFileHashType.HashXNeo => if depthLimit = -1 then 12 else depthLimit
    | EFileHashType.HashTigerTree => if depthLimit = -1 then 8 else depthLimit
    | EFileHashType.HashMule | EFileHashType.HashTorrent => 64
  hash := H.zero
  treeRoot := SHashTreeNode.null

variable (H : CHashFunction α)

/-- `CFileHashTree::SetTree`. -/
def setTree (TreeRoot : SHashTreeNode α) (tree : CFileHashTree α) : Bool × CFileHashTree α :=
  if tree.eType = EFileHashType.HashTorrent then (true, { tree with treeRoot := TreeRoot })
  else if tree.hash = H.zero then
    (true, { tree with hash := H.hashOf TreeRoot, treeRoot := TreeRoot })
  else if tree.hash = H.hashOf TreeRoot then (true, { tree with treeRoot := TreeRoot })
  else (false, tree)

/-- The tree of a file that knows no hash, the hash of this tree, or is a torrent's. -/
def Accepts (TreeRoot : SHashTreeNode α) (tree : CFileHashTree α) : Prop :=
  tree.eType = EFileHashType.HashTorrent ∨ tree.hash = H.zero ∨ tree.hash = H.hashOf TreeRoot

variable {H} {TreeRoot : SHashTreeNode α} {tree : CFileHashTree α}

theorem setTree_fst_iff : (setTree H TreeRoot tree).1 = true ↔ Accepts H TreeRoot tree := by
  unfold setTree Accepts
  split_ifs <;> simp only [*, true_or, or_true, or_false]

theorem setTree_treeRoot (h : Accepts H TreeRoot tree) : (setTree H TreeRoot tree).2.treeRoot = TreeRoot := by
  have htrue := setTree_fst_iff.mpr h
  unfold setTree at htrue ⊢
  split_ifs at htrue ⊢ <;> rfl

theorem setTree_rejects (h : (setTree H TreeRoot tree).1 = false) : (setTree H TreeRoot tree).2 = tree := by
  unfold setTree at h ⊢
  split_ifs at h ⊢
  rfl

end File

end NeoLoader.HashTree
