import NeoLoader.HashTree

/-!
# Hash trees with a meta hash

The hash of such a file is the one of its meta hash and its root together. Which of the two comes
first is open, and both are checked as soon as both are there. A check that fails forgets both.
-/

namespace NeoLoader.HashTreeEx

open HashTree SHashTreeNode

variable {α : Type*} [DecidableEq α]

structure CFileHashTreeEx (α : Type*) where
  /-- The base class. -/
  base : CFileHashTree α
  /-- `m_MetaHash`, empty if it is not known. -/
  metaHash : List UInt8

/-- The hash of a meta hash and a root hash. -/
structure CMetaHashFunction (α : Type*) extends CHashFunction α where
  /-- The hash of both after each other. -/
  join : List UInt8 → α → α

variable (H : CMetaHashFunction α)

/-- The hash that the file should have. -/
def joined (tree : CFileHashTreeEx α) : α := H.join tree.metaHash (H.hashOf tree.base.treeRoot)

/-- `CFileHashTreeEx::Validate`. -/
def validate (tree : CFileHashTreeEx α) : Bool × CFileHashTreeEx α :=
  if tree.base.hash = H.zero then
    (true, { tree with base := { tree.base with hash := joined H tree } })
  else if tree.base.hash = joined H tree then (true, tree)
  else (false, { base := { tree.base with treeRoot := null }, metaHash := [] })

/-- `CFileHashTreeEx::SetTree`. -/
def setTreeEx (TreeRoot : SHashTreeNode α) (tree : CFileHashTreeEx α) : Bool × CFileHashTreeEx α :=
  let tree := { tree with base := { tree.base with treeRoot := TreeRoot } }
  if tree.metaHash = [] then (true, tree) else validate H tree

/-- `CFileHashTreeEx::SetMetaHash`. -/
def setMetaHash (MetaHash : List UInt8) (tree : CFileHashTreeEx α) : Bool × CFileHashTreeEx α :=
  let tree := { tree with metaHash := MetaHash }
  if tree.base.treeRoot = null then (true, tree) else validate H tree

/-- The file has no meta hash, knows no hash, or knows the hash of its meta hash and the offered root. -/
def AcceptsEx (TreeRoot : SHashTreeNode α) (tree : CFileHashTreeEx α) : Prop :=
  tree.metaHash = [] ∨ tree.base.hash = H.zero ∨ tree.base.hash = H.join tree.metaHash (H.hashOf TreeRoot)

variable {H} {tree : CFileHashTreeEx α}

theorem validate_fst_iff : (validate H tree).1 = true ↔ tree.base.hash = H.zero ∨ tree.base.hash = joined H tree := by
  unfold validate
  split_ifs with hzero hjoined
  · exact ⟨fun _ => Or.inl hzero, fun _ => rfl⟩
  · exact ⟨fun _ => Or.inr hjoined, fun _ => rfl⟩
  · exact iff_of_false not_false (not_or.mpr ⟨hzero, hjoined⟩)

theorem validate_rejects (h : (validate H tree).1 = false) :
    (validate H tree).2 = { base := { tree.base with treeRoot := null }, metaHash := [] } := by
  unfold validate at h ⊢
  split_ifs at h ⊢
  rfl

theorem setTreeEx_fst_iff {TreeRoot : SHashTreeNode α} :
    (setTreeEx H TreeRoot tree).1 = true ↔ AcceptsEx H TreeRoot tree := by
  unfold setTreeEx AcceptsEx
  dsimp only
  split_ifs with hmeta
  · exact ⟨fun _ => Or.inl hmeta, fun _ => rfl⟩
  · rw [validate_fst_iff]
    exact ⟨Or.inr, fun h => h.resolve_left hmeta⟩

/-- A tree that is not taken takes the meta hash and the tree of the file with it. -/
theorem setTreeEx_rejects {TreeRoot : SHashTreeNode α} (h : ¬AcceptsEx H TreeRoot tree) :
    setTreeEx H TreeRoot tree = (false, { base := { tree.base with treeRoot := null }, metaHash := [] }) := by
  have hfalse := eq_false_of_ne_true (mt setTreeEx_fst_iff.mp h)
  have hmeta : tree.metaHash ≠ [] := fun he => h (Or.inl he)
  refine Prod.ext hfalse ?_
  unfold setTreeEx at hfalse ⊢
  dsimp only at hfalse ⊢
  rw [if_neg hmeta] at hfalse ⊢
  exact validate_rejects hfalse

/-- If both are there, the meta hash and the root have the hash of the file. -/
def Checked (H : CMetaHashFunction α) (tree : CFileHashTreeEx α) : Prop :=
  tree.metaHash ≠ [] → tree.base.treeRoot ≠ null → tree.base.hash = joined H tree

theorem checked_validate (tree : CFileHashTreeEx α) : Checked H (validate H tree).2 := by
  unfold validate
  split_ifs with hzero hjoined
  · exact fun _ _ => rfl
  · exact fun _ _ => hjoined
  · exact fun hmeta => absurd rfl hmeta

/-- What can happen to the tree of a file. -/
inductive Op (α : Type*)
  | setTree (TreeRoot : SHashTreeNode α)
  | setMetaHash (MetaHash : List UInt8)

/-- The next state of the tree. -/
def step (H : CMetaHashFunction α) (tree : CFileHashTreeEx α) : Op α → CFileHashTreeEx α
  | .setTree TreeRoot => (setTreeEx H TreeRoot tree).2
  | .setMetaHash MetaHash => (HashTreeEx.setMetaHash H MetaHash tree).2

/-- One operation. -/
theorem checked_step (tree : CFileHashTreeEx α) (op : Op α) : Checked H (step H tree op) := by
  cases op with
  | setTree TreeRoot =>
    unfold step setTreeEx
    dsimp only
    split_ifs with hmeta
    · exact fun hne => absurd hmeta hne
    · exact checked_validate _
  | setMetaHash MetaHash =>
    unfold step setMetaHash
    dsimp only
    split_ifs with hroot
    · exact fun _ hne => absurd hroot hne
    · exact checked_validate _

theorem hash_validate (h : tree.base.hash ≠ H.zero) : (validate H tree).2.base.hash = tree.base.hash := by
  unfold validate
  rw [if_neg h]
  split_ifs <;> rfl

theorem hash_step (h : tree.base.hash ≠ H.zero) (op : Op α) : (step H tree op).base.hash = tree.base.hash := by
  cases op with
  | setTree TreeRoot =>
    unfold step setTreeEx
    dsimp only
    split_ifs
    · rfl
    · refine hash_validate ?_
      exact h
  | setMetaHash MetaHash =>
    unfold step setMetaHash
    dsimp only
    split_ifs
    · rfl
    · refine hash_validate ?_
      exact h

/-- Whatever meta hashes and trees are offered, in any order, a hash that is known stays as it is, and a meta hash and
a tree that are both there have it. -/
theorem checked_run (h : Checked H tree) (ops : List (Op α)) : Checked H (ops.foldl (step H) tree) ∧
      (tree.base.hash ≠ H.zero → (ops.foldl (step H) tree).base.hash = tree.base.hash) := by
  induction ops generalizing tree with
  | nil => exact ⟨h, fun _ => rfl⟩
  | cons op ops ih =>
    obtain ⟨hchecked, hhash⟩ := ih (checked_step tree op)
    refine ⟨hchecked, fun hknown => ?_⟩
    have hkept := hash_step hknown op
    exact (hhash (hkept.symm ▸ hknown)).trans hkept

/-- The tree that `SetTree` refuses changes nothing of a tree without meta hash. With one it changes
something, so that nothing changes only where every tree is taken. -/
theorem setTree_unchanged_iff (H : CMetaHashFunction α) (TreeRoot : SHashTreeNode α)
    (base : CFileHashTree α) (tree : CFileHashTreeEx α) :
    ((setTree H.toCHashFunction TreeRoot base).1 = false → (setTree H.toCHashFunction TreeRoot base).2 = base) ∧
      (((setTreeEx H TreeRoot tree).1 = false → (setTreeEx H TreeRoot tree).2 = tree) ↔ AcceptsEx H TreeRoot tree) := by
  refine ⟨setTree_rejects, ?_⟩
  constructor
  · intro hkept
    by_contra hrefused
    rw [setTreeEx_rejects hrefused] at hkept
    have hmeta := congrArg CFileHashTreeEx.metaHash (hkept rfl)
    exact hrefused (Or.inl hmeta.symm)
  · intro haccept hfalse
    exact absurd (setTreeEx_fst_iff.mpr haccept) (ne_true_of_eq_false hfalse)

/-- A hash function that adds bytes. -/
def sumHash : CMetaHashFunction ℕ where
  leaf := fun bytes => (bytes.map UInt8.toNat).sum + 1
  branch := fun a b => a + b
  zero := 0
  join := fun bytes root => (bytes.map UInt8.toNat).sum + root

/-- A file with a meta hash and a tree that fit. -/
def goodFile : CFileHashTreeEx ℕ where
  base := { CFileHashTree.create sumHash.toCHashFunction EFileHashType.HashXNeo 1 none (-1) with
    hash := 7, treeRoot := alloc 4 }
  metaHash := [3]

/-- A forged tree, a right meta hash and a right tree. -/
def offers : List (Op ℕ) := [.setTree (alloc 5), .setMetaHash [3], .setTree (alloc 4)]

/-- What is offered for the good file. -/
theorem checked_run_offers : Checked sumHash (offers.foldl (step sumHash) goodFile) ∧
    (goodFile.base.hash ≠ sumHash.zero → (offers.foldl (step sumHash) goodFile).base.hash = goodFile.base.hash) :=
  checked_run (fun _ _ => rfl) offers

/-- A forged tree destroys a good one. -/
theorem setTree_unchanged_wrong : Checked sumHash goodFile ∧ (setTreeEx sumHash (alloc 5) goodFile).1 = false ∧
      (setTreeEx sumHash (alloc 5) goodFile).2.base.treeRoot = null ∧
      (setTreeEx sumHash (alloc 5) goodFile).2.metaHash = [] ∧
      (setTreeEx sumHash (alloc 5) goodFile).2 ≠ goodFile := by
  have hmeta : (setTreeEx sumHash (alloc 5) goodFile).2.metaHash = [] := by decide
  refine ⟨fun _ _ => by decide, by decide, by decide, hmeta, fun hsame => ?_⟩
  rw [hsame] at hmeta
  exact absurd hmeta (by decide)

end NeoLoader.HashTreeEx
