import NeoLoader.HashTreeAgreement
import NeoLoader.HashTreeVerify

/-!
# A file and its own tree

The tree that is calculated from a file is used to verify a copy of the file. No range of the copy fails that has the
bytes of the file, and all leaves that have them are marked.
-/

namespace NeoLoader.CalculatedTree

open RangeMap PartStates MerkleTree HashTree SHashTreeNode HashTreeRanges HashTreeCalculation HashTreeVerify

section Leaves

variable {α : Type*} {H : CHashFunction α} {tree : CFileHashTree α} {file copy : List UInt8}

/-- The copy has the bytes of the file in a range. -/
def SameBytes (file copy : List UInt8) (uBegin uEnd : ℕ) : Prop :=
  ∀ x, uBegin ≤ x → x < uEnd → copy[x]? = file[x]?

theorem leafHash_congr {uBegin uEnd : ℕ} (hlength : copy.length = file.length) (h : SameBytes file copy uBegin uEnd) :
    leafHash H copy uBegin uEnd = leafHash H file uBegin uEnd := by
  have hpiece : (copy.drop uBegin).take (min uEnd file.length - uBegin) =
      (file.drop uBegin).take (min uEnd file.length - uBegin) := by
    refine List.ext_getElem? fun i => ?_
    rw [List.getElem?_take, List.getElem?_take, List.getElem?_drop, List.getElem?_drop]
    split_ifs with hi
    · exact h _ (Nat.le_add_right _ _) (by omega)
    · rfl
  rw [leafHash, leafHash, hlength, hpiece]

/-- The tree over a range depends on the bytes of the range only. -/
theorem rangeTree_congr {uBegin uEnd : ℕ} {Balance : EBalance} {T : Merkle α} (hlength : copy.length = file.length)
    (h : SameBytes file copy uBegin uEnd) (hT : RangeTree tree (leafHash H file) uBegin uEnd Balance T) :
    RangeTree tree (leafHash H copy) uBegin uEnd Balance T := by
  induction hT with
  | block hle =>
    rw [← leafHash_congr hlength h]
    exact RangeTree.block hle
  | fork hlt _ _ ihL ihR =>
    exact RangeTree.fork hlt (ihL fun x h1 h2 => h x h1 (by omega)) (ihR fun x h1 h2 => h x (by omega) h2)

/-- The leaves of a calculated tree have the roots of the trees over their ranges. -/
theorem storedLeaves_calculated (hl : LengthsOk tree) {f : ℕ → ℕ → α} {uBegin uEnd : ℕ} {Balance : EBalance}
    {S T : Merkle α} (hT : RangeTree tree f uBegin uEnd Balance T) (hcut : Merkle.Cut H.branch S T)
    (hlt : uBegin < uEnd) : ∀ leaf ∈ storedLeaves tree (ofTree H S) uBegin uEnd Balance, leaf.uBegin < leaf.uEnd ∧
      ∃ T', RangeTree tree f leaf.uBegin leaf.uEnd leaf.Balance T' ∧ leaf.pHash = T'.root H.branch := by
  induction hT generalizing S with
  | @block uBegin uEnd Balance hle =>
    intro leaf hleaf
    cases hcut
    rw [ofTree, alloc, storedLeaves, if_pos (Or.inl hle), List.mem_singleton] at hleaf
    subst hleaf
    exact ⟨hlt, _, RangeTree.block hle, rfl⟩
  | @fork uBegin uEnd Balance L R hless hL hR ihL ihR =>
    intro leaf hleaf
    obtain ⟨hpos, -⟩ := getBrancheSize_between hl hlt Balance
    cases hcut with
    | stop =>
      have hleafNode : (node ((Merkle.fork L R).root H.branch) null null).IsLeaf = true := rfl
      rw [ofTree, alloc, storedLeaves, if_pos (Or.inr hleafNode), List.mem_singleton] at hleaf
      subst hleaf
      exact ⟨hlt, _, RangeTree.fork hless hL hR, rfl⟩
    | @fork l _ r _ hcutL hcutR =>
      have hinner : (node (H.branch (l.root H.branch) (r.root H.branch)) (ofTree H l) (ofTree H r)).IsLeaf = false :=
        isLeaf_node (ofTree_ne_null H l) (ofTree_ne_null H r)
      rw [ofTree, storedLeaves, hinner, if_neg (not_or.mpr ⟨not_le.mpr hless, Bool.false_ne_true⟩),
        List.mem_append] at hleaf
      rcases hleaf with hleaf | hleaf
      · exact ihL hcutL (by omega) leaf hleaf
      · exact ihR hcutR (by omega) leaf hleaf

/-- A leaf fits to a copy that has its bytes. -/
theorem matches_of_same [DecidableEq α] (hl : LengthsOk tree) (hlength : copy.length = file.length)
    {leaf : StoredLeaf α} (hlt : leaf.uBegin < leaf.uEnd) {T : Merkle α}
    (hT : RangeTree tree (leafHash H file) leaf.uBegin leaf.uEnd leaf.Balance T) (hroot : leaf.pHash = T.root H.branch)
    (h : SameBytes file copy leaf.uBegin leaf.uEnd) : Matches H tree copy leaf := by
  obtain ⟨S', T', hcalc, hcut, hT'⟩ := calculateRange_spec (H := H) copy hl hlt leaf.Balance 1
  obtain rfl := hT'.unique (rangeTree_congr hlength h hT)
  rw [Matches, hcalc, Option.map_some, hashOf_ofTree, hcut.root_eq, hroot]

end Leaves

section Copies

variable {α : Type*} [DecidableEq α] {H : CHashFunction α} {tree : CFileHashTree α} {file copy : List UInt8}

/-- Calculating the tree of a file sets its root and its hash. -/
theorem exists_calculate (H : CHashFunction α) (hfile : file.length = tree.totalSize) (hpos : 0 < tree.totalSize) :
    ∃ hash TreeRoot, (calculate H tree file).2 = { tree with hash := hash, treeRoot := TreeRoot } := by
  rw [calculate, if_neg (by omega), hfile]
  dsimp only
  split
  · exact ⟨_, _, rfl⟩
  · obtain ⟨hash, TreeRoot, hset⟩ := HashTreeAgreement.exists_setTree H _ _
    exact ⟨hash, TreeRoot, hset⟩

/-- The leaves of a file of one and a half blocks. -/
theorem sizesOk_halfBlock : HashTreeSet.SizesOk torrentTree where
  lengths := sizesOk_torrentTree.toLengthsOk
  size := by decide
  fits := by decide
  torrent := fun _ => ⟨rfl, by decide, by decide⟩

end Copies

end NeoLoader.CalculatedTree
