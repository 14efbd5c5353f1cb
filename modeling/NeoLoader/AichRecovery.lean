import NeoLoader.HashTreeCalculation

/-!
# AICH recovery packets

The AICH tree of a file splits it into parts, and each part into blocks. The hashes of the blocks of a part,
with those that lead to the root, are sent with the ids of their paths. The ids have 16 bits for
files up to a size, and 32 bits for larger ones.
-/

namespace NeoLoader.AichRecovery

open MerkleTree HashTree SHashTreeNode HashTreeRanges HashTreeDump HashTreeCalculation

section Code

variable {α : Type*}

/-- `CFileHashTree::Extract`. The memory of new nodes is given by their paths. -/
def extract (tree : CFileHashTree α) (uFrom uTo uResolution : ℕ) :
    (List Bool → α) → SHashTreeNode α → ℕ → ℕ → EBalance → Option (SHashTreeNode α)
  | _, null, _, _, _ => none
  | memory, node pHash Left Right, uBegin, uEnd, Balance =>
    let BrancheSize := getBrancheSize tree uBegin uEnd Balance
    if (uEnd > uFrom ∧ uBegin < uTo) ∧ BrancheSize < uEnd - uBegin ∧ BrancheSize ≥ uResolution ∧
        (node pHash Left Right).IsLeaf = false then
      (extract tree uFrom uTo uResolution (fun path => memory (true :: path)) Left uBegin
        (uBegin + BrancheSize) EBalance.eLeft).bind fun TargetLeft =>
          (extract tree uFrom uTo uResolution (fun path => memory (false :: path)) Right
            (uBegin + BrancheSize) uEnd EBalance.eRight).map (node (memory []) TargetLeft)
    else some (alloc pHash)

variable [DecidableEq α] (H : CHashFunction α)

/-- `CFileHashTree::GetLeafs`. -/
def getLeafs (memory : List Bool → α) (tree : CFileHashTree α) (uFrom uTo : ℕ) : Option (CFileHashTree α) :=
  (extract tree uFrom uTo tree.blockSize memory tree.treeRoot 0 (getTreeSize tree) EBalance.eLeft).map fun TreeRoot =>
      { CFileHashTree.create H tree.eType tree.totalSize none (-1) with treeRoot := TreeRoot }

def ED2K_PARTSIZE : ℕ := 9728000

def ED2K_BLOCKSIZE : ℕ := 184320

def OLD_MAX_EMULE_FILE_SIZE : ℕ := 4290048000

def isLargeEd2kMuleFile (uSize : ℕ) : Bool := uSize > OLD_MAX_EMULE_FILE_SIZE

/-- The number of bytes of an id. -/
def idLength (uSize : ℕ) : ℕ := if isLargeEd2kMuleFile uSize then 4 else 2

/-- `CMuleTags::WriteAICHRecovery`. -/
def writeAICHRecovery {uSize : ℕ} (pBranche : CFileHashTree (List.Vector UInt8 uSize)) : List UInt8 :=
  let Leafs := save pBranche (-1)
  let bI64 := isLargeEd2kMuleFile pBranche.totalSize
  (if bI64 then writeValue 2 0 else []) ++ (writeValue 2 (BitVec.ofInt 32 (count Leafs)).toNat ++
    ((Leafs.take (count Leafs).toNat).flatMap fun leaf =>
      writeValue (idLength pBranche.totalSize) leaf.1.toNat ++ leaf.2.toList) ++
    if bI64 then [] else writeValue 2 0)

/-- The AICH tree of a file. -/
def aichTree (totalSize : ℕ) (hash : α) (TreeRoot : SHashTreeNode α) : CFileHashTree α :=
  { CFileHashTree.create H EFileHashType.HashMule totalSize none (-1) with
    hash := hash, treeRoot := TreeRoot }

end Code

section Ids

variable {α : Type*}

theorem toNat_stepId_lt {TreePath : BitVec 64} {k : ℕ} (h : TreePath.toNat < 2 ^ k) (b : Bool) :
    (stepId TreePath b).toNat < 2 ^ (k + 1) := by
  have hshift : (TreePath <<< 1).toNat < 2 ^ (k + 1) := by
    rw [BitVec.toNat_shiftLeft, Nat.shiftLeft_eq, pow_one, pow_succ]
    exact (Nat.mod_le _ _).trans_lt (by omega)
  cases b with
  | false => exact hshift
  | true =>
    have hone : (1 : BitVec 64).toNat < 2 ^ (k + 1) := Nat.one_lt_two_pow (by omega)
    simpa [stepId] using Nat.or_lt_two_pow hshift hone

/-- An id has a bit more than its path has steps. -/
theorem toNat_pathId_lt (path : List Bool) : (pathId path).toNat < 2 ^ (path.length + 1) := by
  have hfold : ∀ (path : List Bool) (TreePath : BitVec 64) (k : ℕ), TreePath.toNat < 2 ^ k →
      (path.foldl stepId TreePath).toNat < 2 ^ (path.length + k) := by
    intro path
    induction path with
    | nil => simp
    | cons b path ih =>
      intro TreePath k h
      have hrest := ih (stepId TreePath b) (k + 1) (toNat_stepId_lt h b)
      simpa [Nat.add_assoc, Nat.add_comm k 1] using hrest
  exact hfold path 1 1 (by decide)

/-- No path to a subtree is longer than the tree is high. -/
theorem length_le_height_of_sub {T S : Merkle α} {path : List Bool} (h : T.sub path = some S) :
    path.length ≤ T.height := by
  induction T generalizing path with
  | leaf a =>
    cases path with
    | nil => simp
    | cons b path => simp [Merkle.sub] at h
  | fork l r ihl ihr =>
    cases path with
    | nil => simp
    | cons b path =>
      cases b with
      | true =>
        have hle := ihl h
        simp only [List.length_cons, Merkle.height]
        omega
      | false =>
        have hle := ihr h
        simp only [List.length_cons, Merkle.height]
        omega

end Ids

section Heights

variable {α : Type*} {H : CHashFunction α} {totalSize : ℕ} {hash : α} {TreeRoot : SHashTreeNode α}
variable {f : ℕ → ℕ → α} {uBegin uEnd : ℕ} {Balance : EBalance} {T : Merkle α}

theorem lengthsOk_aichTree (H : CHashFunction α) (totalSize : ℕ) (hash : α)
    (TreeRoot : SHashTreeNode α) : LengthsOk (aichTree H totalSize hash TreeRoot) :=
  ⟨by simp [aichTree, CFileHashTree.create], by simp [aichTree, CFileHashTree.create]⟩

theorem blockOf_aichTree (uSize : ℕ) : blockOf (aichTree H totalSize hash TreeRoot) uSize =
    if uSize > ED2K_PARTSIZE then ED2K_PARTSIZE else ED2K_BLOCKSIZE := rfl

theorem toInt_divUp_le {uSize unit d : ℕ} (hunit : 0 < unit) (hd : d < 31)
    (hsize : uSize ≤ 2 ^ d * unit) : toInt (HashTreeRanges.divUp uSize unit) ≤ 2 ^ d := by
  have hle : HashTreeRanges.divUp uSize unit ≤ 2 ^ d := by
    rw [HashTreeRanges.divUp]
    refine Nat.lt_succ_iff.mp ((Nat.div_lt_iff_lt_mul hunit).mpr ?_)
    rw [Nat.succ_mul]
    omega
  have hpow : 2 ^ d < 2 ^ 31 := Nat.pow_lt_pow_right (by omega) hd
  rw [toInt_eq (by omega)]
  exact_mod_cast hle

/-- The tree over a part has up to six levels. -/
theorem height_part (h : RangeTree (aichTree H totalSize hash TreeRoot) f uBegin uEnd Balance T)
    (hle : uEnd - uBegin ≤ ED2K_PARTSIZE) : T.height ≤ 6 := by
  have hblock : ∀ s, ED2K_BLOCKSIZE < s → s ≤ ED2K_PARTSIZE →
      blockOf (aichTree H totalSize hash TreeRoot) s = ED2K_BLOCKSIZE := fun s _ hs => by
    rw [blockOf_aichTree, if_neg (not_lt.mpr hs)]
  have hone : ∀ uBegin uEnd Balance T, uEnd - uBegin ≤ ED2K_BLOCKSIZE → uEnd - uBegin ≤ ED2K_PARTSIZE →
      RangeTree (aichTree H totalSize hash TreeRoot) f uBegin uEnd Balance T → T.height ≤ 0 := by
    intro uBegin uEnd Balance T hunit hpart hT
    cases hT with
    | block => exact le_rfl
    | fork hlt =>
      rw [getBrancheSize_toInt, blockOf_aichTree, if_neg (not_lt.mpr hpart)] at hlt
      have hcount : toInt (HashTreeRanges.divUp (uEnd - uBegin) ED2K_BLOCKSIZE) ≤ 2 ^ 0 :=
        toInt_divUp_le (by decide) (by omega) (by simpa using hunit)
      rw [if_pos (by simpa using hcount)] at hlt
      exact absurd hlt (lt_irrefl _)
  have hsize : uEnd - uBegin ≤ 2 ^ 6 * ED2K_BLOCKSIZE := hle.trans (by decide)
  simpa using h.height_le (by decide) hblock hone hle (toInt_divUp_le (by decide) (by omega) hsize)

theorem height_range {d : ℕ} (h : RangeTree (aichTree H totalSize hash TreeRoot) f uBegin uEnd Balance T)
    (hd : d < 31) (hsize : uEnd - uBegin ≤ 2 ^ d * ED2K_PARTSIZE) : T.height ≤ 6 + d :=
  h.height_le (by decide) (fun s hs _ => by rw [blockOf_aichTree, if_pos hs])
    (fun _ _ _ _ hle _ hT => height_part hT hle) le_rfl (toInt_divUp_le (by decide) hd hsize)

end Heights

section Extracting

variable {α : Type*} {tree : CFileHashTree α} {f : ℕ → ℕ → α} {uBegin uEnd : ℕ} {Balance : EBalance}

/-- What is known of a tree over a range: its nodes are split where the range is. -/
inductive KnownTree (tree : CFileHashTree α) : ℕ → ℕ → EBalance → Merkle α → Prop where
  /-- Only the hash of the range is known. -/
  | leaf {uBegin uEnd : ℕ} {Balance : EBalance} (h : α) : KnownTree tree uBegin uEnd Balance (Merkle.leaf h)
  /-- The hashes of the two sides are known. -/
  | fork {uBegin uEnd : ℕ} {Balance : EBalance} {L R : Merkle α} :
    getBrancheSize tree uBegin uEnd Balance < uEnd - uBegin →
    KnownTree tree uBegin (uBegin + getBrancheSize tree uBegin uEnd Balance) EBalance.eLeft L →
    KnownTree tree (uBegin + getBrancheSize tree uBegin uEnd Balance) uEnd EBalance.eRight R →
    KnownTree tree uBegin uEnd Balance (Merkle.fork L R)

/-- Nothing is known below the blocks. -/
theorem KnownTree.height_le {S T : Merkle α} (hS : KnownTree tree uBegin uEnd Balance S)
    (hT : RangeTree tree f uBegin uEnd Balance T) : S.height ≤ T.height := by
  induction hS generalizing T with
  | leaf h => exact Nat.zero_le _
  | fork hlt _ _ ihl ihr =>
    cases hT with
    | block hle => exact absurd hlt (not_lt.mpr hle)
    | fork _ hL hR =>
      have hl := ihl hL
      have hr := ihr hR
      simp only [Merkle.height]
      omega

theorem length_leaves_le_two_pow (S : Merkle α) : S.leaves.length ≤ 2 ^ S.height := by
  induction S with
  | leaf h => simp [Merkle.leaves, Merkle.height]
  | fork l r ihl ihr =>
    have hl : 2 ^ l.height ≤ 2 ^ max l.height r.height :=
      Nat.pow_le_pow_right (by omega) (le_max_left _ _)
    have hr : 2 ^ r.height ≤ 2 ^ max l.height r.height :=
      Nat.pow_le_pow_right (by omega) (le_max_right _ _)
    simp only [Merkle.leaves, Merkle.height, List.length_append, pow_succ]
    omega

variable {uFrom uTo uResolution : ℕ}

/-- Where `Extract` goes on to the children. -/
def Descends (tree : CFileHashTree α) (uFrom uTo uResolution uBegin uEnd : ℕ) (Balance : EBalance) :
    Prop :=
  (uEnd > uFrom ∧ uBegin < uTo) ∧ getBrancheSize tree uBegin uEnd Balance < uEnd - uBegin ∧
    getBrancheSize tree uBegin uEnd Balance ≥ uResolution

variable (memory : List Bool → α)

theorem extract_leaf (h : α) :
    extract tree uFrom uTo uResolution memory (alloc h) uBegin uEnd Balance = some (alloc h) := by
  have hleaf : (node h null null).IsLeaf = true := rfl
  simp [extract, alloc, hleaf]

theorem extract_stop (pHash : α) (Left Right : SHashTreeNode α)
    (h : ¬Descends tree uFrom uTo uResolution uBegin uEnd Balance) :
    extract tree uFrom uTo uResolution memory (node pHash Left Right) uBegin uEnd Balance = some (alloc pHash) := by
  rw [extract]
  exact if_neg fun hall => h ⟨hall.1, hall.2.1, hall.2.2.1⟩

/-- A node with children is copied with them. -/
theorem extract_fork (pHash : α) {Left Right l r : SHashTreeNode α} (hl : Left ≠ null) (hr : Right ≠ null)
    (h : Descends tree uFrom uTo uResolution uBegin uEnd Balance)
    (hleft : extract tree uFrom uTo uResolution (fun path => memory (true :: path)) Left uBegin
      (uBegin + getBrancheSize tree uBegin uEnd Balance) EBalance.eLeft = some l)
    (hright : extract tree uFrom uTo uResolution (fun path => memory (false :: path)) Right
      (uBegin + getBrancheSize tree uBegin uEnd Balance) uEnd EBalance.eRight = some r) :
    extract tree uFrom uTo uResolution memory (node pHash Left Right) uBegin uEnd Balance =
      some (node (memory []) l r) := by
  rw [extract, if_pos ⟨h.1, h.2.1, h.2.2, isLeaf_node hl hr⟩, hleft, hright]
  rfl

/-- Of a node outside the window only the hash is copied. -/
theorem length_leaves_outside {memory : List Bool → α} {t t' : SHashTreeNode α} {S₀ S : Merkle α} (ht : HasShape t S₀)
    (h : extract tree uFrom uTo uResolution memory t uBegin uEnd Balance = some t')
    (hS : HasShape t' S) (hout : uEnd ≤ uFrom ∨ uTo ≤ uBegin) : S.leaves.length = 1 := by
  have hcopied : ∀ pHash, t' = alloc pHash → S.leaves.length = 1 := by
    rintro pHash rfl
    cases hS with
    | leaf => rfl
    | fork _ hL _ => exact absurd rfl hL.ne_null
  have hstop : ¬Descends tree uFrom uTo uResolution uBegin uEnd Balance := fun hd => by
    have hin := hd.1
    omega
  cases ht with
  | leaf a =>
    rw [extract_leaf] at h
    exact hcopied a (Option.some.inj h).symm
  | fork pHash _ _ =>
    rw [extract_stop memory _ _ _ hstop] at h
    exact hcopied pHash (Option.some.inj h).symm

theorem exists_extract {S₀ : Merkle α} (hS : KnownTree tree uBegin uEnd Balance S₀)
    {t : SHashTreeNode α} (ht : HasShape t S₀) (uFrom uTo uResolution : ℕ) (memory : List Bool → α) :
    ∃ t' S, extract tree uFrom uTo uResolution memory t uBegin uEnd Balance = some t' ∧
      HasShape t' S ∧ KnownTree tree uBegin uEnd Balance S := by
  induction hS generalizing t memory with
  | leaf h =>
    cases ht
    exact ⟨_, _, extract_leaf memory h, HasShape.leaf h, KnownTree.leaf h⟩
  | @fork uBegin uEnd Balance L R hlt _ _ ihl ihr =>
    cases ht with
    | @fork pHash Left Right l r hL hR =>
      by_cases h : Descends tree uFrom uTo uResolution uBegin uEnd Balance
      · obtain ⟨l', SL, hl, hsl, hkl⟩ := ihl hL fun path => memory (true :: path)
        obtain ⟨r', SR, hr, hsr, hkr⟩ := ihr hR fun path => memory (false :: path)
        exact ⟨_, _, extract_fork memory pHash hL.ne_null hR.ne_null h hl hr,
          HasShape.fork _ hsl hsr, KnownTree.fork hlt hkl hkr⟩
      · exact ⟨_, _, extract_stop memory pHash Left Right h, HasShape.leaf _, KnownTree.leaf _⟩

end Extracting

section Windows

variable {α : Type*} {H : CHashFunction α} {totalSize : ℕ} {hash : α} {TreeRoot : SHashTreeNode α}
variable {f : ℕ → ℕ → α} {uBegin uEnd : ℕ} {Balance : EBalance} {T : Merkle α}

theorem exists_branche_parts (hlt : getBrancheSize (aichTree H totalSize hash TreeRoot) uBegin uEnd Balance <
      uEnd - uBegin) (hlarge : ED2K_PARTSIZE < uEnd - uBegin) :
    ∃ w, getBrancheSize (aichTree H totalSize hash TreeRoot) uBegin uEnd Balance = w * ED2K_PARTSIZE := by
  rw [getBrancheSize_toInt, blockOf_aichTree, if_pos hlarge] at hlt ⊢
  split_ifs at hlt ⊢ with hcount
  · exact absurd hlt (lt_irrefl _)
  · exact ⟨_, rfl⟩

/-- What is extracted for a part has the blocks of the part, and one hash for each node above it. -/
theorem exists_extract_part (hT : RangeTree (aichTree H totalSize hash TreeRoot) f uBegin uEnd Balance T)
    {S₀ : Merkle α} (hS : KnownTree (aichTree H totalSize hash TreeRoot) uBegin uEnd Balance S₀)
    {t : SHashTreeNode α} (ht : HasShape t S₀) {k : ℕ} (hbegin : uBegin = k * ED2K_PARTSIZE)
    {uPart uTo : ℕ} (hto : uTo ≤ (uPart + 1) * ED2K_PARTSIZE) (uResolution : ℕ) (memory : List Bool → α) :
    ∃ t' S, extract (aichTree H totalSize hash TreeRoot) (uPart * ED2K_PARTSIZE) uTo uResolution memory
        t uBegin uEnd Balance = some t' ∧
      HasShape t' S ∧ KnownTree (aichTree H totalSize hash TreeRoot) uBegin uEnd Balance S ∧
      S.leaves.length ≤ 2 ^ 6 + T.height := by
  induction hT generalizing S₀ t k memory with
  | block hle =>
    cases hS with
    | leaf h =>
      cases ht
      exact ⟨_, _, extract_leaf memory h, HasShape.leaf h, KnownTree.leaf h, by simp [Merkle.leaves, Merkle.height]⟩
    | fork hlt => exact absurd hlt (not_lt.mpr hle)
  | @fork uBegin uEnd Balance TL TR hlt hTL hTR ihl ihr =>
    cases hS with
    | leaf h =>
      cases ht
      exact ⟨_, _, extract_leaf memory h, HasShape.leaf h, KnownTree.leaf h, by simp [Merkle.leaves]; omega⟩
    | @fork _ _ _ L R _ hkL hkR =>
      by_cases hlarge : ED2K_PARTSIZE < uEnd - uBegin
      · cases ht with
        | @fork pHash Left Right l r hL hR =>
          by_cases h : Descends (aichTree H totalSize hash TreeRoot) (uPart * ED2K_PARTSIZE) uTo
              uResolution uBegin uEnd Balance
          · obtain ⟨w, hw⟩ := exists_branche_parts hlt hlarge
            have hmid : uBegin + getBrancheSize (aichTree H totalSize hash TreeRoot) uBegin uEnd Balance =
                (k + w) * ED2K_PARTSIZE := by rw [hw, hbegin, Nat.add_mul]
            obtain ⟨l', SL, hl, hsl, hkl, hlenl⟩ := ihl hkL hL hbegin fun path => memory (true :: path)
            obtain ⟨r', SR, hr, hsr, hkr, hlenr⟩ := ihr hkR hR hmid fun path => memory (false :: path)
            refine ⟨_, _, extract_fork memory pHash hL.ne_null hR.ne_null h hl hr,
              HasShape.fork _ hsl hsr, KnownTree.fork hlt hkl hkr, ?_⟩
            have hsides : SL.leaves.length = 1 ∨ SR.leaves.length = 1 := by
              by_cases hbefore : k + w ≤ uPart
              · have hle := Nat.mul_le_mul_right ED2K_PARTSIZE hbefore
                exact Or.inl (length_leaves_outside hL hl hsl (Or.inl (by omega)))
              · have hle := Nat.mul_le_mul_right ED2K_PARTSIZE (show uPart + 1 ≤ k + w by omega)
                exact Or.inr (length_leaves_outside hR hr hsr (Or.inr (by omega)))
            simp only [Merkle.leaves, Merkle.height, List.length_append]
            omega
          · exact ⟨_, _, extract_stop memory pHash Left Right h, HasShape.leaf _, KnownTree.leaf _,
              by simp [Merkle.leaves]; omega⟩
      · obtain ⟨t', S, hextract, hshape, hknown⟩ := exists_extract (KnownTree.fork hlt hkL hkR) ht
          (uPart * ED2K_PARTSIZE) uTo uResolution memory
        have hheight := (hknown.height_le (RangeTree.fork hlt hTL hTR)).trans
          (height_part (RangeTree.fork hlt hTL hTR) (not_lt.mp hlarge))
        have hpow := Nat.pow_le_pow_right (show 0 < 2 by omega) hheight
        exact ⟨t', S, hextract, hshape, hknown, ((length_leaves_le_two_pow S).trans hpow).trans (Nat.le_add_right _ _)⟩

end Windows

section Coding

/-- Saving a tree within the limit lists its leaves, whatever the hashes of the other nodes are. -/
theorem saveNode_eq {α : Type*} {t : SHashTreeNode α} {S : Merkle α} (h : HasShape t S)
    (depthLimit : ℤ) (TreePath : BitVec 64) (DepthLimit : ℤ)
    (hlimit : S.height ≤ if DepthLimit = -1 then depthLimit else DepthLimit) :
    saveNode depthLimit t TreePath DepthLimit =
      S.entries.map fun entry => (entry.1.foldl stepId TreePath, entry.2) := by
  induction h generalizing TreePath DepthLimit with
  | leaf a =>
    have hleaf : (node a null null).IsLeaf = true := rfl
    simp [saveNode, alloc, hleaf, Merkle.entries]
  | @fork pHash Left Right l r hl hr ihl ihr =>
    simp only [Merkle.height] at hlimit
    generalize hlim : (if DepthLimit = -1 then depthLimit else DepthLimit) = limit at hlimit
    have hne : ¬limit - 1 = -1 := by omega
    have hleft := ihl (TreePath <<< 1 ||| 1) (limit - 1) (by rw [if_neg hne]; omega)
    have hright := ihr (TreePath <<< 1) (limit - 1) (by rw [if_neg hne]; omega)
    rw [saveNode, hlim, if_pos ⟨isLeaf_node hl.ne_null hr.ne_null, by omega⟩, hleft, hright]
    simp only [Merkle.entries, List.map_append, List.map_map]
    rfl

variable {uSize : ℕ} {H : CHashFunction (List.Vector UInt8 uSize)} {totalSize : ℕ}
variable {t : SHashTreeNode (List.Vector UInt8 uSize)} {S : Merkle (List.Vector UInt8 uSize)}

/-- The tree that a recovery packet is made of. -/
abbrev branche (H : CHashFunction (List.Vector UInt8 uSize)) (totalSize : ℕ)
    (TreeRoot : SHashTreeNode (List.Vector UInt8 uSize)) : CFileHashTree (List.Vector UInt8 uSize) :=
  { CFileHashTree.create H EFileHashType.HashMule totalSize none (-1) with treeRoot := TreeRoot }

theorem save_branche (H : CHashFunction (List.Vector UInt8 uSize)) (totalSize : ℕ) (h : HasShape t S)
    (hheight : S.height < 64) : save (branche H totalSize t) (-1) = S.entries.map fun entry =>
    (pathId entry.1, entry.2) :=
  saveNode_eq h 64 1 (-1) (by rw [if_pos rfl]; omega)

/-- Reading the entries that were written. -/
theorem readRecovery_write (pBranche : CFileHashTree (List.Vector UInt8 uSize))
    (hpos : 0 < (save pBranche (-1)).length) (hlen : (save pBranche (-1)).length < 2 ^ 16)
    (hfits : ∀ leaf ∈ save pBranche (-1), leaf.1.toNat < 256 ^ idLength pBranche.totalSize) :
    readRecovery uSize (writeAICHRecovery pBranche) = some (save pBranche (-1),
      if isLargeEd2kMuleFile pBranche.totalSize then [] else writeValue 2 0,
      isLargeEd2kMuleFile pBranche.totalSize) := by
  have hcount : count (save pBranche (-1)) = (save pBranche (-1)).length := count_eq (by omega)
  have hvalue : (BitVec.ofInt 32 (count (save pBranche (-1)))).toNat = (save pBranche (-1)).length := by
    rw [count, BitVec.ofInt_toInt, BitVec.toNat_ofNat, Nat.mod_eq_of_lt (by omega)]
  have htake : (save pBranche (-1)).take (count (save pBranche (-1))).toNat = save pBranche (-1) := by
    simp [hcount]
  have hread := readEntries_append (save pBranche (-1)) hfits
  have hfit : (save pBranche (-1)).length < 256 ^ 2 := hlen
  unfold readRecovery writeAICHRecovery
  dsimp only
  rw [hvalue, htake]
  unfold idLength at hread ⊢
  cases hlarge : isLargeEd2kMuleFile pBranche.totalSize with
  | true =>
    have hlist := hread []
    simp only [hlarge, if_true, List.append_nil] at hlist ⊢
    rw [readValue_append (by simp), Option.bind_some, if_pos rfl, readValue_append hfit, Option.bind_some, hlist]
    rfl
  | false =>
    have hlist := hread (writeValue 2 0)
    simp only [hlarge, Bool.false_eq_true, if_false, List.nil_append] at hlist ⊢
    rw [List.append_assoc, readValue_append hfit, Option.bind_some, if_neg hpos.ne', hlist]
    rfl

/-- A tree that is read has the ids and hashes of the one that was written. -/
theorem readAICHRecovery_write (h : HasShape t S) (hheight : S.height < 64) (hlen : S.leaves.length < 2 ^ 16)
    (hfits : ∀ entry ∈ S.entries, (pathId entry.1).toNat < 256 ^ idLength totalSize)
    {fuel : ℕ} (hfuel : 64 ≤ fuel) (memory : List Bool → List.Vector UInt8 uSize) :
    ∃ loaded, readAICHRecovery H fuel memory (writeAICHRecovery (branche H totalSize t))
        (CFileHashTree.create H EFileHashType.HashMule totalSize none (-1)) = some ⟨some true, false, loaded⟩ ∧
      save loaded (-1) = save (branche H totalSize t) (-1) := by
  have hsave := save_branche H totalSize h hheight
  have hsaved := save_branche H totalSize (hasShape_ofTree H S) hheight
  have hlength : (save (branche H totalSize t) (-1)).length = S.leaves.length := by
    rw [hsave, List.length_map, Merkle.length_entries]
  have hpos := List.length_pos_iff.mpr (Merkle.leaves_ne_nil S)
  have hread := readRecovery_write (branche H totalSize t) (by omega) (by omega) fun leaf hm => by
      rw [hsave] at hm
      obtain ⟨entry, hentry, rfl⟩ := List.mem_map.mp hm
      exact hfits entry hentry
  have htrim : S = S.trim H.branch (limitOf (branche H totalSize (ofTree H S)) (-1)).toNat :=
    (Merkle.trim_eq_self H.branch (show S.height ≤ 64 by omega)).symm
  have hroot : (branche H totalSize (ofTree H S)).treeRoot = ofTree H S := rfl
  have hload := load_save hroot htrim hheight (by omega) hfuel memory
    (CFileHashTree.create H EFileHashType.HashMule totalSize none (-1))
  rw [hsaved, ← hsave] at hload
  have hset : setTree H (ofTree H S) (CFileHashTree.create H EFileHashType.HashMule totalSize none (-1)) =
      (true, { branche H totalSize (ofTree H S) with hash := H.hashOf (ofTree H S) }) := by
    simp [setTree, CFileHashTree.create]
  have hrest : (!isLargeEd2kMuleFile totalSize && (readValue 2
      (if isLargeEd2kMuleFile totalSize then [] else writeValue 2 0)).isNone) = false := by
    cases isLargeEd2kMuleFile totalSize <;> rfl
  refine ⟨{ branche H totalSize (ofTree H S) with hash := H.hashOf (ofTree H S) }, ?_, hsaved.trans hsave.symm⟩
  rw [readAICHRecovery, hread]
  dsimp only
  rw [hload, Option.map_some, hset]
  exact congrArg (fun bThrown => some (Recovery.mk (some true) bThrown _)) hrest

end Coding

end NeoLoader.AichRecovery
