import NeoLoader.HashTreeCalculation

/-!
# The roots and hash sets of a file agree

The root that is calculated from a file is the one that the file's hash set gives, and
any complete dump of its tree. `GetHashSet` returns the list that `SetHashSet` took.
A torrent's hash set gives another root, since the nodes behind the end of the file
have no hashes, and a list that is too short is taken all the same.
-/

namespace NeoLoader.HashTreeAgreement

open MerkleTree HashTree SHashTreeNode HashTreeRanges HashTreeDump HashTreeSet HashTreeCalculation

section Statement

variable {uSize : ℕ}

/-- Any file that accepts the root calculated from its content gets this root from the
hash set and from a complete dump of the calculated tree, at any limit to the depth. -/
def RootsAgree (H : CHashFunction (List.Vector UInt8 uSize)) (fuel : ℕ)
    (memory : List Bool → List.Vector UInt8 uSize) (behind : ℕ → List.Vector UInt8 uSize)
    (tree : CFileHashTree (List.Vector UInt8 uSize)) (file : List UInt8) : Prop :=
  (calculate H tree file).1 = true ∧ ∀ hash, Accepts H (calculate H tree file).2.treeRoot { tree with hash := hash } →
      (∃ result, setHashSet H fuel memory behind
          ((fileHashes H tree file).map List.Vector.toList) { tree with hash := hash } = some result ∧ result.1 = true ∧
          H.hashOf result.2.treeRoot = H.hashOf (calculate H tree file).2.treeRoot) ∧
        ∀ DepthLimit, (save (calculate H tree file).2 DepthLimit).length < 2 ^ 31 →
          ∃ result, load H fuel memory (save (calculate H tree file).2 DepthLimit)
            { tree with hash := hash } = some result ∧ result.1 = true ∧
            H.hashOf result.2.treeRoot = H.hashOf (calculate H tree file).2.treeRoot

/-- Whatever the hash function is and the memory holds, the roots of every file of this
size agree, and if `SetHashSet` takes the list then `GetHashSet` returns it. -/
def HashesAgree (tree : CFileHashTree (List.Vector UInt8 uSize)) (HashSet : List (List UInt8)) :
    Prop :=
  ∀ H : CHashFunction (List.Vector UInt8 uSize), H.zero = List.Vector.replicate uSize 0 →
    ∀ memory behind, ∃ N, ∀ fuel ≥ N, (∀ file : List UInt8, file.length = tree.totalSize →
        RootsAgree H fuel memory behind tree file) ∧
      ∀ result, setHashSet H fuel memory behind HashSet tree = some result → result.1 = true →
        ∃ list, getHashSet H result.2 fuel memory = some list ∧ list.map List.Vector.toList = HashSet

/-- The tree is no torrent's and has not too many parts. The list is refused at once,
or it has more hashes than the file has parts, or one hash for each part. -/
def HashesFit (tree : CFileHashTree (List.Vector UInt8 uSize)) (HashSet : List (List UInt8)) :
    Prop :=
  tree.eType ≠ EFileHashType.HashTorrent ∧ partCount tree < 2 ^ 31 ∧
    ((∀ Hash ∈ HashSet.head?, Hash.length ≠ uSize) ∨ partCount tree < HashSet.length ∨
      HashSet.length = partCount tree ∧ ∀ Hash ∈ HashSet, Hash.length = uSize)

end Statement

section Calculated

/-- The tree over a range depends on the lengths of blocks and parts only. -/
theorem RangeTree.congr {α : Type*} {tree tree' : CFileHashTree α} {f : ℕ → ℕ → α}
    {uBegin uEnd : ℕ} {Balance : EBalance} {T : Merkle α} (h : RangeTree tree' f uBegin uEnd Balance T)
    (hsame : ∀ uBegin uEnd Balance,
      getBrancheSize tree' uBegin uEnd Balance = getBrancheSize tree uBegin uEnd Balance) :
    RangeTree tree f uBegin uEnd Balance T := by
  induction h with
  | block hle =>
    rw [hsame] at hle
    exact RangeTree.block hle
  | fork hlt _ _ ihL ihR =>
    rw [hsame] at hlt ihL ihR
    exact RangeTree.fork hlt ihL ihR

theorem PartTree.congr {α : Type*} {tree tree' : CFileHashTree α} {f : ℕ → α} {k c : ℕ}
    {Balance : EBalance} {T : Merkle α} (h : PartTree tree' f k c Balance T)
    (hsame : tree'.eType = tree.eType) : PartTree tree f k c Balance T := by
  induction h with
  | part k Balance => exact PartTree.part k Balance
  | fork htwo _ _ ihL ihR =>
    rw [hsame] at ihL ihR
    exact PartTree.fork htwo ihL ihR

variable {α : Type*} [DecidableEq α] {H : CHashFunction α} {tree : CFileHashTree α}

/-- A file has a root. -/
theorem calculate_spec (H : CHashFunction α) (hs : SizesOk tree) {file : List UInt8}
    (hfile : file.length = tree.totalSize) (hpos : 0 < getTreeSize tree) : ∃ S T, (calculate H tree file).1 = true ∧
      (calculate H tree file).2.treeRoot = ofTree H S ∧ Merkle.Cut H.branch S T ∧
      RangeTree tree (leafHash H file) 0 (getTreeSize tree) EBalance.eLeft T := by
  have hsize := hs.size
  have hlengths : LengthsOk
      { tree with treeRoot := null, totalSize := file.length, hash := H.zero } :=
    ⟨hs.lengths.block, hs.lengths.part⟩
  obtain ⟨S, T, hcalc, hcut, hrange⟩ :=
    calculateRange_spec (H := H) file hlengths hpos EBalance.eLeft 1
  have hwhole : getTreeSize
      { tree with treeRoot := null, totalSize := file.length, hash := H.zero } =
        getTreeSize tree := by
    rw [hfile]
    rfl
  have haccept : Accepts H (ofTree H S)
      { tree with treeRoot := null, totalSize := file.length, hash := H.zero } :=
    Or.inr (Or.inl rfl)
  have hsame : ∀ uBegin uEnd Balance, getBrancheSize
      { tree with treeRoot := null, totalSize := file.length, hash := H.zero } uBegin uEnd
        Balance = getBrancheSize tree uBegin uEnd Balance := fun _ _ _ => rfl
  refine ⟨S, T, ?_, ?_, hcut, RangeTree.congr hrange hsame⟩
  all_goals
    rw [calculate, if_neg (by omega)]
    dsimp only
    rw [hwhole, hcalc]
  · exact setTree_fst_iff.mpr haccept
  · exact setTree_treeRoot haccept

theorem exists_setTree (H : CHashFunction α) (t : SHashTreeNode α) (tree : CFileHashTree α) :
    ∃ hash TreeRoot, (setTree H t tree).2 =
      { tree with hash := hash, treeRoot := TreeRoot } := by
  unfold setTree
  split_ifs
  exacts [⟨tree.hash, t, rfl⟩, ⟨H.hashOf t, t, rfl⟩, ⟨tree.hash, t, rfl⟩, ⟨tree.hash, tree.treeRoot, rfl⟩]

omit [DecidableEq α] in
theorem length_fileHashes (H : CHashFunction α) (hs : SizesOk tree)
    (hne : tree.eType ≠ EFileHashType.HashTorrent) (file : List UInt8) :
    (fileHashes H tree file).length = partCount tree ∧
      fileHashes H tree file = partHashes H tree file 0 (partCount tree) EBalance.eLeft := by
  obtain ⟨d, hd, hgt, -⟩ := hs.exists_partCount
  have hfits := hs.fits
  have hmul := Nat.le_mul_of_pos_right d hs.lengths.partLength_pos
  have hlen := length_partHashes H tree file (show 0 < partCount tree by omega) (by omega) 0 EBalance.eLeft
  have hall : fileHashes H tree file = partHashes H tree file 0 (partCount tree) EBalance.eLeft := by
    rw [fileHashes, getTreeSize_eq hne]
    exact List.take_of_length_le hlen.le
  exact ⟨by rw [hall, hlen], hall⟩

end Calculated

section Parts

variable {uSize : ℕ} {tree : CFileHashTree (List.Vector UInt8 uSize)}

theorem mapIdx_copyHash (HashSet : List (List.Vector UInt8 uSize)) (behind : ℕ → List.Vector UInt8 uSize) :
    (HashSet.map List.Vector.toList).mapIdx (fun i Hash => copyHash Hash (behind i)) = HashSet := by
  refine List.ext_getElem (by rw [List.length_mapIdx, List.length_map]) fun i h1 h2 => ?_
  rw [List.getElem_mapIdx, List.getElem_map, copyHash_eq (List.Vector.toList_length _)]
  rfl

theorem exists_map_toList {HashSet : List (List UInt8)} (hsizes : ∀ Hash ∈ HashSet, Hash.length = uSize) :
    ∃ list : List (List.Vector UInt8 uSize), list.map List.Vector.toList = HashSet := by
  induction HashSet with
  | nil => exact ⟨[], rfl⟩
  | cons Hash HashSet ih =>
    obtain ⟨list, hlist⟩ := ih fun Hash hm => hsizes Hash (List.mem_cons_of_mem _ hm)
    exact ⟨⟨Hash, hsizes Hash List.mem_cons_self⟩ :: list, congrArg (Hash :: ·) hlist⟩

/-- A list of one hash for each part makes up the tree over the parts. -/
theorem setHashSet_parts (H : CHashFunction (List.Vector UInt8 uSize)) (hs : SizesOk tree)
    (hne : tree.eType ≠ EFileHashType.HashTorrent) (hint : partCount tree < 2 ^ 31)
    {HashSet : List (List.Vector UInt8 uSize)} (hlen : HashSet.length = partCount tree) {fuel : ℕ}
    (hfuel : partCount tree ≤ fuel) (memory : List Bool → List.Vector UInt8 uSize)
    (behind : ℕ → List.Vector UInt8 uSize) :
    ∃ T, PartTree tree (fun i => HashSet.getD i H.zero) 0 (partCount tree) EBalance.eLeft T ∧
      setHashSet H fuel memory behind (HashSet.map List.Vector.toList) tree = some (setTree H (ofTree H T) tree) := by
  obtain ⟨d, hd, -, -⟩ := hs.exists_partCount
  obtain ⟨t, T, hrun, hshape, hT⟩ := exposeHashes_all hs hint hne HashSet hlen memory H.zero hfuel
  refine ⟨T, hT, ?_⟩
  have hfirst : ∃ Hash ∈ (HashSet.map List.Vector.toList).head?, Hash.length = uSize := by
    cases HashSet with
    | nil =>
      rw [List.length_nil] at hlen
      omega
    | cons Hash HashSet => exact ⟨_, rfl, List.Vector.toList_length Hash⟩
  rw [setHashSet_eq hfirst, mapIdx_copyHash, setHashes, hrun, Option.map_some, hshape.calculateTree]

end Parts

section Agreement

variable {uSize : ℕ} {tree : CFileHashTree (List.Vector UInt8 uSize)}

section

variable (H : CHashFunction (List.Vector UInt8 uSize)) (hs : SizesOk tree)
  (hne : tree.eType ≠ EFileHashType.HashTorrent) (hint : partCount tree < 2 ^ 31)

include H hs hne hint

theorem rootsAgree_of {fuel : ℕ} (hfuel : partCount tree ≤ fuel) (hids : 64 ≤ fuel)
    (memory : List Bool → List.Vector UInt8 uSize) (behind : ℕ → List.Vector UInt8 uSize)
    {file : List UInt8} (hfile : file.length = tree.totalSize) : RootsAgree H fuel memory behind tree file := by
  obtain ⟨d, hd, hgt, hle⟩ := hs.exists_partCount
  have hsize := getTreeSize_eq hne
  obtain ⟨S, T, htrue, hroot, hcut, hrange⟩ := calculate_spec H hs hfile (hsize ▸ hs.size)
  obtain ⟨hlen, hall⟩ := length_fileHashes H hs hne file
  refine ⟨htrue, fun hash haccept => ⟨?_, fun DepthLimit hcount => ?_⟩⟩
  · have hsizes : SizesOk { tree with hash := hash } :=
      ⟨⟨hs.lengths.block, hs.lengths.part⟩, hs.size, hs.fits, hs.torrent⟩
    obtain ⟨P, hP, hset⟩ := setHashSet_parts H hsizes hne hint hlen hfuel memory behind
    have hparts : PartTree tree (fun i => (fileHashes H tree file).getD i H.zero) 0
        (partCount tree) EBalance.eLeft P := PartTree.congr hP rfl
    have hend : min ((0 + partCount tree) * partLength tree) (getTreeSize tree) =
        getTreeSize tree := by
      rw [Nat.zero_add, hd, hsize]
      exact Nat.min_eq_right hle
    have hrange' : RangeTree tree (leafHash H file) (0 * partLength tree)
        (min ((0 + partCount tree) * partLength tree) (getTreeSize tree)) EBalance.eLeft T := by
      rwa [hend, Nat.zero_mul]
    have hsame : P.root H.branch = S.root H.branch := by
      rw [hcut.root_eq]
      refine PartTree.root_eq hs.lengths hparts (by omega) hint
        (by rwa [Nat.zero_add, hd, Nat.add_sub_cancel, hsize]) hrange' fun i hi => ?_
      rw [← hall, Nat.zero_add, List.getElem?_eq_getElem (by omega), List.getD_eq_getElem _ _ (by omega)]
    have hhash : H.hashOf (ofTree H P) = H.hashOf (calculate H tree file).2.treeRoot := by
      rw [hroot, hashOf_ofTree, hashOf_ofTree, hsame]
    have haccept' : Accepts H (ofTree H P) { tree with hash := hash } := by
      unfold Accepts at haccept ⊢
      rwa [hhash]
    refine ⟨_, hset, setTree_fst_iff.mpr haccept', ?_⟩
    rw [setTree_treeRoot haccept', hhash]
  · have hcut' := Merkle.cut_trim H.branch (limitOf (calculate H tree file).2 DepthLimit).toNat S
    have hhash : H.hashOf (ofTree H (S.trim H.branch (limitOf (calculate H tree file).2 DepthLimit).toNat)) =
          H.hashOf (calculate H tree file).2.treeRoot := by
      rw [hroot, hashOf_ofTree, hashOf_ofTree, hcut'.root_eq]
    have haccept' : Accepts H (ofTree H (S.trim H.branch
        (limitOf (calculate H tree file).2 DepthLimit).toNat)) { tree with hash := hash } := by
      unfold Accepts at haccept ⊢
      rwa [hhash]
    have hheight := (hcut'.height_le.trans hcut.height_le).trans_lt (hrange.height_lt hs.lengths)
    rw [save_ofTree hroot, List.length_map, Merkle.length_entries] at hcount
    refine ⟨_, load_save hroot rfl hheight hcount hids memory _, setTree_fst_iff.mpr haccept', ?_⟩
    rw [setTree_treeRoot haccept', hhash]

/-- What `SetHashSet` took is what `GetHashSet` returns. -/
theorem getHashSet_setHashSet {HashSet : List (List UInt8)} (hcount : HashSet.length = partCount tree)
    (hsizes : ∀ Hash ∈ HashSet, Hash.length = uSize) {fuel : ℕ} (hfuel : partCount tree < fuel)
    (memory : List Bool → List.Vector UInt8 uSize) (behind : ℕ → List.Vector UInt8 uSize)
    {result : Bool × CFileHashTree (List.Vector UInt8 uSize)}
    (hrun : setHashSet H fuel memory behind HashSet tree = some result) (htrue : result.1 = true) :
    ∃ list, getHashSet H result.2 fuel memory = some list ∧ list.map List.Vector.toList = HashSet := by
  obtain ⟨d, hd, hgt, hle⟩ := hs.exists_partCount
  obtain ⟨list, rfl⟩ := exists_map_toList hsizes
  rw [List.length_map] at hcount
  obtain ⟨T, hT, hset⟩ := setHashSet_parts H hs hne hint hcount hfuel.le memory behind
  rw [hset] at hrun
  obtain rfl := Option.some.inj hrun
  have haccept := setTree_fst_iff.mp htrue
  obtain ⟨hash, TreeRoot, hafter⟩ := exists_setTree H (ofTree H T) tree
  have hroot := setTree_treeRoot haccept
  rw [hafter] at hroot
  obtain rfl : TreeRoot = ofTree H T := hroot
  refine ⟨list, ?_, rfl⟩
  have hlengths : LengthsOk { tree with hash := hash, treeRoot := ofTree H T } :=
    ⟨hs.lengths.block, hs.lengths.part⟩
  have hparts : PartTree { tree with hash := hash, treeRoot := ofTree H T }
      (fun i => list.getD i H.zero) 0 (partCount tree) EBalance.eLeft T := PartTree.congr hT rfl
  have hresolved : canHashParts { tree with hash := hash, treeRoot := ofTree H T } = true := by
    have hall := isFullyResolvedNode_ofTree (H := H) hlengths hparts (by omega) hint
      (show (0 + partCount tree - 1) * partLength tree < tree.totalSize by
        rwa [Nat.zero_add, hd, Nat.add_sub_cancel]) (by rwa [Nat.zero_add, hd]) 0
      tree.totalSize 1
    rw [Nat.zero_mul] at hall
    have hwhole : getTreeSize { tree with hash := hash, treeRoot := ofTree H T } =
        tree.totalSize := getTreeSize_eq hne
    rw [canHashParts, hwhole]
    exact hall
  have hread := getHashSetLoop_ofTree (H := H) hlengths hparts hint
    (show (partCount tree - 1) * partLength tree < tree.totalSize by
      rwa [hd, Nat.add_sub_cancel]) (by rwa [hd]) hfuel.le memory (Nat.zero_add _) hfuel
  rw [Nat.zero_mul] at hread
  rw [hafter, getHashSet, if_pos hresolved]
  refine hread.trans (congrArg some ?_)
  refine List.ext_getElem (by rw [List.length_map, List.length_range', hcount]) fun i h1 h2 => ?_
  rw [List.getElem_map, List.getElem_range', Nat.zero_add, Nat.one_mul, List.getD_eq_getElem _ _ h2]

end

end Agreement

section Disagreement

variable {uSize : ℕ} {tree : CFileHashTree (List.Vector UInt8 uSize)}

/-- If all leaves have one hash and the hash of a node is that of its right child, the
root has it too. -/
theorem RangeTree.root_right {α : Type*} {tree : CFileHashTree α} {branch : α → α → α}
    (hright : ∀ a b, branch a b = b) {v : α} {uBegin uEnd : ℕ} {Balance : EBalance} {T : Merkle α}
    (h : RangeTree tree (fun _ _ => v) uBegin uEnd Balance T) : T.root branch = v := by
  induction h with
  | block => rfl
  | fork _ _ _ _ ihR => rw [Merkle.root, hright, ihR]

variable {HashSet : List (List UInt8)}

/-- If the roots of a tree's files agree, it is no torrent's. -/
theorem HashesAgree.ne_torrent (huSize : 0 < uSize) (hs : SizesOk tree) (h : HashesAgree tree HashSet) :
    tree.eType ≠ EFileHashType.HashTorrent := by
  intro ht
  obtain ⟨hsize, hmore, -⟩ := hs.treeSize_torrent ht
  have hpart := hs.lengths.partLength_pos
  obtain ⟨N, hN⟩ := h (rightHash uSize) rfl (fun _ => List.Vector.replicate uSize 1)
    fun _ => List.Vector.replicate uSize 0
  obtain ⟨-, hroots⟩ := (hN N le_rfl).1 (List.replicate tree.totalSize 0) List.length_replicate
  obtain ⟨⟨result, hrun, hdone, hsame⟩, -⟩ := hroots tree.hash (Or.inl ht)
  obtain ⟨S, T, -, hroot, hcut, hrange⟩ := calculate_spec (rightHash uSize) hs
    (List.length_replicate (a := (0 : UInt8))) (by
      rw [hsize]
      exact Nat.mul_pos (Nat.two_pow_pos _) hpart)
  have hleaf : leafHash (rightHash uSize) (List.replicate tree.totalSize 0) =
      fun _ _ => List.Vector.replicate uSize 0 := by
    funext uBegin uEnd
    exact ite_self _
  rw [hleaf] at hrange
  have hzero : T.root (rightHash uSize).branch = List.Vector.replicate uSize 0 :=
    RangeTree.root_right (fun _ _ => rfl) hrange
  rw [hroot, hashOf_ofTree, hcut.root_eq, hzero] at hsame
  have hcount : (fileHashes (rightHash uSize) tree
      (List.replicate tree.totalSize 0)).length ≤ partCount tree := List.length_take_le _ _
  generalize fileHashes (rightHash uSize) tree (List.replicate tree.totalSize 0) = HashSet at hrun hcount
  cases HashSet with
  | nil =>
    obtain rfl := Option.some.inj hrun
    cases hdone
  | cons first HashSet =>
    rw [setHashSet_eq ⟨_, rfl, List.Vector.toList_length first⟩, mapIdx_copyHash] at hrun
    obtain ⟨t', hv, rfl⟩ := setHashes_short (fun _ _ => rfl) ((Nat.mul_le_mul_right _ hcount).trans_lt (by
        have hlt := Nat.mul_lt_mul_of_pos_right hmore hpart
        rwa [← hsize] at hlt)) hrun
    rw [setTree_torrent ht] at hsame
    exact replicate_zero_ne huSize (hsame.symm.trans hv)

/-- If the roots of a tree's files agree, it has not too many parts. -/
theorem HashesAgree.partCount_lt (hs : SizesOk tree) (hne : tree.eType ≠ EFileHashType.HashTorrent)
    (h : HashesAgree tree HashSet) : partCount tree < 2 ^ 31 := by
  by_contra hhuge
  obtain ⟨N, hN⟩ := h (rightHash uSize) rfl (fun _ => List.Vector.replicate uSize 0)
    fun _ => List.Vector.replicate uSize 0
  obtain ⟨-, hroots⟩ := (hN N le_rfl).1 (List.replicate tree.totalSize 0) List.length_replicate
  obtain ⟨⟨result, hrun, hdone, -⟩, -⟩ := hroots (List.Vector.replicate uSize 0) (Or.inr (Or.inl rfl))
  obtain ⟨hcount, -⟩ := length_fileHashes (rightHash uSize) hs hne (List.replicate tree.totalSize 0)
  generalize fileHashes (rightHash uSize) tree (List.replicate tree.totalSize 0) = HashSet at hrun hcount
  cases HashSet with
  | nil =>
    obtain rfl := Option.some.inj hrun
    cases hdone
  | cons first HashSet =>
    rw [setHashSet_eq ⟨_, rfl, List.Vector.toList_length first⟩, mapIdx_copyHash] at hrun
    have hsizes : SizesOk { tree with hash := List.Vector.replicate uSize 0 } :=
      ⟨⟨hs.lengths.block, hs.lengths.part⟩, hs.size, hs.fits, hs.torrent⟩
    obtain ⟨t, hexpose, -⟩ := setHashes_eq hrun
    rw [exposeHashes_huge hsizes hne hcount.ge (not_lt.mp hhuge)] at hexpose
    cases hexpose

/-- If all new nodes and all inner nodes have one hash, so has the root over several
parts. -/
theorem Built.hashOf {α : Type*} {H : CHashFunction α} {tree : CFileHashTree α} {v : α}
    (hbranch : ∀ a b, H.branch a b = v) {f : ℕ → α} {k c n : ℕ} {Balance : EBalance}
    {t t' : SHashTreeNode α} (h : Built tree f (fun _ => v) k c Balance n t) (htwo : 2 ≤ c)
    (hcalc : calculateTree H t = some t') : H.hashOf t' = v := by
  have hnode : ∃ Left Right, t = node v Left Right := by
    cases h with
    | new => exact ⟨_, _, rfl⟩
    | part => omega
    | left => exact ⟨_, _, rfl⟩
    | both => exact ⟨_, _, rfl⟩
  obtain ⟨Left, Right, rfl⟩ := hnode
  rw [calculateTree] at hcalc
  split_ifs at hcalc
  · rw [← Option.some.inj hcalc]
    rfl
  · obtain ⟨Left', -, hmap⟩ := Option.bind_eq_some_iff.mp hcalc
    obtain ⟨Right', -, rfl⟩ := Option.map_eq_some_iff.mp hmap
    exact hbranch _ _

/-- If `GetHashSet` returns whatever list `SetHashSet` takes, the list has one hash for
each part unless it is refused or too long. -/
theorem HashesAgree.sizes (hs : SizesOk tree) (hne : tree.eType ≠ EFileHashType.HashTorrent)
    (hint : partCount tree < 2 ^ 31)
    (hfirst : ∃ Hash ∈ HashSet.head?, Hash.length = uSize) (hlen : HashSet.length ≤ partCount tree)
    (h : HashesAgree tree HashSet) : HashSet.length = partCount tree ∧ ∀ Hash ∈ HashSet, Hash.length = uSize := by
  obtain ⟨d, hd, hgt, hle⟩ := hs.exists_partCount
  have hpos : 0 < HashSet.length := by
    obtain ⟨Hash, hm, -⟩ := hfirst
    cases HashSet with
    | nil => cases hm
    | cons Hash HashSet => exact Nat.succ_pos _
  by_cases htwo : 2 ≤ partCount tree
  · let H : CHashFunction (List.Vector UInt8 uSize) :=
      ⟨fun _ => List.Vector.replicate uSize 0, fun _ _ => tree.hash, List.Vector.replicate uSize 0⟩
    obtain ⟨N, hN⟩ := h H rfl (fun _ => tree.hash) fun _ => List.Vector.replicate uSize 0
    have hsize := getTreeSize_eq hne
    have hmap : (HashSet.mapIdx fun _ Hash =>
        copyHash Hash (List.Vector.replicate uSize 0)).length = HashSet.length :=
      List.length_mapIdx
    obtain ⟨t, hrun, hbuilt⟩ := exposeHashes_built (f := fun i => (HashSet.mapIdx fun _ Hash =>
        copyHash Hash (List.Vector.replicate uSize 0)).getD i H.zero) hs.lengths
      (Built.new (fun _ => tree.hash) 0 (partCount tree) EBalance.eLeft) hint
      (by rwa [hsize, hd, Nat.add_sub_cancel]) (by rwa [hsize, hd])
      (show 0 + (HashSet.mapIdx fun _ Hash =>
        copyHash Hash (List.Vector.replicate uSize 0)).length ≤ partCount tree by omega)
      (fun i hi => by
        rw [Nat.zero_add]
        exact (List.getD_eq_getElem _ _ hi).symm) (le_max_right N (partCount tree))
    obtain ⟨t', hcalc⟩ := exists_calculateTree H hbuilt.ne_null
    have hroot := Built.hashOf (H := H) (fun _ _ => rfl) hbuilt htwo hcalc
    have hset : setHashSet H (max N (partCount tree)) (fun _ => tree.hash)
        (fun _ => List.Vector.replicate uSize 0) HashSet tree = some (setTree H t' tree) := by
      rw [setHashSet_eq hfirst, setHashes, hrun, Option.map_some, hcalc]
    obtain ⟨list, hget, hlist⟩ := (hN _ (le_max_left _ _)).2 _ hset (setTree_fst_iff.mpr (Or.inr (Or.inr hroot.symm)))
    obtain ⟨hash, TreeRoot, hafter⟩ := exists_setTree H t' tree
    rw [hafter, getHashSet] at hget
    subst hlist
    rw [List.length_map] at hlen hpos ⊢
    refine ⟨?_, fun Hash hm => ?_⟩
    · split_ifs at hget
      · have hreach := le_length_getHashSetLoop hget
        have hall : tree.totalSize ≤ 0 + list.length * partLength tree := hreach
        have hd' : d < list.length :=
          lt_of_mul_lt_mul_right (hgt.trans_le (by omega)) (Nat.zero_le _)
        omega
      · rw [← Option.some.inj hget] at hpos
        exact absurd hpos (Nat.lt_irrefl 0)
    · obtain ⟨v, -, rfl⟩ := List.mem_map.mp hm
      exact List.Vector.toList_length v
  · have hone : HashSet.length = 1 := by omega
    refine ⟨by omega, fun Hash hm => ?_⟩
    obtain ⟨first, hm', hsize⟩ := hfirst
    obtain ⟨only, rfl⟩ := List.length_eq_one_iff.mp hone
    rw [List.mem_singleton.mp hm, Option.some.inj hm']
    exact hsize

/-- A tree of a torrent of two blocks. -/
def twoBlocks : CFileHashTree (List.Vector UInt8 20) :=
  CFileHashTree.create (rightHash 20) EFileHashType.HashTorrent 100000 none (-1)

theorem sizesOk_twoBlocks : SizesOk twoBlocks where
  lengths := ⟨by decide, fun PartSize hp => by cases hp⟩
  size := by decide
  fits := by decide
  torrent := fun _ => ⟨rfl, by decide, by decide⟩

end Disagreement

end NeoLoader.HashTreeAgreement
