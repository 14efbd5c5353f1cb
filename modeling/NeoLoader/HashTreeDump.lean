import NeoLoader.HashTree

/-!
# Saving and loading a hash tree

A dump lists the leaves of a tree with the ids of their paths. An id has the
highest bit set for the root and below it one bit for each step, set if the step
goes left. Loading follows the ids down and makes the nodes it needs, and it has
no bound but the length that the id is believed to have. A dump counts its
entries with an `int`, which is taken to wrap around.
-/

namespace NeoLoader.HashTreeDump

open MerkleTree HashTree SHashTreeNode

section Nodes

variable {α : Type*}

/-- `SHashTreeDump`: ids and hashes in the order they were added. -/
abbrev SHashTreeDump (α : Type*) := List (BitVec 64 × α)

/-- `SHashTreeDump::Count`. -/
def count (Leafs : SHashTreeDump α) : ℤ := (BitVec.ofNat 32 Leafs.length).toInt

/-- `CFileHashTree::Save` from a node on, with the limit of the file's tree. -/
def saveNode (depthLimit : ℤ) : SHashTreeNode α → BitVec 64 → ℤ → SHashTreeDump α
  | null, _, _ => []
  | node pHash Left Right, TreePath, DepthLimit =>
    let limit := if DepthLimit = -1 then depthLimit else DepthLimit
    if (node pHash Left Right).IsLeaf = false ∧ limit > 0 then
      saveNode depthLimit Left (TreePath <<< 1 ||| 1) (limit - 1) ++
        saveNode depthLimit Right (TreePath <<< 1) (limit - 1)
    else [(TreePath, pHash)]

/-- `CFileHashTree::Save`. -/
def save (tree : CFileHashTree α) (DepthLimit : ℤ) : SHashTreeDump α :=
  saveNode tree.depthLimit tree.treeRoot 1 DepthLimit

/-- A leaf gets two new children; other nodes stay as they are. -/
def expand (memory : List Bool → α) (Branche : SHashTreeNode α) : SHashTreeNode α :=
  if Branche.IsLeaf then
    (Branche.setLeft (alloc (memory [true]))).setRight (alloc (memory [false]))
  else Branche

/-- `CFileHashTree::Load` from a node on, within a number of calls. The memory of
new nodes is given by their paths. -/
def loadNode (Leaf : α) : ℕ → (List Bool → α) → BitVec 64 → ℤ → SHashTreeNode α → Option (SHashTreeNode α)
  | 0, _, _, _, _ => none
  | fuel + 1, memory, TreePath, ToGo, Branche =>
    if ToGo = 0 then some (Branche.setHash Leaf)
    else
      let Branche := expand memory Branche
      if TreePath.msb then (loadNode Leaf fuel (fun path => memory (true :: path)) (TreePath <<< 1)
        (ToGo - 1) Branche.left).map Branche.setLeft
      else (loadNode Leaf fuel (fun path => memory (false :: path)) (TreePath <<< 1)
        (ToGo - 1) Branche.right).map Branche.setRight

/-- The loop of `CFileHashTree::Load` that shifts an id until its first bit is set,
with the rounds that are left and the number of shifts. -/
def shiftUp : ℕ → BitVec 64 → ℕ × BitVec 64
  | 0, TreePath => (64, TreePath)
  | n + 1, TreePath => if TreePath.msb then (63 - n, TreePath) else shiftUp n (TreePath <<< 1)

/-- The loop of `CFileHashTree::Load` over the entries. -/
def loadEntries (fuel : ℕ) (memory : List Bool → α) : SHashTreeDump α → SHashTreeNode α → Option (SHashTreeNode α)
  | [], TreeRoot => some TreeRoot
  | (ID, Leaf) :: Leafs, TreeRoot =>
    let (i, TreePath) := shiftUp 64 ID
    (loadNode Leaf fuel memory (TreePath <<< 1) ((64 - i : ℤ) - 1) TreeRoot).bind (loadEntries fuel memory Leafs)

variable [DecidableEq α] (H : CHashFunction α)

/-- `CFileHashTree::Load`, with whether the dump is accepted. -/
def load (fuel : ℕ) (memory : List Bool → α) (Leafs : SHashTreeDump α) (tree : CFileHashTree α) :
    Option (Bool × CFileHashTree α) :=
  (loadEntries fuel memory (Leafs.take (count Leafs).toNat) (alloc (memory []))).map fun TreeRoot =>
      match calculateTree H TreeRoot with
      | none => (false, tree)
      | some TreeRoot => setTree H TreeRoot tree

end Nodes

section Bytes

/-- `CBuffer::WriteValue`, the lowest byte first. -/
def writeValue : ℕ → ℕ → List UInt8
  | 0, _ => []
  | n + 1, v => UInt8.ofNat v :: writeValue n (v / 256)

/-- The value of bytes, the lowest first. -/
def valueOf : List UInt8 → ℕ
  | [] => 0
  | b :: bytes => b.toNat + 256 * valueOf bytes

/-- `CBuffer::ReadData`, which throws if there is too little. -/
def readData (n : ℕ) (bytes : List UInt8) : Option (List.Vector UInt8 n × List UInt8) :=
  if h : (bytes.take n).length = n then some (⟨bytes.take n, h⟩, bytes.drop n) else none

/-- `CBuffer::ReadValue`. -/
def readValue (n : ℕ) (bytes : List UInt8) : Option (ℕ × List UInt8) :=
  (readData n bytes).map fun data => (valueOf data.1.toList, data.2)

variable {uSize : ℕ}

/-- Reading entries with ids of some length. -/
def readEntries (uSize idSize : ℕ) : ℕ → List UInt8 → Option (SHashTreeDump (List.Vector UInt8 uSize) × List UInt8)
  | 0, bytes => some ([], bytes)
  | n + 1, bytes => (readValue idSize bytes).bind fun id => (readData uSize id.2).bind fun leaf =>
    (readEntries uSize idSize n leaf.2).map fun rest =>
      ((BitVec.ofNat 64 id.1, leaf.1) :: rest.1, rest.2)

/-- `CFileHashTree::SaveBin`. -/
def saveBin (tree : CFileHashTree (List.Vector UInt8 uSize)) (DepthLimit : ℤ) : List UInt8 :=
  let Leafs := save tree DepthLimit
  let LeafCount := (BitVec.ofInt 32 (count Leafs)).toNat
  writeValue 4 LeafCount ++ (Leafs.take LeafCount).flatMap fun leaf => writeValue 8 leaf.1.toNat ++ leaf.2.toList

/-- The entries that `LoadBin` reads, unless reading throws. -/
def readDump (uSize : ℕ) (Array : List UInt8) : Option (SHashTreeDump (List.Vector UInt8 uSize)) :=
  (readValue 4 Array).bind fun LeafCount =>
    (readEntries uSize 8 LeafCount.1 LeafCount.2).map Prod.fst

variable (H : CHashFunction (List.Vector UInt8 uSize))

/-- `CFileHashTree::LoadBin`, with whether the dump is accepted unless reading
throws. -/
def loadBin (fuel : ℕ) (memory : List Bool → List.Vector UInt8 uSize) (Array : List UInt8)
    (tree : CFileHashTree (List.Vector UInt8 uSize)) :
    Option (Option Bool × CFileHashTree (List.Vector UInt8 uSize)) :=
  match readDump uSize Array with
  | none => some (none, tree)
  | some Leafs => (load H fuel memory Leafs tree).map fun result => (some result.1, result.2)

/-- The entries of an AICH recovery packet, with what follows, unless reading
throws. Ids have 16 bits, or 32 bits after a count of zero. -/
def readRecovery (uSize : ℕ) (Data : List UInt8) :
    Option (SHashTreeDump (List.Vector UInt8 uSize) × List UInt8 × Bool) :=
  (readValue 2 Data).bind fun uHashCount =>
    if uHashCount.1 = 0 then (readValue 2 uHashCount.2).bind fun uHashCount =>
      (readEntries uSize 4 uHashCount.1 uHashCount.2).map fun Leafs => (Leafs.1, Leafs.2, true)
    else (readEntries uSize 2 uHashCount.1 uHashCount.2).map fun Leafs =>
      (Leafs.1, Leafs.2, false)

/-- What became of an AICH recovery packet. -/
structure Recovery (uSize : ℕ) where
  /-- Whether the dump is accepted, unless reading threw before. -/
  bLoaded : Option Bool
  /-- Whether reading threw. -/
  bThrown : Bool
  /-- The tree. -/
  tree : CFileHashTree (List.Vector UInt8 uSize)

/-- `CMuleTags::ReadAICHRecovery`. -/
def readAICHRecovery (fuel : ℕ) (memory : List Bool → List.Vector UInt8 uSize)
    (Data : List UInt8) (pBranche : CFileHashTree (List.Vector UInt8 uSize)) :
    Option (Recovery uSize) :=
  match readRecovery uSize Data with
  | none => some ⟨none, true, pBranche⟩
  | some (Leafs, rest, bI64) => (load H fuel memory Leafs pBranche).map fun result =>
    ⟨some result.1, !bI64 && (readValue 2 rest).isNone, result.2⟩

end Bytes

section Paths

/-- The id of a path that goes on by one step. -/
def stepId (TreePath : BitVec 64) (b : Bool) : BitVec 64 :=
  if b then TreePath <<< 1 ||| 1 else TreePath <<< 1

/-- The id of a path. -/
def pathId (path : List Bool) : BitVec 64 := path.foldl stepId 1

/-- The first bits of an id. -/
def topBits (n : ℕ) (TreePath : BitVec 64) : List Bool := (List.range n).map TreePath.getMsbD

theorem topBits_succ (n : ℕ) (TreePath : BitVec 64) :
    topBits (n + 1) TreePath = TreePath.msb :: topBits n (TreePath <<< 1) := by
  unfold topBits
  rw [List.range_succ_eq_map, List.map_cons, List.map_map, ← BitVec.msb_eq_getMsbD_zero]
  refine congrArg _ (List.map_congr_left fun k _ => ?_)
  rw [BitVec.getMsbD_shiftLeft]
  rfl

/-- The bits of an id are the steps, the last one lowest. -/
theorem getLsbD_foldl_stepId {path bits : List Bool} {TreePath : BitVec 64}
    (h : ∀ j < 64, TreePath.getLsbD j = bits.getD j false) {j : ℕ} (hj : j < 64) :
    (path.foldl stepId TreePath).getLsbD j = (path.reverse ++ bits).getD j false := by
  induction path generalizing TreePath bits with
  | nil => exact h j hj
  | cons b path ih =>
    rw [List.foldl_cons, List.reverse_cons, List.append_assoc]
    have hnext : ∀ k < 64, (stepId TreePath b).getLsbD k = (b :: bits).getD k false := ?_
    · exact ih hnext
    intro k hk
    unfold stepId
    cases k with
    | zero => cases b <;> simp
    | succ k =>
      rw [List.getD_cons_succ, ← h k (by omega)]
      cases b <;> simp [hk, BitVec.getLsbD_eq_getElem (show k < 64 by omega)]

theorem getMsbD_pathId (path : List Bool) {k : ℕ} (hk : k < 64) :
    (pathId path).getMsbD k = (path.reverse ++ [true]).getD (63 - k) false := by
  have hone : ∀ j < 64, (1 : BitVec 64).getLsbD j = [true].getD j false := fun j hj => by
    cases j with
    | zero => rfl
    | succ j => simp [BitVec.ofNat_eq_ofNat]
  rw [BitVec.getMsbD_eq_getLsbD, decide_eq_true hk, Bool.true_and]
  exact getLsbD_foldl_stepId hone (by omega)

variable {path : List Bool}

theorem topBits_pathId (hlen : path.length < 64) :
    topBits path.length (pathId path <<< (63 - path.length) <<< 1) = path := by
  refine List.ext_getElem (by simp [topBits]) fun k h1 h2 => ?_
  simp only [topBits, List.getElem_map, List.getElem_range, BitVec.getMsbD_shiftLeft]
  rw [getMsbD_pathId path (by omega), List.getD_append _ _ _ _ (by simp; omega),
    List.getD_eq_getElem _ _ (by simp; omega), List.getElem_reverse]
  congr 1
  omega

/-- The loop stops at the first bit that is set. -/
theorem shiftUp_eq {n k : ℕ} {TreePath : BitVec 64} (hn : n ≤ 64) (hk : k < n)
    (hset : TreePath.getMsbD k = true) (hlow : ∀ j < k, TreePath.getMsbD j = false) :
    shiftUp n TreePath = (64 - n + k, TreePath <<< k) := by
  induction n generalizing k TreePath with
  | zero => omega
  | succ n ih =>
    rw [shiftUp, BitVec.msb_eq_getMsbD_zero]
    cases k with
    | zero =>
      rw [if_pos hset, BitVec.shiftLeft_zero]
      congr 1
      omega
    | succ k =>
      rw [hlow 0 (by omega), if_neg Bool.false_ne_true, ih (k := k) (by omega) (by omega)
        (by rwa [BitVec.getMsbD_shiftLeft]) fun j hj => by
          rw [BitVec.getMsbD_shiftLeft]
          exact hlow _ (by omega), ← BitVec.shiftLeft_add, Nat.add_comm 1 k]
      congr 1
      omega

theorem shiftUp_zero (n : ℕ) : shiftUp n 0 = (64, 0) := by
  induction n with
  | zero => rfl
  | succ n ih => exact ih

/-- The loop finds the leading bit of the id of a path. -/
theorem shiftUp_pathId (hlen : path.length < 64) :
    shiftUp 64 (pathId path) = (63 - path.length, pathId path <<< (63 - path.length)) := by
  rw [shiftUp_eq le_rfl (k := 63 - path.length) (by omega), Nat.sub_self, Nat.zero_add]
  · rw [getMsbD_pathId path (by omega), List.getD_append_right _ _ _ _ (by simp; omega)]
    have hzero : 63 - (63 - path.length) - path.reverse.length = 0 := by simp; omega
    rw [hzero]
    rfl
  · intro j hj
    rw [getMsbD_pathId path (by omega)]
    refine List.getD_eq_default _ _ ?_
    simp only [List.length_append, List.length_reverse, List.length_singleton]
    omega

/-- The loop finds a leading bit unless the id is zero. -/
theorem exists_shiftUp {ID : BitVec 64} (h : ID ≠ 0) : ∃ k < 64, shiftUp 64 ID = (k, ID <<< k) := by
  have hex : ∃ k, ID.getMsbD k = true := by
    by_contra hall
    refine h (BitVec.eq_of_getMsbD_eq fun k hk => ?_)
    exact (eq_false_of_ne_true fun ht => hall ⟨k, ht⟩).trans BitVec.getMsbD_zero.symm
  have hlt : Nat.find hex < 64 := by
    by_contra hge
    have hset := Nat.find_spec hex
    rw [BitVec.getMsbD_of_ge _ _ (by omega)] at hset
    cases hset
  refine ⟨Nat.find hex, hlt, ?_⟩
  rw [shiftUp_eq le_rfl hlt (Nat.find_spec hex) fun j hj =>
    eq_false_of_ne_true (Nat.find_min hex hj), Nat.sub_self, Nat.zero_add]

/-- The path of an id. -/
def idPath (ID : BitVec 64) : List Bool :=
  topBits (63 - (shiftUp 64 ID).1) ((shiftUp 64 ID).2 <<< 1)

theorem idPath_pathId (hlen : path.length < 64) : idPath (pathId path) = path := by
  have hsub : 63 - (63 - path.length) = path.length := by omega
  rw [idPath, shiftUp_pathId hlen, hsub]
  exact topBits_pathId hlen

theorem pathId_ne_zero (hlen : path.length < 64) : pathId path ≠ 0 := by
  intro hzero
  have hshift := shiftUp_pathId hlen
  rw [hzero, shiftUp_zero] at hshift
  have hfst : 64 = 63 - path.length := congrArg Prod.fst hshift
  omega

end Paths

section Loading

variable {α : Type*}

/-- Loading a hash along a path. -/
def loadPath (Leaf : α) : (List Bool → α) → List Bool → SHashTreeNode α → SHashTreeNode α
  | _, [], Branche => Branche.setHash Leaf
  | memory, true :: path, Branche => (expand memory Branche).setLeft
      (loadPath Leaf (fun path => memory (true :: path)) path (expand memory Branche).left)
  | memory, false :: path, Branche => (expand memory Branche).setRight
      (loadPath Leaf (fun path => memory (false :: path)) path (expand memory Branche).right)

/-- Loading hashes along paths. -/
def loadPaths (memory : List Bool → α) (entries : List (List Bool × α)) (Branche : SHashTreeNode α) : SHashTreeNode α :=
  entries.foldl (fun Branche entry => loadPath entry.2 memory entry.1 Branche) Branche

/-- With enough calls loading follows the first bits. -/
theorem loadNode_eq (Leaf : α) {fuel n : ℕ} (hfuel : n < fuel) (memory : List Bool → α)
    (TreePath : BitVec 64) (Branche : SHashTreeNode α) :
    loadNode Leaf fuel memory TreePath n Branche = some (loadPath Leaf memory (topBits n TreePath) Branche) := by
  induction n generalizing fuel memory TreePath Branche with
  | zero =>
    cases fuel with
    | zero => omega
    | succ fuel => rfl
  | succ n ih =>
    cases fuel with
    | zero => omega
    | succ fuel =>
      have hne : ((n + 1 : ℕ) : ℤ) ≠ 0 := by omega
      have hsub : ((n + 1 : ℕ) : ℤ) - 1 = n := by omega
      rw [loadNode, if_neg hne, hsub, topBits_succ]
      dsimp only
      cases TreePath.msb with
      | true =>
        rw [if_pos rfl, ih (by omega), Option.map_some]
        rfl
      | false =>
        rw [if_neg Bool.false_ne_true, ih (by omega), Option.map_some]
        rfl

theorem loadNode_negative (Leaf : α) (fuel : ℕ) {ToGo : ℤ} (h : ToGo < 0)
    (memory : List Bool → α) (TreePath : BitVec 64) (Branche : SHashTreeNode α) :
    loadNode Leaf fuel memory TreePath ToGo Branche = none := by
  induction fuel generalizing ToGo memory TreePath Branche with
  | zero => rfl
  | succ fuel ih =>
    rw [loadNode, if_neg (by omega)]
    dsimp only
    rw [ih (by omega), ih (by omega), Option.map_none, Option.map_none, ite_self]

/-- Unless an id is zero, loading follows the paths. -/
theorem loadEntries_eq {fuel : ℕ} (hfuel : 64 ≤ fuel) (memory : List Bool → α)
    {Leafs : SHashTreeDump α} (h : ∀ leaf ∈ Leafs, leaf.1 ≠ 0) (TreeRoot : SHashTreeNode α) :
    loadEntries fuel memory Leafs TreeRoot =
      some (loadPaths memory (Leafs.map fun leaf => (idPath leaf.1, leaf.2)) TreeRoot) := by
  induction Leafs generalizing TreeRoot with
  | nil => rfl
  | cons leaf Leafs ih =>
    obtain ⟨ID, Leaf⟩ := leaf
    obtain ⟨k, hk, hshift⟩ := exists_shiftUp (h (ID, Leaf) List.mem_cons_self)
    have hpath : idPath ID = topBits (63 - k) (ID <<< k <<< 1) := by rw [idPath, hshift]
    have htogo : (64 - (k : ℤ)) - 1 = ((63 - k : ℕ) : ℤ) := by omega
    rw [loadEntries, hshift]
    dsimp only
    rw [htogo, loadNode_eq Leaf (by omega), Option.bind_some,
      ih fun leaf hm => h leaf (List.mem_cons_of_mem _ hm), List.map_cons, hpath]
    rfl

/-- With an id that is zero, loading never ends. -/
theorem loadEntries_zero (fuel : ℕ) (memory : List Bool → α) {Leafs : SHashTreeDump α}
    (h : ∃ leaf ∈ Leafs, leaf.1 = 0) (TreeRoot : SHashTreeNode α) : loadEntries fuel memory Leafs TreeRoot = none := by
  induction Leafs generalizing TreeRoot with
  | nil =>
    obtain ⟨leaf, hm, -⟩ := h
    cases hm
  | cons leaf Leafs ih =>
    obtain ⟨ID, Leaf⟩ := leaf
    rw [loadEntries]
    by_cases hzero : ID = 0
    · rw [hzero, shiftUp_zero]
      dsimp only
      rw [loadNode_negative Leaf fuel (by decide)]
      rfl
    · have hrest : ∃ leaf ∈ Leafs, leaf.1 = 0 := by
        obtain ⟨leaf, hm, hleaf⟩ := h
        rcases List.mem_cons.mp hm with rfl | hm
        · exact absurd hleaf hzero
        · exact ⟨leaf, hm, hleaf⟩
      dsimp only
      rw [Option.bind_eq_none_iff]
      exact fun TreeRoot' _ => ih hrest TreeRoot'

/-- Loading does not make a node null. -/
theorem loadPath_ne_null (Leaf : α) (memory : List Bool → α) (path : List Bool)
    {Branche : SHashTreeNode α} (h : Branche ≠ null) : loadPath Leaf memory path Branche ≠ null := by
  have hexpand : expand memory Branche ≠ null := by
    unfold expand
    split_ifs
    · cases Branche with
      | null => exact absurd rfl h
      | node pHash Left Right => exact fun he => by cases he
    · exact h
  match path with
  | [] =>
    cases Branche with
    | null => exact absurd rfl h
    | node pHash Left Right => exact fun he => by cases he
  | true :: path =>
    unfold loadPath
    cases he : expand memory Branche with
    | null => exact absurd he hexpand
    | node pHash Left Right => exact fun he => by cases he
  | false :: path =>
    unfold loadPath
    cases he : expand memory Branche with
    | null => exact absurd he hexpand
    | node pHash Left Right => exact fun he => by cases he

variable (memory : List Bool → α)

theorem loadPaths_ne_null (entries : List (List Bool × α)) {Branche : SHashTreeNode α} (h : Branche ≠ null) :
    loadPaths memory entries Branche ≠ null := by
  induction entries generalizing Branche with
  | nil => exact h
  | cons entry entries ih => exact ih (loadPath_ne_null entry.2 memory entry.1 h)

variable {Left Right : SHashTreeNode α}

theorem expand_node (pHash : α) (hl : Left ≠ null) (hr : Right ≠ null) :
    expand memory (node pHash Left Right) = node pHash Left Right := by
  rw [expand, isLeaf_node hl hr, if_neg Bool.false_ne_true]

theorem loadPaths_left (entries : List (List Bool × α)) (pHash : α) (hl : Left ≠ null) (hr : Right ≠ null) :
    loadPaths memory (entries.map fun entry => (true :: entry.1, entry.2)) (node pHash Left Right) =
      node pHash (loadPaths (fun path => memory (true :: path)) entries Left) Right := by
  induction entries generalizing Left with
  | nil => rfl
  | cons entry entries ih =>
    rw [loadPaths, List.map_cons, List.foldl_cons, loadPath, expand_node memory pHash hl hr]
    exact ih (loadPath_ne_null entry.2 _ entry.1 hl)

/-- Below a node with two children, hashes on the right are loaded into the right
child. -/
theorem loadPaths_right (entries : List (List Bool × α)) (pHash : α) (hl : Left ≠ null) (hr : Right ≠ null) :
    loadPaths memory (entries.map fun entry => (false :: entry.1, entry.2)) (node pHash Left Right) =
      node pHash Left (loadPaths (fun path => memory (false :: path)) entries Right) := by
  induction entries generalizing Right with
  | nil => rfl
  | cons entry entries ih =>
    rw [loadPaths, List.map_cons, List.foldl_cons, loadPath, expand_node memory pHash hl hr]
    exact ih (loadPath_ne_null entry.2 _ entry.1 hr)

theorem loadPaths_alloc (pHash : α) {entries : List (List Bool × α)}
    (h : ∀ entry ∈ entries.head?, entry.1 ≠ []) (hne : entries ≠ []) :
    loadPaths memory entries (alloc pHash) = loadPaths memory entries
      (node pHash (alloc (memory [true])) (alloc (memory [false]))) := by
  match entries with
  | [] => exact absurd rfl hne
  | ([], Leaf) :: entries => exact absurd rfl (h ([], Leaf) rfl)
  | (true :: path, Leaf) :: entries => rfl
  | (false :: path, Leaf) :: entries => rfl

/-- Loading the leaves of a tree below a new node gives the form of the tree. -/
theorem hasShape_loadPaths (T : Merkle α) (memory : List Bool → α) (pHash : α) :
    HasShape (loadPaths memory T.entries (alloc pHash)) T := by
  induction T generalizing memory pHash with
  | leaf h => exact HasShape.leaf h
  | fork l r ihl ihr =>
    have hne : (Merkle.fork l r).entries ≠ [] := Merkle.entries_ne_nil _
    have hhead : ∀ entry ∈ (Merkle.fork l r).entries.head?, entry.1 ≠ [] := by
      intro entry hm
      have hmem := List.mem_of_mem_head? hm
      simp only [Merkle.entries, List.mem_append, List.mem_map] at hmem
      rcases hmem with ⟨entry', -, rfl⟩ | ⟨entry', -, rfl⟩ <;> exact List.cons_ne_nil _ _
    have hnull : ∀ a : α, alloc a ≠ null := fun a he => by cases he
    rw [loadPaths_alloc memory pHash hhead hne, Merkle.entries, loadPaths, List.foldl_append]
    have hleft := loadPaths_left memory l.entries pHash (hnull (memory [true])) (hnull (memory [false]))
    have hright := loadPaths_right memory r.entries pHash
      (loadPaths_ne_null (fun path => memory (true :: path)) l.entries (hnull (memory [true])))
      (hnull (memory [false]))
    unfold loadPaths at hleft hright
    rw [hleft, hright]
    exact HasShape.fork pHash (ihl _ _) (ihr _ _)

end Loading

section Saving

variable {α : Type*}

/-- The limit that `Save` goes by. -/
def limitOf (tree : CFileHashTree α) (DepthLimit : ℤ) : ℤ :=
  if DepthLimit = -1 then tree.depthLimit else DepthLimit

/-- Saving lists the leaves of the tree cut off at the limit. -/
theorem saveNode_ofTree (H : CHashFunction α) (depthLimit : ℤ) (T : Merkle α) (TreePath : BitVec 64) (DepthLimit : ℤ) :
    saveNode depthLimit (ofTree H T) TreePath DepthLimit =
      (T.trim H.branch (if DepthLimit = -1 then depthLimit else DepthLimit).toNat).entries.map
        fun entry => (entry.1.foldl stepId TreePath, entry.2) := by
  induction T generalizing TreePath DepthLimit with
  | leaf h =>
    have htrim : ∀ n, (Merkle.leaf h).trim H.branch n = Merkle.leaf h := fun n => by
      cases n <;> rfl
    rw [htrim]
    rfl
  | fork l r ihl ihr =>
    have hleaf : (node (H.branch (l.root H.branch) (r.root H.branch)) (ofTree H l)
        (ofTree H r)).IsLeaf = false := isLeaf_node (ofTree_ne_null H l) (ofTree_ne_null H r)
    rw [ofTree, saveNode]
    by_cases hpos : (if DepthLimit = -1 then depthLimit else DepthLimit) > 0
    · obtain ⟨n, hn⟩ : ∃ n : ℕ, (if DepthLimit = -1 then depthLimit else DepthLimit) = n + 1 :=
        ⟨((if DepthLimit = -1 then depthLimit else DepthLimit) - 1).toNat, by omega⟩
      have hne : ¬((n : ℤ) = -1) := by omega
      have hnat : ((n : ℤ) + 1).toNat = n + 1 := by omega
      rw [if_pos ⟨hleaf, hpos⟩, hn, add_sub_cancel_right, ihl, ihr, if_neg hne, Int.toNat_natCast,
        hnat, Merkle.trim, Merkle.entries, List.map_append, List.map_map, List.map_map]
      rfl
    · have hzero : (if DepthLimit = -1 then depthLimit else DepthLimit).toNat = 0 := by omega
      rw [if_neg fun h => hpos h.2, hzero]
      rfl

theorem save_ofTree {H : CHashFunction α} {tree : CFileHashTree α} {T : Merkle α}
    (h : tree.treeRoot = ofTree H T) (DepthLimit : ℤ) :
    save tree DepthLimit = (T.trim H.branch (limitOf tree DepthLimit).toNat).entries.map
      fun entry => (pathId entry.1, entry.2) := by
  rw [save, h]
  exact saveNode_ofTree H tree.depthLimit T 1 DepthLimit

theorem count_eq {Leafs : SHashTreeDump α} (h : Leafs.length < 2 ^ 31) : count Leafs = Leafs.length := by
  unfold count
  rw [BitVec.toInt_eq_toNat_of_lt, BitVec.toNat_ofNat, Nat.mod_eq_of_lt (by omega)]
  rw [BitVec.toNat_ofNat]
  omega

/-- Loading what was saved gives the tree cut off at the limit to the file. -/
theorem load_save [DecidableEq α] {H : CHashFunction α} {tree : CFileHashTree α} {T : Merkle α}
    (h : tree.treeRoot = ofTree H T) {DepthLimit : ℤ} {S : Merkle α}
    (hS : S = T.trim H.branch (limitOf tree DepthLimit).toNat) (hheight : S.height < 64)
    (hcount : S.leaves.length < 2 ^ 31) {fuel : ℕ} (hfuel : 64 ≤ fuel)
    (memory : List Bool → α) (other : CFileHashTree α) :
    load H fuel memory (save tree DepthLimit) other = some (setTree H (ofTree H S) other) := by
  have hlen : ∀ entry ∈ S.entries, entry.1.length < 64 := fun entry hm =>
    (Merkle.length_le_height hm).trans_lt hheight
  have hnum : (S.entries.map fun entry => (pathId entry.1, entry.2)).length < 2 ^ 31 := by
    rwa [List.length_map, Merkle.length_entries]
  have hpaths : (S.entries.map fun entry => (pathId entry.1, entry.2)).map
      (fun leaf => (idPath leaf.1, leaf.2)) = S.entries := by
    rw [List.map_map]
    refine (List.map_congr_left fun entry hm => ?_).trans (List.map_id S.entries)
    change (idPath (pathId entry.1), entry.2) = entry
    rw [idPath_pathId (hlen entry hm)]
  rw [save_ofTree h, ← hS, load, count_eq hnum, Int.toNat_natCast, List.take_length,
    loadEntries_eq hfuel, hpaths, Option.map_some,
    (hasShape_loadPaths S memory (memory [])).calculateTree]
  intro leaf hm
  obtain ⟨entry, hentry, rfl⟩ := List.mem_map.mp hm
  exact pathId_ne_zero (hlen entry hentry)

end Saving

section Coding

@[simp] theorem length_writeValue (n v : ℕ) : (writeValue n v).length = n := by
  induction n generalizing v with
  | zero => rfl
  | succ n ih => rw [writeValue, List.length_cons, ih]

theorem valueOf_writeValue {n v : ℕ} (h : v < 256 ^ n) : valueOf (writeValue n v) = v := by
  induction n generalizing v with
  | zero =>
    rw [pow_zero] at h
    exact (Nat.lt_one_iff.mp h).symm
  | succ n ih =>
    rw [pow_succ] at h
    rw [writeValue, valueOf, ih (Nat.div_lt_of_lt_mul (by rwa [Nat.mul_comm] at h)), UInt8.toNat_ofNat']
    exact Nat.mod_add_div v 256

theorem readData_append {n : ℕ} (data : List.Vector UInt8 n) (rest : List UInt8) :
    readData n (data.toList ++ rest) = some (data, rest) := by
  obtain ⟨bytes, rfl⟩ := data
  have htake : (bytes ++ rest).take bytes.length = bytes := List.take_left
  unfold readData
  simp only [List.Vector.toList, htake, List.drop_left, dif_pos]

theorem readValue_append {n v : ℕ} (h : v < 256 ^ n) (rest : List UInt8) :
    readValue n (writeValue n v ++ rest) = some (v, rest) := by
  have hread := readData_append (⟨writeValue n v, length_writeValue n v⟩ : List.Vector UInt8 n) rest
  have hvalue := valueOf_writeValue h
  unfold readValue
  rw [List.Vector.toList_mk] at hread
  rw [hread, Option.map_some, List.Vector.toList_mk, hvalue]

/-- Reading entries that were written with ids that fit. -/
theorem readEntries_append {uSize idSize : ℕ} (Leafs : SHashTreeDump (List.Vector UInt8 uSize))
    (hfits : ∀ leaf ∈ Leafs, leaf.1.toNat < 256 ^ idSize) (rest : List UInt8) : readEntries uSize idSize Leafs.length
        ((Leafs.flatMap fun leaf => writeValue idSize leaf.1.toNat ++ leaf.2.toList) ++ rest) =
      some (Leafs, rest) := by
  induction Leafs with
  | nil => rfl
  | cons leaf Leafs ih =>
    obtain ⟨hlt, hfits⟩ := List.forall_mem_cons.mp hfits
    rw [List.flatMap_cons, List.length_cons, readEntries, List.append_assoc, List.append_assoc,
      readValue_append hlt, Option.bind_some, readData_append, Option.bind_some, ih hfits,
      Option.map_some, BitVec.ofNat_toNat, BitVec.setWidth_eq]

/-- Reading a dump that was saved. -/
theorem readDump_saveBin {uSize : ℕ} {tree : CFileHashTree (List.Vector UInt8 uSize)}
    {DepthLimit : ℤ} (h : (save tree DepthLimit).length < 2 ^ 32) :
    readDump uSize (saveBin tree DepthLimit) = some (save tree DepthLimit) := by
  have hcount : (BitVec.ofInt 32 (count (save tree DepthLimit))).toNat = (save tree DepthLimit).length := by
    rw [count, BitVec.ofInt_toInt, BitVec.toNat_ofNat, Nat.mod_eq_of_lt h]
  have hread := readEntries_append (save tree DepthLimit)
    (fun leaf _ => leaf.1.isLt.trans_eq (by norm_num : 2 ^ 64 = 256 ^ 8)) []
  rw [List.append_nil] at hread
  unfold readDump saveBin
  dsimp only
  rw [hcount, List.take_length, readValue_append (h.trans_eq (by norm_num)), Option.bind_some, hread]
  rfl

/-- A hash function that is easy to evaluate. -/
def constantHash (uSize : ℕ) : CHashFunction (List.Vector UInt8 uSize) :=
  ⟨fun _ => List.Vector.replicate uSize 1, fun l _ => l, List.Vector.replicate uSize 0⟩

/-- The tree that has all leaves at one depth. -/
def fullTree {α : Type*} (h : α) : ℕ → Merkle α
  | 0 => Merkle.leaf h
  | n + 1 => Merkle.fork (fullTree h n) (fullTree h n)

theorem height_fullTree {α : Type*} (h : α) (n : ℕ) : (fullTree h n).height = n := by
  induction n with
  | zero => rfl
  | succ n ih => rw [fullTree, Merkle.height, ih, max_self]

theorem length_leaves_fullTree {α : Type*} (h : α) (n : ℕ) : (fullTree h n).leaves.length = 2 ^ n := by
  induction n with
  | zero => rfl
  | succ n ih => rw [fullTree, Merkle.leaves, List.length_append, ih, pow_succ, Nat.mul_two]

theorem load_uncounted {α : Type*} [DecidableEq α] (H : CHashFunction α)
    {Leafs : SHashTreeDump α} (h : Leafs.length = 2 ^ 31) (fuel : ℕ) (memory : List Bool → α) (tree : CFileHashTree α) :
    load H fuel memory Leafs tree = some (setTree H (alloc (memory [])) tree) := by
  have hcount : (count Leafs).toNat = 0 := by
    rw [count, h]
    decide
  rw [load, hcount, List.take_zero]
  rfl

end Coding

section Rejecting

/-- Loading ends if and only if no entry that is counted has the id zero, and then a
dump that is not accepted changes nothing. -/
theorem loadHashes_iff {α : Type*} [DecidableEq α] (H : CHashFunction α) (memory : List Bool → α)
    (Leafs : SHashTreeDump α) (tree : CFileHashTree α) :
    (∃ N, ∀ fuel ≥ N, ∃ result, load H fuel memory Leafs tree = some result ∧ (result.1 = false → result.2 = tree)) ↔
      ∀ leaf ∈ Leafs.take (count Leafs).toNat, leaf.1 ≠ 0 := by
  constructor
  · rintro ⟨N, hN⟩ leaf hm hzero
    obtain ⟨result, hload, -⟩ := hN N le_rfl
    rw [load, loadEntries_zero N memory ⟨leaf, hm, hzero⟩] at hload
    cases hload
  · intro h
    refine ⟨64, fun fuel hfuel => ?_⟩
    rw [load, loadEntries_eq hfuel memory h, Option.map_some]
    refine ⟨_, rfl, fun hfalse => ?_⟩
    cases hcalc : calculateTree H (loadPaths memory
      ((Leafs.take (count Leafs).toNat).map fun leaf => (idPath leaf.1, leaf.2))
      (alloc (memory []))) with
    | none => rfl
    | some TreeRoot =>
      rw [hcalc] at hfalse
      exact setTree_rejects hfalse

variable {uSize : ℕ} (H : CHashFunction (List.Vector UInt8 uSize))
  (memory : List Bool → List.Vector UInt8 uSize) (tree : CFileHashTree (List.Vector UInt8 uSize))

/-- An id that is zero stands among the entries that are counted. -/
def HasZero {α : Type*} (Leafs : SHashTreeDump α) : Prop :=
  ∃ leaf ∈ Leafs.take (count Leafs).toNat, leaf.1 = 0

/-- `Load`, `LoadBin` and `ReadAICHRecovery` end and change nothing unless the dump is
accepted, if and only if no entry has the id zero. -/
theorem load_unchanged_iff : (∀ Leafs, (∃ N, ∀ fuel ≥ N, ∃ result, load H fuel memory Leafs tree = some result ∧
      (result.1 = false → result.2 = tree)) ↔ ¬HasZero Leafs) ∧
    (∀ Array, (∃ N, ∀ fuel ≥ N, ∃ result, loadBin H fuel memory Array tree = some result ∧
      (result.1 ≠ some true → result.2 = tree)) ↔ ¬∃ Leafs, readDump uSize Array = some Leafs ∧ HasZero Leafs) ∧
    ∀ Data, (∃ N, ∀ fuel ≥ N, ∃ result, readAICHRecovery H fuel memory Data tree = some result ∧
      (result.bLoaded ≠ some true → result.tree = tree)) ↔
        ¬∃ Leafs rest bI64, readRecovery uSize Data = some (Leafs, rest, bI64) ∧
          HasZero Leafs := by
  have hload : ∀ Leafs, (∃ N, ∀ fuel ≥ N, ∃ result, load H fuel memory Leafs tree = some result ∧
      (result.1 = false → result.2 = tree)) ↔ ¬HasZero Leafs := fun Leafs => by
    rw [loadHashes_iff, HasZero]
    exact ⟨fun h ⟨leaf, hm, hzero⟩ => h leaf hm hzero, fun h leaf hm hzero => h ⟨leaf, hm, hzero⟩⟩
  refine ⟨hload, fun Array => ?_, fun Data => ?_⟩
  · unfold loadBin
    cases hread : readDump uSize Array with
    | none =>
      refine iff_of_true ⟨0, fun fuel _ => ⟨_, rfl, fun _ => rfl⟩⟩ ?_
      rintro ⟨Leafs, hsome, -⟩
      cases hsome
    | some Leafs =>
      have hiff : (∃ Leafs', some Leafs = some Leafs' ∧ HasZero Leafs') ↔ HasZero Leafs :=
        ⟨fun ⟨_, he, hz⟩ => Option.some.inj he ▸ hz, fun hz => ⟨Leafs, rfl, hz⟩⟩
      rw [hiff, ← hload]
      refine exists_congr fun N => forall₂_congr fun fuel _ => ?_
      dsimp only
      cases load H fuel memory Leafs tree with
      | none => simp only [Option.map_none, reduceCtorEq, false_and, exists_false]
      | some result => simp
  · unfold readAICHRecovery
    cases hread : readRecovery uSize Data with
    | none =>
      refine iff_of_true ⟨0, fun fuel _ => ⟨_, rfl, fun _ => rfl⟩⟩ ?_
      rintro ⟨Leafs, rest, bI64, hsome, -⟩
      cases hsome
    | some read =>
      obtain ⟨Leafs, rest, bI64⟩ := read
      have hiff : (∃ Leafs' rest' bI64', some (Leafs, rest, bI64) = some (Leafs', rest', bI64') ∧
          HasZero Leafs') ↔ HasZero Leafs :=
        ⟨fun ⟨_, _, _, he, hz⟩ => by
          cases he
          exact hz, fun hz => ⟨Leafs, rest, bI64, rfl, hz⟩⟩
      rw [hiff, ← hload]
      refine exists_congr fun N => forall₂_congr fun fuel _ => ?_
      dsimp only
      cases load H fuel memory Leafs tree with
      | none => simp only [Option.map_none, reduceCtorEq, false_and, exists_false]
      | some result => simp

/-- A recovery packet with a single id that is zero is never done with. -/
theorem load_zero_diverges : readRecovery 20 ([1, 0, 0, 0] ++ List.replicate 20 7 ++ [0, 0]) =
        some ([(0, List.Vector.replicate 20 7)], [0, 0], false) ∧
      ¬∃ fuel result, readAICHRecovery (constantHash 20) fuel (fun _ => List.Vector.replicate 20 9)
        ([1, 0, 0, 0] ++ List.replicate 20 7 ++ [0, 0]) (CFileHashTree.create (constantHash 20)
          EFileHashType.HashMule 9728000 none (-1)) = some result := by
  have hread : readRecovery 20 ([1, 0, 0, 0] ++ List.replicate 20 7 ++ [0, 0]) =
      some ([(0, List.Vector.replicate 20 7)], [0, 0], false) := by decide
  have hzero : (0, List.Vector.replicate 20 7) ∈ List.take
      (count [((0 : BitVec 64), List.Vector.replicate 20 (7 : UInt8))]).toNat
      [((0 : BitVec 64), List.Vector.replicate 20 (7 : UInt8))] := by decide
  refine ⟨hread, fun ⟨fuel, result, hsome⟩ => ?_⟩
  rw [readAICHRecovery, hread] at hsome
  dsimp only at hsome
  rw [load, loadEntries_zero fuel _ ⟨_, hzero, rfl⟩] at hsome
  cases hsome

end Rejecting

section Soundness

variable {α : Type*}

/-- All nodes before the end of a path have two children. -/
def checked : SHashTreeNode α → List Bool → Prop
  | _, [] => True
  | t, true :: path => t.IsLeaf = false ∧ checked t.left path
  | t, false :: path => t.IsLeaf = false ∧ checked t.right path

/-- At some place the hashes of the children are not those of another tree, but the hash made of them is the same. -/
def Collision (H : CHashFunction α) (t : SHashTreeNode α) (T : Merkle α) : Prop :=
  ∃ path L R, checked t (path ++ [true]) ∧ T.sub path = some (Merkle.fork L R) ∧
    H.branch (H.hashOf (t.sub path).left) (H.hashOf (t.sub path).right) = H.branch (L.root H.branch) (R.root H.branch) ∧
    ¬(H.hashOf (t.sub path).left = L.root H.branch ∧ H.hashOf (t.sub path).right = R.root H.branch)

variable {H : CHashFunction α}

/-- An inner node of a tree that was calculated has the hash of its children, which were calculated as well. -/
theorem calculateTree_inner {t₀ t : SHashTreeNode α} (h : calculateTree H t₀ = some t) (hinner : t.IsLeaf = false) :
    (∃ Left, calculateTree H Left = some t.left) ∧ (∃ Right, calculateTree H Right = some t.right) ∧
      H.hashOf t = H.branch (H.hashOf t.left) (H.hashOf t.right) := by
  cases t₀ with
  | null => cases h
  | node pHash Left Right =>
    rw [calculateTree] at h
    split_ifs at h with hleaf
    · rw [← Option.some.inj h, hleaf] at hinner
      cases hinner
    · obtain ⟨Left', hLeft, h⟩ := Option.bind_eq_some_iff.mp h
      obtain ⟨Right', hRight, rfl⟩ := Option.map_eq_some_iff.mp h
      exact ⟨⟨Left, hLeft⟩, ⟨Right, hRight⟩, rfl⟩

/-- A calculated tree with the root of another one has its hashes, unless two hashes collide. -/
theorem hashOf_sub {t₀ t : SHashTreeNode α} {T s : Merkle α} (h : calculateTree H t₀ = some t)
    (hroot : H.hashOf t = T.root H.branch) (hnone : ¬Collision H t T) {path : List Bool} (hpath : checked t path)
    (hs : T.sub path = some s) : H.hashOf (t.sub path) = s.root H.branch := by
  induction path generalizing t₀ t T with
  | nil =>
    rw [Merkle.sub_nil] at hs
    rw [← Option.some.inj hs, sub, hroot]
  | cons b path ih =>
    cases T with
    | leaf a => cases hs
    | fork L R =>
      have hinner : t.IsLeaf = false := by
        cases b
        · exact hpath.1
        · exact hpath.1
      obtain ⟨⟨Left, hLeft⟩, ⟨Right, hRight⟩, hhash⟩ := calculateTree_inner h hinner
      have hboth : H.hashOf t.left = L.root H.branch ∧ H.hashOf t.right = R.root H.branch := by
        by_contra hne
        exact hnone ⟨[], L, R, ⟨hinner, trivial⟩, Merkle.sub_nil _, hhash.symm.trans hroot, hne⟩
      cases b with
      | true =>
        refine ih hLeft hboth.1 (fun hcollision => hnone ?_) hpath.2 hs
        obtain ⟨path', l, r, hchecked, hsub, heq, hne⟩ := hcollision
        exact ⟨true :: path', l, r, ⟨hinner, hchecked⟩, hsub, heq, hne⟩
      | false =>
        refine ih hRight hboth.2 (fun hcollision => hnone ?_) hpath.2 hs
        obtain ⟨path', l, r, hchecked, hsub, heq, hne⟩ := hcollision
        exact ⟨false :: path', l, r, ⟨hinner, hchecked⟩, hsub, heq, hne⟩

variable [DecidableEq α]

/-- A hash function of numbers. -/
def pairHash : CHashFunction ℕ := ⟨fun _ => 1, fun a b => a + 2 * b + 1, 0⟩

/-- A file that only the root is known of. -/
def knownRoot : CFileHashTree ℕ :=
  { CFileHashTree.create pairHash EFileHashType.HashNeo 300000 none (-1) with hash := 12 }

end Soundness

end NeoLoader.HashTreeDump
