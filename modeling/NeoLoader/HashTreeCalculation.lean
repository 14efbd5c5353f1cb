import NeoLoader.HashTreeDump
import NeoLoader.HashTreeSet

/-!
# Calculating a hash tree

The tree of a file is calculated by splitting the file into ranges down to the
blocks. Below the limit of the depth only the hash of a range is kept. The same root
comes out of the hash set of the parts and of a saved dump, but a torrent's tree has
nodes behind the end of the file that a hash set does not fill.
-/

namespace NeoLoader.HashTreeCalculation

open MerkleTree HashTree SHashTreeNode HashTreeRanges HashTreeDump HashTreeSet

section Calculation

variable {α : Type*} (H : CHashFunction α) (tree : CFileHashTree α) (file : List UInt8)

/-- The hash of a block: zero behind the end of the file. -/
def leafHash (uBegin uEnd : ℕ) : α :=
  if uBegin ≥ file.length then H.zero
  else H.leaf ((file.drop uBegin).take (min uEnd file.length - uBegin))

/-- `CFileHashTree::CalculateLeaf`, for a file that can be read. -/
def calculateLeaf (uBegin uEnd : ℕ) : SHashTreeNode α := alloc (leafHash H file uBegin uEnd)

/-- `CFileHashTree::CalculateRange`. The hash of an inner node is calculated right
after it was allocated. -/
def calculateRange (uBegin uEnd : ℕ) (Balance : EBalance) (Depth : ℤ) :
    Option (SHashTreeNode α) :=
  if _h0 : getBrancheSize tree uBegin uEnd Balance = 0 then none
  else if _h : getBrancheSize tree uBegin uEnd Balance ≥ uEnd - uBegin then
    some (calculateLeaf H file uBegin uEnd)
  else
    (calculateRange uBegin (uBegin + getBrancheSize tree uBegin uEnd Balance) EBalance.eLeft
      (Depth + 1)).bind fun Left =>
        (calculateRange (uBegin + getBrancheSize tree uBegin uEnd Balance) uEnd EBalance.eRight
          (Depth + 1)).map fun Right =>
            let Branche := calculateBranche H (node H.zero Left Right)
            if Depth + 1 ≥ tree.depthLimit then alloc (H.hashOf Branche) else Branche
termination_by uEnd - uBegin
decreasing_by all_goals omega

/-- `CFileHashTree::Calculate`. -/
def calculate [DecidableEq α] : Bool × CFileHashTree α :=
  if file.length = 0 then (false, { tree with treeRoot := null })
  else
    let tree := { tree with treeRoot := null, totalSize := file.length, hash := H.zero }
    match calculateRange H tree file 0 (getTreeSize tree) EBalance.eLeft 1 with
    | none => (false, tree)
    | some TreeRoot => setTree H TreeRoot tree

/-- `CFileHashTree::IsFullyResolved` from a node on. -/
def isFullyResolvedNode (uFrom uTo uResolution : ℕ) : SHashTreeNode α → ℕ → ℕ → EBalance → ℤ → Bool
  | null, _, _, _, _ => false
  | node pHash Left Right, uBegin, uEnd, Balance, Depth =>
    let BrancheSize := getBrancheSize tree uBegin uEnd Balance
    if uBegin > tree.totalSize then true
    else if BrancheSize > uResolution ∧ uEnd > uFrom ∧ uBegin < uTo then
      if (node pHash Left Right).IsLeaf then decide (Depth + 1 ≥ tree.depthLimit)
      else isFullyResolvedNode uFrom uTo uResolution Left uBegin (uBegin + BrancheSize) EBalance.eLeft (Depth + 1) &&
        isFullyResolvedNode uFrom uTo uResolution Right (uBegin + BrancheSize) uEnd EBalance.eRight (Depth + 1)
    else true

/-- `CFileHashTree::CanHashParts`. -/
def canHashParts : Bool :=
  isFullyResolvedNode tree 0 (getTreeSize tree) (partLength tree) tree.treeRoot 0 (getTreeSize tree) EBalance.eLeft 1

/-- The loop of `CFileHashTree::GetHashSet` within a number of rounds. -/
def getHashSetLoop (fuel : ℕ) (memory : List Bool → α) : ℕ → ℕ → SHashTreeNode α → Option (List α)
  | 0, _, _ => none
  | n + 1, uFrom, TreeRoot =>
    if uFrom < tree.totalSize then
      (expose tree (fun Branche => (H.hashOf Branche, Branche)) fuel memory 0 tree.totalSize
        EBalance.eLeft TreeRoot uFrom (uFrom + partLength tree)).bind fun result =>
          (getHashSetLoop fuel memory n (uFrom + partLength tree) result.2).map (result.1 :: ·)
    else some []

/-- `CFileHashTree::GetHashSet`. -/
def getHashSet (fuel : ℕ) (memory : List Bool → α) : Option (List α) :=
  if canHashParts tree then getHashSetLoop H tree fuel memory fuel 0 tree.treeRoot else some []

/-- The hashes of some parts of the file, from the part `k` on. -/
def partHashes (k c : ℕ) (Balance : EBalance) : List α :=
  if _h : 2 ≤ c ∧ 0 < leftCount tree.eType Balance c ∧ leftCount tree.eType Balance c < c then
    partHashes k (leftCount tree.eType Balance c) EBalance.eLeft ++
      partHashes (k + leftCount tree.eType Balance c) (c - leftCount tree.eType Balance c) EBalance.eRight
  else [((calculateRange H tree file (k * partLength tree)
    (min ((k + 1) * partLength tree) (getTreeSize tree)) Balance 1).map H.hashOf).getD H.zero]
termination_by c
decreasing_by all_goals omega

/-- The hash set of the file. -/
def fileHashes : List α :=
  (partHashes H tree file 0 (divUp (getTreeSize tree) (partLength tree)) EBalance.eLeft).take (partCount tree)

end Calculation

section Trees

variable {α : Type*} {H : CHashFunction α} {tree : CFileHashTree α} {file : List UInt8}

/-- The tree over a range of the file, down to the blocks. -/
inductive RangeTree (tree : CFileHashTree α) (f : ℕ → ℕ → α) :
    ℕ → ℕ → EBalance → Merkle α → Prop where
  /-- One block. -/
  | block {uBegin uEnd : ℕ} {Balance : EBalance} : uEnd - uBegin ≤ getBrancheSize tree uBegin uEnd Balance →
    RangeTree tree f uBegin uEnd Balance (Merkle.leaf (f uBegin uEnd))
  /-- Several blocks. -/
  | fork {uBegin uEnd : ℕ} {Balance : EBalance} {L R : Merkle α} :
    getBrancheSize tree uBegin uEnd Balance < uEnd - uBegin →
    RangeTree tree f uBegin (uBegin + getBrancheSize tree uBegin uEnd Balance) EBalance.eLeft L →
    RangeTree tree f (uBegin + getBrancheSize tree uBegin uEnd Balance) uEnd EBalance.eRight R →
    RangeTree tree f uBegin uEnd Balance (Merkle.fork L R)

variable {Balance : EBalance} {uBegin uEnd : ℕ} {f : ℕ → ℕ → α}

/-- There is one tree over a range. -/
theorem RangeTree.unique {S T : Merkle α} (hS : RangeTree tree f uBegin uEnd Balance S)
    (hT : RangeTree tree f uBegin uEnd Balance T) : S = T := by
  induction hS generalizing T with
  | block hle =>
    cases hT with
    | block => rfl
    | fork hlt => omega
  | fork hlt _ _ ihL ihR =>
    cases hT with
    | block hle => omega
    | fork _ hL hR => rw [ihL hL, ihR hR]

/-- Calculating a range gives the tree over it, with some subtrees cut off. -/
theorem calculateRange_spec (file : List UInt8) (hl : LengthsOk tree) (hlt : uBegin < uEnd)
    (Balance : EBalance) (Depth : ℤ) : ∃ S T, calculateRange H tree file uBegin uEnd Balance Depth = some (ofTree H S) ∧
      Merkle.Cut H.branch S T ∧ RangeTree tree (leafHash H file) uBegin uEnd Balance T := by
  obtain ⟨n, hn⟩ : ∃ n, uEnd - uBegin = n := ⟨_, rfl⟩
  induction n using Nat.strong_induction_on generalizing uBegin uEnd Balance Depth with
  | _ n ih =>
    obtain ⟨hpos, hle⟩ := getBrancheSize_between hl hlt Balance
    rw [calculateRange, dif_neg hpos.ne']
    by_cases hleaf : getBrancheSize tree uBegin uEnd Balance ≥ uEnd - uBegin
    · rw [dif_pos hleaf]
      exact ⟨Merkle.leaf _, Merkle.leaf _, rfl, Merkle.Cut.refl _ _, RangeTree.block hleaf⟩
    · obtain ⟨L, L', hL, hcL, hrL⟩ := ih _ (by omega)
        (show uBegin < uBegin + getBrancheSize tree uBegin uEnd Balance by omega) EBalance.eLeft
        (Depth + 1) rfl
      obtain ⟨R, R', hR, hcR, hrR⟩ := ih _ (by omega)
        (show uBegin + getBrancheSize tree uBegin uEnd Balance < uEnd by omega) EBalance.eRight
        (Depth + 1) rfl
      have hbranch : calculateBranche H (node H.zero (ofTree H L) (ofTree H R)) =
          ofTree H (Merkle.fork L R) := by
        rw [calculateBranche, hashOf_ofTree, hashOf_ofTree, ofTree]
      rw [dif_neg hleaf, hL, Option.bind_some, hR, Option.map_some, hbranch]
      have hfork := RangeTree.fork (not_le.mp hleaf) hrL hrR
      dsimp only
      split_ifs
      · have hroot := (hcL.fork hcR).root_eq
        refine ⟨Merkle.leaf ((Merkle.fork L' R').root H.branch), _, ?_, Merkle.Cut.stop _, hfork⟩
        rw [hashOf_ofTree, hroot]
        rfl
      · exact ⟨_, _, rfl, Merkle.Cut.fork hcL hcR, hfork⟩

theorem getBrancheSize_toInt (tree : CFileHashTree α) (uBegin uEnd : ℕ) (Balance : EBalance) :
    getBrancheSize tree uBegin uEnd Balance =
      if toInt (divUp (uEnd - uBegin) (blockOf tree (uEnd - uBegin))) ≤ 1 then uEnd - uBegin
      else leftCount tree.eType Balance (toInt (divUp (uEnd - uBegin) (blockOf tree (uEnd - uBegin)))).toNat *
          blockOf tree (uEnd - uBegin) := rfl

theorem toInt_sub {n l : ℕ} (h : (l : ℤ) ≤ toInt n) : toInt (n - l) = toInt n - l := by
  have hdiv := Nat.div_add_mod n (2 ^ 32)
  unfold toInt at h ⊢
  rw [BitVec.toInt_eq_toNat_cond, BitVec.toNat_ofNat] at h ⊢
  rw [BitVec.toInt_eq_toNat_cond, BitVec.toNat_ofNat]
  split_ifs at h ⊢ <;> omega

/-- The height of the tree over a range that is split into at most `2 ^ d` units, as
far as their number is an `int`. -/
theorem RangeTree.height_le {unit base M : ℕ} (hunit : 0 < unit)
    (hblock : ∀ s, unit < s → s ≤ M → blockOf tree s = unit)
    (hbase : ∀ uBegin uEnd Balance T, uEnd - uBegin ≤ unit → uEnd - uBegin ≤ M →
      RangeTree tree f uBegin uEnd Balance T → T.height ≤ base) {T : Merkle α}
    (h : RangeTree tree f uBegin uEnd Balance T) (hM : uEnd - uBegin ≤ M) {d : ℕ}
    (hsize : toInt (divUp (uEnd - uBegin) unit) ≤ 2 ^ d) : T.height ≤ base + d := by
  induction h generalizing d with
  | block => exact Nat.zero_le _
  | @fork uBegin uEnd Balance L R hlt hL hR ihL ihR =>
    by_cases hshort : uEnd - uBegin ≤ unit
    · exact (hbase _ _ _ _ hshort hM (RangeTree.fork hlt hL hR)).trans (Nat.le_add_right _ _)
    · have hof := hblock _ (not_le.mp hshort) hM
      obtain ⟨c, hc, hgt, hle⟩ := divUp_spec (show 0 < uEnd - uBegin by omega) hunit
      obtain ⟨hintle, hint⟩ := toInt_le (divUp (uEnd - uBegin) unit)
      have hbranch := getBrancheSize_toInt tree uBegin uEnd Balance
      rw [hof] at hbranch
      split_ifs at hbranch with hcount
      · omega
      · generalize hw : (toInt (divUp (uEnd - uBegin) unit)).toNat = w at hbranch
        obtain ⟨hl0, hlw⟩ := leftCount_between tree.eType Balance (show 2 ≤ w by omega) (by omega)
        cases d with
        | zero => omega
        | succ d =>
          have hpow : ((2 ^ (d + 1) : ℕ) : ℤ) = 2 ^ (d + 1) := by push_cast; rfl
          obtain ⟨hleft, hright⟩ := leftCount_halves tree.eType Balance (show 2 ≤ w by omega)
            (by omega) (show w ≤ 2 ^ (d + 1) by omega)
          have hcast : ((2 ^ d : ℕ) : ℤ) = 2 ^ d := by push_cast; rfl
          generalize leftCount tree.eType Balance w = l at hbranch hl0 hlw hleft hright
          have hlc := Nat.mul_le_mul_right unit (show l ≤ c by omega)
          obtain ⟨l', rfl⟩ : ∃ l', l = l' + 1 := ⟨l - 1, by omega⟩
          have hleftCount : divUp ((l' + 1) * unit) unit = l' + 1 :=
            divUp_eq (Nat.mul_lt_mul_of_pos_right (Nat.lt_succ_self l') hunit) le_rfl
          have hrightCount : divUp (uEnd - (uBegin + (l' + 1) * unit)) unit = c + 1 - (l' + 1) := by
            obtain ⟨e, rfl⟩ : ∃ e, c = l' + 1 + e := ⟨c - (l' + 1), by omega⟩
            have hsub : l' + 1 + e + 1 - (l' + 1) = e + 1 := by omega
            rw [Nat.add_mul (l' + 1) e] at hgt
            rw [Nat.add_assoc (l' + 1) e 1, Nat.add_mul (l' + 1) (e + 1)] at hle
            rw [hsub]
            exact divUp_eq (by omega) (by omega)
          rw [hbranch] at ihL ihR
          rw [Nat.add_sub_cancel_left] at ihL
          have hheightL := ihL (by omega) (d := d) (by
            rw [hleftCount, toInt_eq (by omega)]
            omega)
          have hheightR := ihR (by omega) (d := d) (by
            rw [hrightCount, ← hc, toInt_sub (by omega)]
            omega)
          rw [Merkle.height]
          omega

/-- No tree over a range is too high for the ids of a dump. -/
theorem RangeTree.height_lt (hl : LengthsOk tree) {T : Merkle α} (h : RangeTree tree f uBegin uEnd Balance T) :
    T.height < 64 := by
  have hint : ∀ n, toInt n ≤ 2 ^ 31 := fun n => (toInt_le n).2.le
  have hblocks : ∀ M, (∀ s ≤ M, blockOf tree s = tree.blockSize) → ∀ uBegin uEnd Balance T,
      uEnd - uBegin ≤ M → RangeTree tree f uBegin uEnd Balance T → T.height ≤ 31 := by
    intro M hM uBegin uEnd Balance T hle hT
    have hone : ∀ uBegin uEnd Balance T, uEnd - uBegin ≤ tree.blockSize → uEnd - uBegin ≤ M →
        RangeTree tree f uBegin uEnd Balance T → T.height ≤ 0 := by
      intro uBegin uEnd Balance T hunit hle hT
      cases hT with
      | block => exact le_rfl
      | fork hlt =>
        rw [getBrancheSize_toInt, hM _ hle] at hlt
        by_cases hempty : uEnd - uBegin = 0
        · omega
        · have hcount : divUp (uEnd - uBegin) tree.blockSize = 0 + 1 :=
            divUp_eq (by omega) (by omega)
          rw [hcount, toInt_eq (by omega), if_pos (by omega)] at hlt
          exact absurd hlt (lt_irrefl _)
    have hheight := hT.height_le hl.block (fun s _ hs => hM s hs) hone hle (hint _)
    rwa [Nat.zero_add] at hheight
  cases hp : tree.partSize with
  | none =>
    have hof : ∀ s ≤ uEnd - uBegin, blockOf tree s = tree.blockSize := fun s _ => by
      rw [blockOf, hp]
    exact (hblocks _ hof _ _ _ _ le_rfl h).trans_lt (by omega)
  | some PartSize =>
    have hof : ∀ s ≤ PartSize, blockOf tree s = tree.blockSize := fun s hs => by
      rw [blockOf, hp]
      exact if_neg (by omega)
    have hheight := h.height_le (hl.part _ hp) (fun s hs _ => by rw [blockOf, hp]; exact if_pos hs)
      (fun uBegin uEnd Balance T hle _ hT => hblocks _ hof _ _ _ _ hle hT) le_rfl (hint _)
    omega

theorem length_partHashes (H : CHashFunction α) (tree : CFileHashTree α) (file : List UInt8)
    {c : ℕ} (hpos : 0 < c) (hlt : c < 2 ^ 64) (k : ℕ) (Balance : EBalance) :
    (partHashes H tree file k c Balance).length = c := by
  induction c using Nat.strong_induction_on generalizing k Balance with
  | _ c ih =>
    rw [partHashes]
    by_cases htwo : 2 ≤ c
    · obtain ⟨hleft, hright⟩ := leftCount_between tree.eType Balance htwo hlt
      rw [dif_pos ⟨htwo, hleft, hright⟩, List.length_append, ih _ hright hleft (by omega),
        ih _ (by omega) (by omega) (by omega)]
      omega
    · rw [dif_neg (fun h => htwo h.1), List.length_singleton]
      omega

/-- The tree over the hashes of the parts has the root of the tree over their ranges. -/
theorem PartTree.root_eq (hl : LengthsOk tree) {f : ℕ → α} {k c : ℕ}
    {S T : Merkle α} (hS : PartTree tree f k c Balance S) (hpos : 0 < c) (hint : c < 2 ^ 31)
    (hgt : (k + c - 1) * partLength tree < getTreeSize tree)
    (hT : RangeTree tree (leafHash H file) (k * partLength tree)
      (min ((k + c) * partLength tree) (getTreeSize tree)) Balance T)
    (hf : ∀ i < c, (partHashes H tree file k c Balance)[i]? = some (f (k + i))) :
    S.root H.branch = T.root H.branch := by
  induction hS generalizing T with
  | part k Balance =>
    rw [Nat.add_sub_cancel] at hgt
    have hnext := mul_partLength_le tree (show k < k + 1 by omega)
    have hpart := hl.partLength_pos
    obtain ⟨C, T', hcalc, hcut, hrange⟩ := calculateRange_spec (H := H) file hl
      (show k * partLength tree < min ((k + 1) * partLength tree) (getTreeSize tree) by omega)
      Balance 1
    have hhash := hf 0 Nat.one_pos
    rw [partHashes, dif_neg (by omega), hcalc, List.getElem?_cons_zero, Option.map_some,
      Option.getD_some, hashOf_ofTree, Nat.add_zero] at hhash
    rw [hT.unique hrange, ← hcut.root_eq, Option.some.inj hhash]
    rfl
  | @fork k c Balance L R htwo hL hR ihL ihR =>
    obtain ⟨hleft, hright⟩ := leftCount_between tree.eType Balance htwo (by omega)
    have hmid : k * partLength tree + leftCount tree.eType Balance c * partLength tree =
        (k + leftCount tree.eType Balance c) * partLength tree := (Nat.add_mul _ _ _).symm
    have hlast := Nat.mul_le_mul_right (partLength tree) (show k + leftCount tree.eType Balance c ≤ k + c - 1 by omega)
    have hend := mul_partLength_le tree (show k + c - 1 < k + c by omega)
    have hpart := hl.partLength_pos
    have hsize := getBrancheSize_parts hl Balance htwo hint
      (show (k + c - 1) * partLength tree < min ((k + c) * partLength tree) (getTreeSize tree) by
        omega) (Nat.min_le_left _ _)
    have hsplit := hf
    rw [partHashes, dif_pos ⟨htwo, hleft, hright⟩] at hsplit
    have hlenL := length_partHashes H tree file hleft (by omega) k EBalance.eLeft
    cases hT with
    | block hle => omega
    | @fork _ _ _ L' R' hlt hL' hR' =>
      rw [hsize, hmid] at hL' hR'
      have hrootL := ihL hleft (by omega) (lt_of_le_of_lt (Nat.mul_le_mul_right _ (by omega)) (hlast.trans_lt hgt))
        (by rwa [Nat.min_eq_left (by omega)]) fun i hi => by
          have hat := hsplit i (by omega)
          rwa [List.getElem?_append_left (by omega)] at hat
      have hcount : k + leftCount tree.eType Balance c + (c - leftCount tree.eType Balance c) = k + c := by omega
      have hrootR := ihR (by omega) (by omega) (by rwa [hcount]) (by rwa [hcount]) fun i hi => by
        have hat := hsplit (leftCount tree.eType Balance c + i) (by omega)
        rwa [List.getElem?_append_right (by omega), hlenL, Nat.add_sub_cancel_left, ← Nat.add_assoc] at hat
      rw [Merkle.root, Merkle.root, hrootL, hrootR]

end Trees

section Reading

variable {α : Type*} {H : CHashFunction α} {tree : CFileHashTree α}

section

variable (hl : LengthsOk tree) {f : ℕ → α} {k c : ℕ} {Balance : EBalance} {T : Merkle α}
  (h : PartTree tree f k c Balance T)

include hl h

/-- A tree over the parts has all hashes that `GetHashSet` asks for. -/
theorem isFullyResolvedNode_ofTree (hpos : 0 < c)
    (hint : c < 2 ^ 31) {uEnd : ℕ} (hgt : (k + c - 1) * partLength tree < uEnd)
    (hle : uEnd ≤ (k + c) * partLength tree) (uFrom uTo : ℕ) (Depth : ℤ) :
    isFullyResolvedNode tree uFrom uTo (partLength tree) (ofTree H T) (k * partLength tree) uEnd
      Balance Depth = true := by
  induction h generalizing uEnd Depth with
  | part k Balance =>
    rw [Nat.add_mul, Nat.one_mul] at hle
    obtain ⟨-, hsize⟩ := getBrancheSize_between hl
      (show k * partLength tree < uEnd by rwa [Nat.add_sub_cancel] at hgt) Balance
    rw [ofTree, alloc, isFullyResolvedNode]
    rw [if_neg (show ¬(_ > partLength tree ∧ _) by omega), ite_self]
  | @fork k c Balance L R htwo hL hR ihL ihR =>
    obtain ⟨hleft, hright⟩ := leftCount_between tree.eType Balance htwo (by omega)
    have hmid : k * partLength tree + leftCount tree.eType Balance c * partLength tree =
        (k + leftCount tree.eType Balance c) * partLength tree := (Nat.add_mul _ _ _).symm
    have hcount : k + leftCount tree.eType Balance c + (c - leftCount tree.eType Balance c) = k + c := by omega
    have hsub := mul_partLength_le tree
      (show k + leftCount tree.eType Balance c - 1 < k + leftCount tree.eType Balance c by omega)
    have hpart := hl.partLength_pos
    rw [ofTree, isFullyResolvedNode, getBrancheSize_parts hl Balance htwo hint hgt hle, hmid,
      ihL hleft (by omega) (by omega) le_rfl,
      ihR (by omega) (by omega) (by rwa [hcount]) (by rwa [hcount]),
      isLeaf_node (ofTree_ne_null H L) (ofTree_ne_null H R)]
    simp only [Bool.and_self, Bool.false_eq_true, if_false, ite_self]

/-- Exposing a part of a tree over the parts finds its hash and changes nothing. -/
theorem expose_ofTree (hint : c < 2 ^ 31) {n : ℕ} (hn : n < c)
    (uEnd uTo fuel : ℕ) (memory : List Bool → α) (hgt : (k + c - 1) * partLength tree < uEnd)
    (hle : uEnd ≤ (k + c) * partLength tree)
    (hto : min uTo uEnd = min ((k + n) * partLength tree + partLength tree) uEnd) (hfuel : c ≤ fuel) :
    expose tree (fun Branche => (H.hashOf Branche, Branche)) fuel memory (k * partLength tree) uEnd
      Balance (ofTree H T) ((k + n) * partLength tree) uTo = some (f (k + n), ofTree H T) := by
  induction h generalizing n uEnd uTo fuel memory with
  | part k Balance =>
    obtain ⟨fuel, rfl⟩ : ∃ m, fuel = m + 1 := ⟨fuel - 1, by omega⟩
    have hzero : n = 0 := by omega
    subst hzero
    rw [Nat.add_zero] at hto ⊢
    exact expose_part _ fuel memory Balance _ hle hto
  | @fork k c Balance L R htwo hL hR ihL ihR =>
    obtain ⟨fuel, rfl⟩ : ∃ m, fuel = m + 1 := ⟨fuel - 1, by omega⟩
    obtain ⟨hleft, hright⟩ := leftCount_between tree.eType Balance htwo (by omega)
    have hpart := hl.partLength_pos
    rw [expose_parts hl _ fuel memory Balance _ htwo hn hint hgt hle hto, ofTree]
    by_cases hside : n < leftCount tree.eType Balance c
    · have hend := mul_partLength_le tree (show k + n < k + leftCount tree.eType Balance c by omega)
      have hsub := mul_partLength_le tree
        (show k + leftCount tree.eType Balance c - 1 < k + leftCount tree.eType Balance c by omega)
      have hlast := Nat.mul_le_mul_right (partLength tree)
        (show k + leftCount tree.eType Balance c ≤ k + c - 1 by omega)
      rw [if_pos hside, left, orAlloc_eq _ (ofTree_ne_null H L),
        ihL (by omega) hside _ _ _ _ (by omega) le_rfl (by omega) (by omega)]
      rfl
    · have hcount : k + leftCount tree.eType Balance c + (c - leftCount tree.eType Balance c) = k + c := by omega
      have hindex : k + leftCount tree.eType Balance c + (n - leftCount tree.eType Balance c) = k + n := by omega
      have hread := ihR (by omega) (n := n - leftCount tree.eType Balance c) (by omega)
        uEnd (min ((k + n) * partLength tree + partLength tree) uEnd) fuel
        (fun path => memory (false :: path)) (by rwa [hcount]) (by rwa [hcount])
        (by rw [hindex]; omega) (by omega)
      rw [hindex] at hread
      rw [if_neg hside, right, orAlloc_eq _ (ofTree_ne_null H R), hread]
      rfl

end

/-- `GetHashSet` returns the hashes of the parts one after the other. -/
theorem getHashSetLoop_ofTree (hl : LengthsOk tree) {f : ℕ → α} {c : ℕ} {T : Merkle α}
    (h : PartTree tree f 0 c EBalance.eLeft T) (hint : c < 2 ^ 31) {fuel : ℕ}
    (hgt : (c - 1) * partLength tree < tree.totalSize)
    (hle : tree.totalSize ≤ c * partLength tree) (hfuel : c ≤ fuel) (memory : List Bool → α)
    {m n : ℕ} (hn : n + m = c) {rounds : ℕ} (hrounds : m < rounds) :
    getHashSetLoop H tree fuel memory rounds (n * partLength tree) (ofTree H T) = some ((List.range' n m).map f) := by
  induction m generalizing n rounds with
  | zero =>
    obtain ⟨rounds, rfl⟩ : ∃ r, rounds = r + 1 := ⟨rounds - 1, by omega⟩
    have hall : n = c := hn
    rw [getHashSetLoop, hall, if_neg (by omega)]
    rfl
  | succ m ih =>
    obtain ⟨rounds, rfl⟩ : ∃ r, rounds = r + 1 := ⟨rounds - 1, by omega⟩
    have hstart := Nat.mul_le_mul_right (partLength tree) (show n ≤ c - 1 by omega)
    have hread := expose_ofTree (H := H) hl h hint (n := n) (by omega) tree.totalSize
      (n * partLength tree + partLength tree) fuel memory
      (by rwa [Nat.zero_add]) (by rwa [Nat.zero_add]) (by rw [Nat.zero_add]) hfuel
    rw [Nat.zero_mul, Nat.zero_add] at hread
    have hnext : n * partLength tree + partLength tree = (n + 1) * partLength tree := by
      rw [Nat.add_mul, Nat.one_mul]
    rw [getHashSetLoop, if_pos (by omega), hread, Option.bind_some, hnext, ih (by omega) (by omega), List.range'_succ]
    rfl

/-- What `GetHashSet` returns reaches to the end of the file. -/
theorem le_length_getHashSetLoop {fuel : ℕ} {memory : List Bool → α} {rounds uFrom : ℕ}
    {TreeRoot : SHashTreeNode α} {HashSet : List α}
    (h : getHashSetLoop H tree fuel memory rounds uFrom TreeRoot = some HashSet) :
    tree.totalSize ≤ uFrom + HashSet.length * partLength tree := by
  induction rounds generalizing uFrom TreeRoot HashSet with
  | zero => cases h
  | succ rounds ih =>
    rw [getHashSetLoop] at h
    split_ifs at h
    · obtain ⟨result, -, hmap⟩ := Option.bind_eq_some_iff.mp h
      obtain ⟨rest, hrest, rfl⟩ := Option.map_eq_some_iff.mp hmap
      have hle := ih hrest
      rw [List.length_cons, Nat.add_mul, Nat.one_mul]
      omega
    · rw [← Option.some.inj h]
      omega

end Reading

end NeoLoader.HashTreeCalculation
