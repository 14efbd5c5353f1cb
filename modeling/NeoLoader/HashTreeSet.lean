import NeoLoader.HashTreeRanges

/-!
# Hash sets of a hash tree

A hash set lists the hashes of the parts of a file. Each hash is put at the node of
its part, which `Expose` finds by its range and makes on the way down. `Expose`
stops only at a node with this very range, so a hash behind the end of the file is
never put anywhere. A hash set that is too short leaves nodes without hashes.
-/

namespace NeoLoader.HashTreeSet

open MerkleTree HashTree SHashTreeNode HashTreeRanges

section Exposing

variable {α : Type*}

/-- A child, allocated if there is none. -/
def orAlloc (pHash : α) : SHashTreeNode α → SHashTreeNode α
  | null => alloc pHash
  | node h Left Right => node h Left Right

/-- `CFileHashTree::Expose` within a number of calls, with what is done to the node
that it finds. The memory of new nodes is given by their paths. -/
def expose {β : Type*} (tree : CFileHashTree α) (use : SHashTreeNode α → β × SHashTreeNode α) :
    ℕ → (List Bool → α) → ℕ → ℕ → EBalance → SHashTreeNode α → ℕ → ℕ → Option (β × SHashTreeNode α)
  | 0, _, _, _, _, _, _, _ => none
  | fuel + 1, memory, uBegin, uEnd, Balance, Branche, uFrom, uTo =>
    let uTo := if uTo > uEnd then uEnd else uTo
    if uBegin = uFrom ∧ uEnd = uTo then some (use Branche)
    else
      let BrancheSize := getBrancheSize tree uBegin uEnd Balance
      if uTo ≤ uBegin + BrancheSize then
        (expose tree use fuel (fun path => memory (true :: path)) uBegin (uBegin + BrancheSize)
          EBalance.eLeft (orAlloc (memory [true]) Branche.left) uFrom uTo).map fun result =>
            (result.1, Branche.setLeft result.2)
      else
        (expose tree use fuel (fun path => memory (false :: path)) (uBegin + BrancheSize) uEnd
          EBalance.eRight (orAlloc (memory [false]) Branche.right) uFrom uTo).map fun result =>
            (result.1, Branche.setRight result.2)

/-- The loop of `SetHashSet`, from a hash of the list on. -/
def exposeHashes (fuel : ℕ) (memory : List Bool → α) (tree : CFileHashTree α) :
    List α → ℕ → SHashTreeNode α → Option (SHashTreeNode α)
  | [], _, TreeRoot => some TreeRoot
  | Hash :: HashSet, Index, TreeRoot =>
    (expose tree (fun Branche => ((), Branche.setHash Hash)) fuel memory 0 (getTreeSize tree)
      EBalance.eLeft TreeRoot (Index * partLength tree)
      (Index * partLength tree + partLength tree)).bind fun result =>
        exposeHashes fuel memory tree HashSet (Index + 1) result.2

variable [DecidableEq α] (H : CHashFunction α)

/-- `CFileHashTree::SetHashSet` from the first allocation on. -/
def setHashes (fuel : ℕ) (memory : List Bool → α) (HashSet : List α) (tree : CFileHashTree α) :
    Option (Bool × CFileHashTree α) :=
  (exposeHashes fuel memory tree HashSet 0 (alloc (memory []))).map fun TreeRoot =>
    match calculateTree H TreeRoot with
    | none => (false, tree)
    | some TreeRoot => setTree H TreeRoot tree

end Exposing

section Arrays

variable {uSize : ℕ}

/-- `memcpy` of a hash out of an array, with what lies behind the array. -/
def copyHash (Hash : List UInt8) (behind : List.Vector UInt8 uSize) : List.Vector UInt8 uSize :=
  ⟨(Hash ++ behind.toList).take uSize, by
    rw [List.length_take, List.length_append, List.Vector.toList_length]
    omega⟩

/-- `CFileHashTree::SetHashSet`. Only the first array's size is looked at. -/
def setHashSet (H : CHashFunction (List.Vector UInt8 uSize)) (fuel : ℕ)
    (memory : List Bool → List.Vector UInt8 uSize) (behind : ℕ → List.Vector UInt8 uSize)
    (HashSet : List (List UInt8)) (tree : CFileHashTree (List.Vector UInt8 uSize)) :
    Option (Bool × CFileHashTree (List.Vector UInt8 uSize)) :=
  match HashSet with
  | [] => some (false, tree)
  | Hash :: _ =>
    if Hash.length ≠ uSize then some (false, tree)
    else setHashes H fuel memory (HashSet.mapIdx fun i h => copyHash h (behind i)) tree

theorem copyHash_eq {Hash : List UInt8} (h : Hash.length = uSize)
    (behind : List.Vector UInt8 uSize) : copyHash Hash behind = ⟨Hash, h⟩ := by
  subst h
  exact Subtype.ext List.take_left

end Arrays

section Parts

variable {α : Type*} {tree : CFileHashTree α}

/-- The tree over some parts of the file, from the part `k` on. -/
inductive PartTree (tree : CFileHashTree α) (f : ℕ → α) :
    ℕ → ℕ → EBalance → Merkle α → Prop where
  /-- One part. -/
  | part (k : ℕ) (Balance : EBalance) : PartTree tree f k 1 Balance (Merkle.leaf (f k))
  /-- Several parts. -/
  | fork {k c : ℕ} {Balance : EBalance} {L R : Merkle α} : 2 ≤ c →
    PartTree tree f k (leftCount tree.eType Balance c) EBalance.eLeft L →
    PartTree tree f (k + leftCount tree.eType Balance c) (c - leftCount tree.eType Balance c)
      EBalance.eRight R → PartTree tree f k c Balance (Merkle.fork L R)

/-- The nodes over some parts of which the first `n` were exposed and got their
hashes. -/
inductive Built (tree : CFileHashTree α) (f : ℕ → α) :
    (List Bool → α) → ℕ → ℕ → EBalance → ℕ → SHashTreeNode α → Prop where
  /-- A new node. -/
  | new (memory : List Bool → α) (k c : ℕ) (Balance : EBalance) : Built tree f memory k c Balance 0 (alloc (memory []))
  /-- The node of a part. -/
  | part (memory : List Bool → α) (k : ℕ) (Balance : EBalance) : Built tree f memory k 1 Balance 1 (alloc (f k))
  /-- A node with parts exposed on the left only. -/
  | left {memory : List Bool → α} {k c n : ℕ} {Balance : EBalance} {Left : SHashTreeNode α} :
    2 ≤ c → 0 < n → n ≤ leftCount tree.eType Balance c →
    Built tree f (fun path => memory (true :: path)) k (leftCount tree.eType Balance c)
      EBalance.eLeft n Left → Built tree f memory k c Balance n (node (memory []) Left null)
  /-- A node with parts exposed on both sides. -/
  | both {memory : List Bool → α} {k c n : ℕ} {Balance : EBalance}
    {Left Right : SHashTreeNode α} : 2 ≤ c → leftCount tree.eType Balance c < n → n ≤ c →
    Built tree f (fun path => memory (true :: path)) k (leftCount tree.eType Balance c)
      EBalance.eLeft (leftCount tree.eType Balance c) Left →
    Built tree f (fun path => memory (false :: path)) (k + leftCount tree.eType Balance c)
      (c - leftCount tree.eType Balance c) EBalance.eRight
      (n - leftCount tree.eType Balance c) Right →
    Built tree f memory k c Balance n (node (memory []) Left Right)

variable {t : SHashTreeNode α} {Balance : EBalance}

theorem Built.ne_null {f : ℕ → α} {memory : List Bool → α} {k c n : ℕ} (h : Built tree f memory k c Balance n t) :
    t ≠ null := by
  cases h <;> exact fun he => by cases he

theorem orAlloc_eq (pHash : α) (h : t ≠ null) : orAlloc pHash t = t := by
  cases t with
  | null => exact absurd rfl h
  | node h Left Right => rfl

/-- There is a tree over some parts. -/
theorem exists_partTree (tree : CFileHashTree α) (f : ℕ → α) {c : ℕ} (hpos : 0 < c)
    (hlt : c < 2 ^ 64) (k : ℕ) (Balance : EBalance) : ∃ T, PartTree tree f k c Balance T := by
  induction c using Nat.strong_induction_on generalizing k Balance with
  | _ c ih =>
    by_cases htwo : 2 ≤ c
    · obtain ⟨hleft, hright⟩ := leftCount_between tree.eType Balance htwo hlt
      obtain ⟨L, hL⟩ := ih _ hright hleft (by omega) k EBalance.eLeft
      obtain ⟨R, hR⟩ := ih (c - leftCount tree.eType Balance c) (by omega) (by omega) (by omega)
        (k + leftCount tree.eType Balance c) EBalance.eRight
      exact ⟨_, PartTree.fork htwo hL hR⟩
    · have hone : c = 1 := by omega
      subst hone
      exact ⟨_, PartTree.part k Balance⟩

/-- When all parts have their hashes, the nodes have the form of the tree. -/
theorem Built.hasShape {f : ℕ → α} {memory : List Bool → α} {k c : ℕ} (h : Built tree f memory k c Balance c t)
    (hpos : 0 < c) (hlt : c < 2 ^ 64) {T : Merkle α} (hT : PartTree tree f k c Balance T) : HasShape t T := by
  induction hT generalizing memory t with
  | part k Balance =>
    cases h with
    | part => exact HasShape.leaf (f k)
    | left htwo => omega
    | both htwo => omega
  | @fork k c Balance L R htwo hL hR ihL ihR =>
    obtain ⟨hleft, hright⟩ := leftCount_between tree.eType Balance htwo hlt
    cases h with
    | new => omega
    | part => omega
    | left _ _ hle => omega
    | both _ _ _ hl hr =>
      exact HasShape.fork _ (ihL hl hleft (by omega)) (ihR hr (by omega) (by omega))

theorem mul_partLength_le (tree : CFileHashTree α) {i j : ℕ} (h : i < j) :
    i * partLength tree + partLength tree ≤ j * partLength tree := by
  have hmul := Nat.mul_le_mul_right (partLength tree) (show i + 1 ≤ j from h)
  rwa [Nat.add_mul, Nat.one_mul] at hmul

variable {β : Type*}

/-- The range of one part is the one that is looked for. -/
theorem expose_part (use : SHashTreeNode α → β × SHashTreeNode α) (fuel : ℕ)
    (memory : List Bool → α) {k uEnd uTo : ℕ} (Balance : EBalance) (t : SHashTreeNode α)
    (hle : uEnd ≤ (k + 1) * partLength tree) (hto : min uTo uEnd = min (k * partLength tree + partLength tree) uEnd) :
    expose tree use (fuel + 1) memory (k * partLength tree) uEnd Balance t (k * partLength tree)
      uTo = some (use t) := by
  have hclip : (if uTo > uEnd then uEnd else uTo) = min uTo uEnd := by
    rw [Nat.min_def]
    split_ifs <;> omega
  rw [Nat.add_mul, Nat.one_mul] at hle
  rw [expose, hclip, hto]
  exact if_pos ⟨rfl, by omega⟩

section

variable (hl : LengthsOk tree)

include hl

/-- The range of several parts is gone down on the side of the part that is looked for. -/
theorem expose_parts (use : SHashTreeNode α → β × SHashTreeNode α) (fuel : ℕ) (memory : List Bool → α)
    {k c n uEnd uTo : ℕ} (Balance : EBalance) (t : SHashTreeNode α) (htwo : 2 ≤ c) (hn : n < c)
    (hint : c < 2 ^ 31) (hgt : (k + c - 1) * partLength tree < uEnd) (hle : uEnd ≤ (k + c) * partLength tree)
    (hto : min uTo uEnd = min ((k + n) * partLength tree + partLength tree) uEnd) :
    expose tree use (fuel + 1) memory (k * partLength tree) uEnd Balance t ((k + n) * partLength tree) uTo =
      if n < leftCount tree.eType Balance c then
        (expose tree use fuel (fun path => memory (true :: path)) (k * partLength tree)
          ((k + leftCount tree.eType Balance c) * partLength tree) EBalance.eLeft
          (orAlloc (memory [true]) t.left) ((k + n) * partLength tree)
          (min ((k + n) * partLength tree + partLength tree) uEnd)).map fun result =>
            (result.1, t.setLeft result.2)
      else
        (expose tree use fuel (fun path => memory (false :: path))
          ((k + leftCount tree.eType Balance c) * partLength tree) uEnd EBalance.eRight
          (orAlloc (memory [false]) t.right) ((k + n) * partLength tree)
          (min ((k + n) * partLength tree + partLength tree) uEnd)).map fun result =>
            (result.1, t.setRight result.2) := by
  have hpos := hl.partLength_pos
  have hclip : (if uTo > uEnd then uEnd else uTo) = min uTo uEnd := by
    rw [Nat.min_def]
    split_ifs <;> omega
  obtain ⟨hleft, hright⟩ := leftCount_between tree.eType Balance htwo (by omega)
  have hmid : k * partLength tree + leftCount tree.eType Balance c * partLength tree =
      (k + leftCount tree.eType Balance c) * partLength tree := (Nat.add_mul _ _ _).symm
  have hlast : (k + leftCount tree.eType Balance c) * partLength tree ≤
      (k + c - 1) * partLength tree := Nat.mul_le_mul_right _ (by omega)
  have hother : ¬(k * partLength tree = (k + n) * partLength tree ∧
      uEnd = min ((k + n) * partLength tree + partLength tree) uEnd) := by
    rintro ⟨hfirst, hend⟩
    have hzero : n = 0 := by
      by_contra hne
      have hlt := mul_partLength_le tree (show k < k + n by omega)
      omega
    have hshort := mul_partLength_le tree (show k + n < k + c - 1 by omega)
    omega
  rw [expose, hclip, hto]
  dsimp only
  rw [if_neg hother, getBrancheSize_parts hl Balance htwo hint hgt hle, hmid]
  by_cases hside : n < leftCount tree.eType Balance c
  · have hend := mul_partLength_le tree (show k + n < k + leftCount tree.eType Balance c by omega)
    rw [if_pos hside, if_pos (by omega)]
  · have hend := Nat.mul_le_mul_right (partLength tree) (show k + leftCount tree.eType Balance c ≤ k + n by omega)
    rw [if_neg hside, if_neg (by omega)]

/-- Exposing the next part keeps the nodes in form. -/
theorem expose_built {f : ℕ → α} {memory : List Bool → α} {k c n : ℕ} (h : Built tree f memory k c Balance n t)
    (hn : n < c) (hint : c < 2 ^ 31) (uEnd uTo fuel : ℕ)
    (hgt : (k + c - 1) * partLength tree < uEnd) (hle : uEnd ≤ (k + c) * partLength tree)
    (hto : min uTo uEnd = min ((k + n) * partLength tree + partLength tree) uEnd) (hfuel : c ≤ fuel) :
    ∃ t', expose tree (fun Branche => ((), Branche.setHash (f (k + n)))) fuel memory
        (k * partLength tree) uEnd Balance t ((k + n) * partLength tree) uTo = some ((), t') ∧
      Built tree f memory k c Balance (n + 1) t' := by
  induction c using Nat.strong_induction_on generalizing k n Balance t uEnd uTo fuel memory with
  | _ c ih =>
    obtain ⟨fuel, rfl⟩ : ∃ m, fuel = m + 1 := ⟨fuel - 1, by omega⟩
    by_cases htwo : 2 ≤ c
    · obtain ⟨hleft, hright⟩ := leftCount_between tree.eType Balance htwo (by omega)
      have hlast : (k + leftCount tree.eType Balance c) * partLength tree ≤
          (k + c - 1) * partLength tree := Nat.mul_le_mul_right _ (by omega)
      rw [expose_parts hl _ fuel memory Balance t htwo hn hint hgt hle hto]
      by_cases hside : n < leftCount tree.eType Balance c
      · have hend := mul_partLength_le tree (show k + n < k + leftCount tree.eType Balance c by omega)
        have hchild : Built tree f (fun path => memory (true :: path)) k
            (leftCount tree.eType Balance c) EBalance.eLeft n
            (orAlloc (memory [true]) t.left) := by
          cases h with
          | new => exact Built.new _ _ _ _
          | part => omega
          | left _ _ _ hL =>
            rw [left, orAlloc_eq _ hL.ne_null]
            exact hL
          | both _ hln => omega
        have hsub := mul_partLength_le tree
          (show k + leftCount tree.eType Balance c - 1 < k + leftCount tree.eType Balance c by
            omega)
        have hpos := hl.partLength_pos
        obtain ⟨Left, hrun, hbuilt⟩ := ih _ hright hchild hside (by omega)
          ((k + leftCount tree.eType Balance c) * partLength tree)
          (min ((k + n) * partLength tree + partLength tree) uEnd) fuel (by omega) le_rfl
          (by omega) (by omega)
        rw [if_pos hside, hrun, Option.map_some]
        refine ⟨_, rfl, ?_⟩
        cases h with
        | new => exact Built.left htwo (by omega) (by omega) hbuilt
        | part => omega
        | left _ _ _ hL => exact Built.left htwo (by omega) (by omega) hbuilt
        | both _ hln => omega
      · have hindex : k + leftCount tree.eType Balance c + (n - leftCount tree.eType Balance c) = k + n := by omega
        have hcount : k + leftCount tree.eType Balance c + (c - leftCount tree.eType Balance c) = k + c := by omega
        have hchild : Built tree f (fun path => memory (false :: path))
            (k + leftCount tree.eType Balance c) (c - leftCount tree.eType Balance c)
            EBalance.eRight (n - leftCount tree.eType Balance c)
            (orAlloc (memory [false]) t.right) := by
          cases h with
          | new => omega
          | part => omega
          | left _ _ hnl _ =>
            have hsub : n - leftCount tree.eType Balance c = 0 := by omega
            rw [hsub]
            exact Built.new _ _ _ _
          | both _ _ _ _ hR =>
            rw [right, orAlloc_eq _ hR.ne_null]
            exact hR
        obtain ⟨Right, hrun, hbuilt⟩ := ih (c - leftCount tree.eType Balance c) (by omega) hchild
          (by omega) (by omega) uEnd (min ((k + n) * partLength tree + partLength tree) uEnd) fuel
          (by rwa [hcount]) (by rwa [hcount]) (by rw [hindex]; omega) (by omega)
        rw [hindex] at hrun
        rw [if_neg hside, hrun, Option.map_some]
        have hsucc : n - leftCount tree.eType Balance c + 1 = n + 1 - leftCount tree.eType Balance c := by omega
        rw [hsucc] at hbuilt
        refine ⟨_, rfl, ?_⟩
        cases h with
        | new => omega
        | part => omega
        | left _ _ hnl hL =>
          have hall : n = leftCount tree.eType Balance c := by omega
          rw [hall] at hL
          exact Built.both htwo (by omega) (by omega) hL hbuilt
        | both _ _ _ hL _ => exact Built.both htwo (by omega) (by omega) hL hbuilt
    · have hone : c = 1 := by omega
      have hzero : n = 0 := by omega
      subst hone hzero
      rw [Nat.add_zero] at hto ⊢
      rw [expose_part _ fuel memory Balance t hle hto]
      cases h with
      | new => exact ⟨_, rfl, Built.part memory k Balance⟩
      | left htwo => omega
      | both htwo => omega

/-- A part behind the end of the file is never found. -/
theorem expose_behind (use : SHashTreeNode α → β × SHashTreeNode α) (fuel : ℕ) (memory : List Bool → α)
    {uBegin uEnd uFrom : ℕ} (hlt : uBegin < uEnd) (hend : uEnd ≤ uFrom) (Balance : EBalance)
    (t : SHashTreeNode α) (uTo : ℕ) : expose tree use fuel memory uBegin uEnd Balance t uFrom uTo = none := by
  induction fuel generalizing memory uBegin uEnd Balance t uTo with
  | zero => rfl
  | succ fuel ih =>
    obtain ⟨hpos, hsize⟩ := getBrancheSize_between hl hlt Balance
    rw [expose]
    dsimp only
    rw [if_neg fun h => by omega]
    split_ifs <;> exact Option.map_eq_none_iff.mpr (ih _ (by omega) (by omega) _ _ _)

/-- Among `2 ^ 31` parts or more the left half is short. -/
theorem exists_left_huge {k c uEnd : ℕ} (hhuge : 2 ^ 31 ≤ c)
    (hgt : (k + c - 1) * partLength tree < uEnd) (hle : uEnd ≤ (k + c) * partLength tree)
    (Balance : EBalance) (hshort : getBrancheSize tree (k * partLength tree) uEnd Balance ≠
      uEnd - k * partLength tree) :
    ∃ l, 0 < l ∧ 2 ^ 31 ≤ c - l ∧ getBrancheSize tree (k * partLength tree) uEnd Balance = l * partLength tree := by
  have hpos := hl.partLength_pos
  obtain ⟨d, rfl⟩ : ∃ d, c = d + 2 := ⟨c - 2, by omega⟩
  rw [getBrancheSize_eq hl hgt hle] at hshort ⊢
  split_ifs at hshort ⊢ with hcount
  · exact absurd rfl hshort
  · obtain ⟨hpos', hlt⟩ := leftCount_between tree.eType Balance
      (show 2 ≤ (toInt (d + 2)).toNat by omega) (by have := toInt_le (d + 2); omega)
    have hw := toInt_huge hhuge
    exact ⟨_, hpos', by omega, rfl⟩

/-- The last part is never found among `2 ^ 31` parts or more. -/
theorem expose_huge (use : SHashTreeNode α → β × SHashTreeNode α) (fuel : ℕ) (memory : List Bool → α)
    {k c uEnd : ℕ} (hhuge : 2 ^ 31 ≤ c) (hgt : (k + c - 1) * partLength tree < uEnd)
    (hle : uEnd ≤ (k + c) * partLength tree) (Balance : EBalance) (t : SHashTreeNode α) {uTo : ℕ}
    (hto : uEnd ≤ uTo) : expose tree use fuel memory (k * partLength tree) uEnd Balance t
      ((k + c - 1) * partLength tree) uTo = none := by
  have hpos := hl.partLength_pos
  induction fuel generalizing memory k c Balance t uTo with
  | zero => rfl
  | succ fuel ih =>
    have hclip : (if uTo > uEnd then uEnd else uTo) = uEnd := by
      split_ifs <;> omega
    have hfirst : k * partLength tree < (k + c - 1) * partLength tree :=
      Nat.mul_lt_mul_of_pos_right (by omega) hpos
    obtain ⟨hsize, hwhole⟩ := getBrancheSize_between hl (show k * partLength tree < uEnd by omega) Balance
    rw [expose, hclip]
    dsimp only
    rw [if_neg fun h => by omega]
    split_ifs with hlow
    · have hsame : k * partLength tree + getBrancheSize tree (k * partLength tree) uEnd Balance =
          uEnd := by omega
      rw [hsame]
      exact Option.map_eq_none_iff.mpr (ih _ hhuge hgt hle _ _ le_rfl)
    · obtain ⟨l, hl0, hlc, hleft⟩ := exists_left_huge hl hhuge hgt hle Balance (by omega)
      have hmid : k * partLength tree + l * partLength tree = (k + l) * partLength tree :=
        (Nat.add_mul _ _ _).symm
      have hcount : k + l + (c - l) = k + c := by omega
      rw [hleft, hmid]
      refine Option.map_eq_none_iff.mpr ?_
      have hnone := ih (fun path => memory (false :: path)) (k := k + l) (c := c - l) hlc
        (by rwa [hcount]) (by rwa [hcount]) EBalance.eRight (orAlloc (memory [false]) t.right) le_rfl
      rwa [hcount] at hnone

end

end Parts

section Spine

variable {α : Type*} {tree : CFileHashTree α}

/-- Down the right side no node has a hash but the one that its memory held. -/
inductive Spine (v : α) : SHashTreeNode α → Prop where
  /-- There is no right child. -/
  | last (Left : SHashTreeNode α) : Spine v (node v Left null)
  /-- There is a right child. -/
  | right (Left : SHashTreeNode α) {Right : SHashTreeNode α} : Spine v Right → Spine v (node v Left Right)

variable {t : SHashTreeNode α}

theorem Spine.ne_null {v : α} (h : Spine v t) : t ≠ null := by
  cases h <;> exact fun he => by cases he

/-- Exposing a part that does not reach the end leaves the right side as it is. -/
theorem expose_spine {v : α} {β : Type*} (use : SHashTreeNode α → β × SHashTreeNode α) (fuel : ℕ)
    {memory : List Bool → α} (hmemory : ∀ path, memory path = v) {uBegin uEnd : ℕ}
    {Balance : EBalance} (h : Spine v t) {uFrom uTo : ℕ} (hto : uTo < uEnd) {result : β × SHashTreeNode α}
    (hrun : expose tree use fuel memory uBegin uEnd Balance t uFrom uTo = some result) : Spine v result.2 := by
  induction fuel generalizing memory uBegin uEnd Balance t result with
  | zero => cases hrun
  | succ fuel ih =>
    rw [expose, if_neg (show ¬uTo > uEnd by omega)] at hrun
    dsimp only at hrun
    rw [if_neg fun h => by omega] at hrun
    split_ifs at hrun
    · obtain ⟨child, -, rfl⟩ := Option.map_eq_some_iff.mp hrun
      cases h with
      | last Left => exact Spine.last _
      | right Left hR => exact Spine.right _ hR
    · obtain ⟨child, hchild, rfl⟩ := Option.map_eq_some_iff.mp hrun
      cases h with
      | last Left =>
        have hnew : Spine v (orAlloc (memory [false]) null) := by
          rw [orAlloc, hmemory]
          exact Spine.last null
        exact Spine.right _ (ih (fun path => hmemory _) hnew hto hchild)
      | @right Left Right hR =>
        have hold : Spine v (orAlloc (memory [false]) Right) := by
          rwa [orAlloc_eq _ hR.ne_null]
        exact Spine.right _ (ih (fun path => hmemory _) hold hto hchild)

/-- If the hash of a node is that of its right child, all memory on the right side
comes up to the root. -/
theorem Spine.hashOf {H : CHashFunction α} (hright : ∀ a b, H.branch a b = b) {v : α}
    {t t' : SHashTreeNode α} (h : Spine v t) (hcalc : calculateTree H t = some t') : H.hashOf t' = v := by
  induction h generalizing t' with
  | last Left =>
    rw [calculateTree, if_pos (by cases Left <;> rfl)] at hcalc
    rw [← Option.some.inj hcalc]
    rfl
  | @right Left Right hR ih =>
    rw [calculateTree] at hcalc
    split_ifs at hcalc
    · rw [← Option.some.inj hcalc]
      rfl
    · obtain ⟨Left', -, hmap⟩ := Option.bind_eq_some_iff.mp hcalc
      obtain ⟨Right', hcalc', rfl⟩ := Option.map_eq_some_iff.mp hmap
      rw [calculateBranche, CHashFunction.hashOf, hright]
      exact ih hcalc'

/-- There is nothing that `CalculateTree` cannot do with a node. -/
theorem exists_calculateTree (H : CHashFunction α) (h : t ≠ null) : ∃ t', calculateTree H t = some t' := by
  induction t with
  | null => exact absurd rfl h
  | node pHash Left Right ihl ihr =>
    rw [calculateTree]
    by_cases hleaf : (node pHash Left Right).IsLeaf = true
    · exact ⟨_, if_pos hleaf⟩
    · have hl : Left ≠ null := fun he => hleaf (by rw [he]; rfl)
      have hr : Right ≠ null := fun he => hleaf (by rw [he]; cases Left <;> rfl)
      obtain ⟨Left', hLeft⟩ := ihl hl
      obtain ⟨Right', hRight⟩ := ihr hr
      rw [if_neg hleaf, hLeft, hRight]
      exact ⟨_, rfl⟩

end Spine

section Loops

variable {α : Type*} {tree : CFileHashTree α} {memory : List Bool → α} {HashSet : List α} {fuel : ℕ}

/-- Exposing the next parts keeps the nodes in form. -/
theorem exposeHashes_built (hl : LengthsOk tree) {f : ℕ → α} {c n : ℕ}
    {t : SHashTreeNode α} (h : Built tree f memory 0 c EBalance.eLeft n t) (hint : c < 2 ^ 31)
    (hgt : (c - 1) * partLength tree < getTreeSize tree)
    (hle : getTreeSize tree ≤ c * partLength tree) (hn : n + HashSet.length ≤ c)
    (hf : ∀ i (hi : i < HashSet.length), HashSet[i] = f (n + i)) (hfuel : c ≤ fuel) :
    ∃ t', exposeHashes fuel memory tree HashSet n t = some t' ∧
      Built tree f memory 0 c EBalance.eLeft (n + HashSet.length) t' := by
  induction HashSet generalizing n t with
  | nil => exact ⟨t, rfl, h⟩
  | cons Hash HashSet ih =>
    rw [List.length_cons] at hn
    have hhead : Hash = f n := hf 0 (Nat.succ_pos _)
    obtain ⟨t', hrun, hbuilt⟩ := expose_built hl h (by omega) hint (getTreeSize tree)
      (n * partLength tree + partLength tree) fuel (by rwa [Nat.zero_add]) (by rwa [Nat.zero_add])
      (by rw [Nat.zero_add]) hfuel
    obtain ⟨t'', hrest, hbuilt'⟩ := ih hbuilt (by omega) fun i hi => by
      have hnext := hf (i + 1) (Nat.succ_lt_succ hi)
      rwa [List.getElem_cons_succ, ← Nat.add_assoc, Nat.add_right_comm] at hnext
    rw [Nat.zero_mul, Nat.zero_add, ← hhead] at hrun
    rw [exposeHashes, hrun, Option.bind_some, List.length_cons]
    exact ⟨t'', hrest, by rwa [Nat.add_right_comm n 1] at hbuilt'⟩

/-- Exposing parts of which none reaches the end leaves the right side as it is. -/
theorem exposeHashes_spine {v : α} (hmemory : ∀ path, memory path = v) {n : ℕ} {t t' : SHashTreeNode α}
    (h : Spine v t) (hend : (n + HashSet.length) * partLength tree < getTreeSize tree)
    (hrun : exposeHashes fuel memory tree HashSet n t = some t') : Spine v t' := by
  induction HashSet generalizing n t with
  | nil => rwa [← Option.some.inj hrun]
  | cons Hash HashSet ih =>
    rw [exposeHashes] at hrun
    obtain ⟨result, hfirst, hrest⟩ := Option.bind_eq_some_iff.mp hrun
    rw [List.length_cons, Nat.add_comm HashSet.length, ← Nat.add_assoc] at hend
    have hto : n * partLength tree + partLength tree < getTreeSize tree := by
      have hmul := Nat.mul_le_mul_right (partLength tree) (show n + 1 ≤ n + 1 + HashSet.length by omega)
      rw [Nat.add_mul n 1, Nat.one_mul] at hmul
      omega
    exact ih (expose_spine _ fuel hmemory h hto hfirst) hend hrest

/-- What is exposed below a node leaves a node. -/
theorem expose_ne_null {β : Type*} {use : SHashTreeNode α → β × SHashTreeNode α}
    (huse : ∀ t, t ≠ null → (use t).2 ≠ null)
    {uBegin uEnd : ℕ} {Balance : EBalance} {t : SHashTreeNode α} (h : t ≠ null) {uFrom uTo : ℕ}
    {result : β × SHashTreeNode α} (hrun : expose tree use fuel memory uBegin uEnd Balance t uFrom uTo = some result) :
    result.2 ≠ null := by
  cases fuel with
  | zero => cases hrun
  | succ fuel =>
    cases t with
    | null => exact absurd rfl h
    | node pHash Left Right =>
      rw [expose] at hrun
      dsimp only at hrun
      generalize (if uTo > uEnd then uEnd else uTo) = uStop at hrun
      split_ifs at hrun
      · rw [← Option.some.inj hrun]
        exact huse _ h
      all_goals
        obtain ⟨child, -, rfl⟩ := Option.map_eq_some_iff.mp hrun
        exact fun he => by cases he

/-- The loop of `SetHashSet` leaves a node. -/
theorem exposeHashes_ne_null {n : ℕ} {t t' : SHashTreeNode α} (h : t ≠ null)
    (hrun : exposeHashes fuel memory tree HashSet n t = some t') : t' ≠ null := by
  induction HashSet generalizing n t with
  | nil => rwa [← Option.some.inj hrun]
  | cons Hash HashSet ih =>
    obtain ⟨result, hfirst, hrest⟩ := Option.bind_eq_some_iff.mp hrun
    refine ih (expose_ne_null (fun t ht => ?_) h hfirst) hrest
    cases t with
    | null => exact absurd rfl ht
    | node pHash Left Right => exact fun he => by cases he

/-- When a part of the list is not found, `SetHashSet` never ends. -/
theorem exposeHashes_none {n i : ℕ} (hi : i < HashSet.length) (hnone : ∀ (Hash : α) t, expose tree
      (fun Branche => ((), Branche.setHash Hash)) fuel memory 0 (getTreeSize tree) EBalance.eLeft t
      ((n + i) * partLength tree) ((n + i) * partLength tree + partLength tree) = none)
    (t : SHashTreeNode α) : exposeHashes fuel memory tree HashSet n t = none := by
  induction HashSet generalizing n i t with
  | nil => exact absurd hi (Nat.not_lt_zero i)
  | cons Hash HashSet ih =>
    rw [exposeHashes, Option.bind_eq_none_iff]
    intro result hfirst
    cases i with
    | zero =>
      rw [Nat.add_zero] at hnone
      rw [hnone] at hfirst
      cases hfirst
    | succ i =>
      have hindex : n + 1 + i = n + (i + 1) := by omega
      exact ih (Nat.lt_of_succ_lt_succ hi) (by rwa [hindex]) result.2

/-- Sizes with which nothing overflows but the number of parts of a tree that is no
torrent's. -/
structure SizesOk (tree : CFileHashTree α) : Prop where
  /-- Blocks and parts have bytes. -/
  lengths : LengthsOk tree
  /-- The file is not empty. -/
  size : 0 < tree.totalSize
  /-- The offsets of the parts fit in a `uint64`. -/
  fits : tree.totalSize + 2 * partLength tree < 2 ^ 64
  /-- A torrent's tree has no parts of its own, and its size fits too. -/
  torrent : tree.eType = EFileHashType.HashTorrent → tree.partSize = none ∧
    partCount tree < 2 ^ 30 ∧ 2 ^ Nat.size (partCount tree) * partLength tree < 2 ^ 64

theorem SizesOk.exists_partCount (h : SizesOk tree) : ∃ d, partCount tree = d + 1 ∧
    d * partLength tree < tree.totalSize ∧ tree.totalSize ≤ (d + 1) * partLength tree :=
  divUp_spec h.size h.lengths.partLength_pos

theorem getTreeSize_eq (h : tree.eType ≠ EFileHashType.HashTorrent) : getTreeSize tree = tree.totalSize := if_neg h

/-- A torrent's tree has a power of two parts, and more than the file. -/
theorem SizesOk.treeSize_torrent (h : SizesOk tree) (ht : tree.eType = EFileHashType.HashTorrent) :
    getTreeSize tree = 2 ^ Nat.size (partCount tree) * partLength tree ∧
      partCount tree < 2 ^ Nat.size (partCount tree) ∧ 2 ^ Nat.size (partCount tree) < 2 ^ 31 := by
  obtain ⟨hnone, hcount, hfit⟩ := h.torrent ht
  have hlength : tree.blockSize = partLength tree := by
    rw [partLength, hnone, Option.getD_none]
  have hsize : Nat.size (partCount tree) ≤ 30 := Nat.size_le.mpr hcount
  refine ⟨?_, Nat.lt_size_self _, Nat.pow_lt_pow_right (by omega) (by omega)⟩
  rw [getTreeSize, if_pos ht, hlength]
  change 2 ^ Nat.size (toInt (partCount tree)).toNat * partLength tree % 2 ^ 64 = _
  rw [toInt_eq (by omega), Int.toNat_natCast, Nat.mod_eq_of_lt hfit]

/-- All hashes of a list get their nodes if the list is as long as the file has parts. -/
theorem exposeHashes_all (h : SizesOk tree) (hint : partCount tree < 2 ^ 31)
    (hne : tree.eType ≠ EFileHashType.HashTorrent) (HashSet : List α)
    (hlen : HashSet.length = partCount tree) (memory : List Bool → α) (default : α) (hfuel : partCount tree ≤ fuel) :
    ∃ t T, exposeHashes fuel memory tree HashSet 0 (alloc (memory [])) = some t ∧ HasShape t T ∧
      PartTree tree (fun i => HashSet.getD i default) 0 (partCount tree) EBalance.eLeft T := by
  obtain ⟨d, hd, hgt, hle⟩ := h.exists_partCount
  obtain ⟨T, hT⟩ := exists_partTree tree (fun i => HashSet.getD i default)
    (show 0 < partCount tree by omega) (by omega) 0 EBalance.eLeft
  have hf : ∀ i (hi : i < HashSet.length), HashSet[i] = (fun i => HashSet.getD i default) (0 + i) := fun i hi => by
    rw [Nat.zero_add]
    exact (List.getD_eq_getElem _ _ hi).symm
  obtain ⟨t, hrun, hbuilt⟩ := exposeHashes_built (f := fun i => HashSet.getD i default) h.lengths
    (Built.new memory 0 (partCount tree) _) hint (by rwa [getTreeSize_eq hne, hd, Nat.add_sub_cancel])
    (by rwa [getTreeSize_eq hne, hd])
    (show 0 + HashSet.length ≤ partCount tree by omega) hf hfuel
  rw [Nat.zero_add, hlen] at hbuilt
  exact ⟨t, T, hrun, hbuilt.hasShape (by omega) (by omega) hT, hT⟩

theorem exposeHashes_long (h : SizesOk tree) (hne : tree.eType ≠ EFileHashType.HashTorrent)
    (hlong : partCount tree < HashSet.length) (fuel : ℕ) (memory : List Bool → α) (t : SHashTreeNode α) :
    exposeHashes fuel memory tree HashSet 0 t = none := by
  obtain ⟨d, hd, -, hle⟩ := h.exists_partCount
  have hsize := getTreeSize_eq hne
  refine exposeHashes_none hlong (fun Hash t => ?_) t
  refine expose_behind h.lengths _ fuel _ (by rw [hsize]; exact h.size) ?_ _ t _
  rwa [hsize, Nat.zero_add, hd]

/-- With `2 ^ 31` parts or more `SetHashSet` never ends. -/
theorem exposeHashes_huge (h : SizesOk tree) (hne : tree.eType ≠ EFileHashType.HashTorrent)
    (hlen : partCount tree ≤ HashSet.length) (hhuge : 2 ^ 31 ≤ partCount tree)
    (fuel : ℕ) (memory : List Bool → α) (t : SHashTreeNode α) : exposeHashes fuel memory tree HashSet 0 t = none := by
  obtain ⟨d, hd, hgt, hle⟩ := h.exists_partCount
  have hsize := getTreeSize_eq hne
  refine exposeHashes_none (show d < HashSet.length by omega) (fun Hash t => ?_) t
  have hnone : expose tree (fun Branche => ((), Branche.setHash Hash)) fuel memory
      (0 * partLength tree) (getTreeSize tree) EBalance.eLeft t
      ((0 + partCount tree - 1) * partLength tree)
      (d * partLength tree + partLength tree) = none :=
    expose_huge h.lengths _ fuel _ hhuge (by rwa [Nat.zero_add, hd, Nat.add_sub_cancel, hsize])
      (by rwa [Nat.zero_add, hd, hsize]) _ t (by
        rw [Nat.add_mul, Nat.one_mul] at hle
        omega)
  rw [Nat.zero_mul, Nat.zero_add, hd, Nat.add_sub_cancel] at hnone
  rwa [Nat.zero_add]

end Loops

section Setting

variable {uSize : ℕ} {tree : CFileHashTree (List.Vector UInt8 uSize)}

/-- The root that is known of the file: its hash, or the tree that a torrent has. -/
def knownRoot (H : CHashFunction (List.Vector UInt8 uSize))
    (tree : CFileHashTree (List.Vector UInt8 uSize)) : Option (List.Vector UInt8 uSize) :=
  if tree.eType = EFileHashType.HashTorrent then
    match tree.treeRoot with
    | null => none
    | node pHash _ _ => some pHash
  else if tree.hash = H.zero then none
  else some tree.hash

/-- `SetHashSet` ends whatever the hash function is and the memory holds. It is
successful only with one hash for each part and the root that is known, and changes
nothing else. -/
def SetHashSetOk (tree : CFileHashTree (List.Vector UInt8 uSize)) (HashSet : List (List UInt8)) :
    Prop :=
  ∀ H : CHashFunction (List.Vector UInt8 uSize), H.zero = List.Vector.replicate uSize 0 →
    ∀ memory behind, ∃ N, ∀ fuel ≥ N, ∃ result, setHashSet H fuel memory behind HashSet tree = some result ∧
      (result.1 = true → HashSet.length = partCount tree ∧ (∀ Hash ∈ HashSet, Hash.length = uSize) ∧
        ∀ root ∈ knownRoot H tree, H.hashOf result.2.treeRoot = root) ∧
      (result.1 = false → result.2 = tree)

/-- The list is refused at once, or it has one hash for each part, of which there are
not too many, and the file is no torrent that has a tree. -/
def HashSetFits (tree : CFileHashTree (List.Vector UInt8 uSize)) (HashSet : List (List UInt8)) :
    Prop :=
  (∀ Hash ∈ HashSet.head?, Hash.length ≠ uSize) ∨
    HashSet.length = partCount tree ∧ (∀ Hash ∈ HashSet, Hash.length = uSize) ∧
      if tree.eType = EFileHashType.HashTorrent then tree.treeRoot = null
      else partCount tree < 2 ^ 31

variable {HashSet : List (List UInt8)}

/-- A list whose first hash has the right size is not refused at once. -/
theorem setHashSet_eq (h : ∃ Hash ∈ HashSet.head?, Hash.length = uSize) (H : CHashFunction (List.Vector UInt8 uSize))
    (fuel : ℕ) (memory : List Bool → List.Vector UInt8 uSize) (behind : ℕ → List.Vector UInt8 uSize) :
    setHashSet H fuel memory behind HashSet tree =
      setHashes H fuel memory (HashSet.mapIdx fun i Hash => copyHash Hash (behind i)) tree := by
  obtain ⟨Hash, hm, hlen⟩ := h
  cases HashSet with
  | nil => cases hm
  | cons first HashSet =>
    rw [Option.some.inj hm, setHashSet, if_neg (not_not_intro hlen)]

theorem setHashSet_refused
    (h : ¬∃ Hash ∈ HashSet.head?, Hash.length = uSize) (H : CHashFunction (List.Vector UInt8 uSize))
    (fuel : ℕ) (memory : List Bool → List.Vector UInt8 uSize) (behind : ℕ → List.Vector UInt8 uSize) :
    setHashSet H fuel memory behind HashSet tree = some (false, tree) := by
  cases HashSet with
  | nil => rfl
  | cons Hash HashSet => exact if_pos fun hlen => h ⟨Hash, rfl, hlen⟩

theorem setHashes_eq {H : CHashFunction (List.Vector UInt8 uSize)} {fuel : ℕ}
    {memory : List Bool → List.Vector UInt8 uSize} {HashSet : List (List.Vector UInt8 uSize)}
    {result : Bool × CFileHashTree (List.Vector UInt8 uSize)} (h : setHashes H fuel memory HashSet tree = some result) :
    ∃ t, exposeHashes fuel memory tree HashSet 0 (alloc (memory [])) = some t ∧
      ∀ t', calculateTree H t = some t' → result = setTree H t' tree := by
  obtain ⟨t, hrun, rfl⟩ := Option.map_eq_some_iff.mp h
  refine ⟨t, hrun, fun t' hcalc => ?_⟩
  rw [hcalc]

/-- A list that does not reach the end of the tree can bring up any root. -/
theorem setHashes_short {H : CHashFunction (List.Vector UInt8 uSize)}
    (hright : ∀ a b, H.branch a b = b) {fuel : ℕ} {v : List.Vector UInt8 uSize}
    {HashSet : List (List.Vector UInt8 uSize)} (hend : HashSet.length * partLength tree < getTreeSize tree)
    {result : Bool × CFileHashTree (List.Vector UInt8 uSize)}
    (h : setHashes H fuel (fun _ => v) HashSet tree = some result) :
    ∃ t', H.hashOf t' = v ∧ result = setTree H t' tree := by
  obtain ⟨t, hrun, hset⟩ := setHashes_eq h
  have hspine := exposeHashes_spine (fun _ => rfl) (Spine.last null) (by rwa [Nat.zero_add]) hrun
  obtain ⟨t', hcalc⟩ := exists_calculateTree H hspine.ne_null
  exact ⟨t', hspine.hashOf hright hcalc, hset t' hcalc⟩

/-- The hash function that takes the hash of the right child. -/
def rightHash (uSize : ℕ) : CHashFunction (List.Vector UInt8 uSize) :=
  ⟨fun _ => List.Vector.replicate uSize 0, fun _ b => b, List.Vector.replicate uSize 0⟩

/-- If `SetHashSet` does right with a tree that is no torrent's, the list has one hash
for each part. -/
theorem SetHashSetOk.length_eq (hs : SizesOk tree) (ht : tree.eType ≠ EFileHashType.HashTorrent)
    (hfirst : ∃ Hash ∈ HashSet.head?, Hash.length = uSize) (h : SetHashSetOk tree HashSet) :
    HashSet.length = partCount tree ∧ partCount tree < 2 ^ 31 := by
  obtain ⟨d, hd, hgt, hle⟩ := hs.exists_partCount
  obtain ⟨N, hN⟩ := h (rightHash uSize) rfl (fun _ => tree.hash) fun _ => List.Vector.replicate uSize 0
  obtain ⟨result, hrun, htrue, -⟩ := hN N le_rfl
  rw [setHashSet_eq hfirst] at hrun
  have hlen : (HashSet.mapIdx fun _ Hash =>
      copyHash Hash (List.Vector.replicate uSize 0)).length = HashSet.length := List.length_mapIdx
  have hsize := getTreeSize_eq ht
  rcases Nat.lt_trichotomy HashSet.length (partCount tree) with hlt | heq | hgt'
  · have hend : HashSet.length * partLength tree < getTreeSize tree := by
      have hmul := Nat.mul_le_mul_right (partLength tree) (show HashSet.length ≤ d by omega)
      omega
    obtain ⟨t', hroot, rfl⟩ := setHashes_short (fun _ _ => rfl) (by rwa [hlen]) hrun
    have haccept : Accepts (rightHash uSize) t' tree := Or.inr (Or.inr hroot.symm)
    have hall := (htrue (setTree_fst_iff.mpr haccept)).1
    omega
  · refine ⟨heq, ?_⟩
    by_contra hhuge
    obtain ⟨t', hexpose, -⟩ := setHashes_eq hrun
    rw [exposeHashes_huge hs ht (by rw [hlen, heq]) (not_lt.mp hhuge)] at hexpose
    cases hexpose
  · obtain ⟨t', hexpose, -⟩ := setHashes_eq hrun
    rw [exposeHashes_long hs ht (by rwa [hlen])] at hexpose
    cases hexpose

theorem setTree_torrent {H : CHashFunction (List.Vector UInt8 uSize)}
    (ht : tree.eType = EFileHashType.HashTorrent) (t : SHashTreeNode (List.Vector UInt8 uSize)) :
    setTree H t tree = (true, { tree with treeRoot := t }) := if_pos ht

theorem replicate_zero_ne (huSize : 0 < uSize) :
    (List.Vector.replicate uSize 0 : List.Vector UInt8 uSize) ≠ List.Vector.replicate uSize 1 := by
  intro hsame
  have hbytes := congrArg (fun v : List.Vector UInt8 uSize => v.toList.head?) hsame
  obtain ⟨n, rfl⟩ : ∃ n, uSize = n + 1 := ⟨uSize - 1, by omega⟩
  have hhead : some (0 : UInt8) = some 1 := hbytes
  exact absurd hhead (by decide)

/-- If `SetHashSet` does right with a torrent's tree, the list has one hash for each
part, and the torrent had no tree. -/
theorem SetHashSetOk.of_torrent (huSize : 0 < uSize) (hs : SizesOk tree) (ht : tree.eType = EFileHashType.HashTorrent)
    (hfirst : ∃ Hash ∈ HashSet.head?, Hash.length = uSize) (h : SetHashSetOk tree HashSet) :
    HashSet.length = partCount tree ∧ (∀ Hash ∈ HashSet, Hash.length = uSize) ∧ tree.treeRoot = null := by
  have hrun : ∀ v : List.Vector UInt8 uSize, HashSet.length = partCount tree ∧
      (∀ Hash ∈ HashSet, Hash.length = uSize) ∧ ∀ root ∈ knownRoot (rightHash uSize) tree, v = root := by
    intro v
    obtain ⟨N, hN⟩ := h (rightHash uSize) rfl (fun _ => v) fun _ => List.Vector.replicate uSize 0
    obtain ⟨result, hrun, htrue, -⟩ := hN N le_rfl
    rw [setHashSet_eq hfirst] at hrun
    have hlen : (HashSet.mapIdx fun _ Hash =>
        copyHash Hash (List.Vector.replicate uSize 0)).length = HashSet.length :=
      List.length_mapIdx
    have hdone : result.1 = true := by
      obtain ⟨t, hexpose, hset⟩ := setHashes_eq hrun
      obtain ⟨t', hcalc⟩ := exists_calculateTree (rightHash uSize)
        (exposeHashes_ne_null (fun he => by cases he) hexpose)
      rw [hset t' hcalc, setTree_torrent ht]
    obtain ⟨hcount, hsizes, hroot⟩ := htrue hdone
    obtain ⟨hsize, hmore, -⟩ := hs.treeSize_torrent ht
    have hend : HashSet.length * partLength tree < getTreeSize tree := by
      rw [hsize, hcount]
      exact Nat.mul_lt_mul_of_pos_right hmore hs.lengths.partLength_pos
    obtain ⟨t', hv, rfl⟩ := setHashes_short (fun _ _ => rfl) (by rwa [hlen]) hrun
    refine ⟨hcount, hsizes, fun root hm => ?_⟩
    have hsame := hroot root hm
    rw [setTree_torrent ht] at hsame
    exact hv.symm.trans hsame
  obtain ⟨hcount, hsizes, hzero⟩ := hrun (List.Vector.replicate uSize 0)
  obtain ⟨-, -, hone⟩ := hrun (List.Vector.replicate uSize 1)
  refine ⟨hcount, hsizes, ?_⟩
  cases hroot : tree.treeRoot with
  | null => rfl
  | node pHash Left Right =>
    have hknown : knownRoot (rightHash uSize) tree = some pHash := by
      rw [knownRoot, if_pos ht, hroot]
    exact absurd ((hzero pHash hknown).trans (hone pHash hknown).symm) (replicate_zero_ne huSize)

/-- If `SetHashSet` does right with a tree that is no torrent's, all hashes have the
right size. -/
theorem SetHashSetOk.sizes (hs : SizesOk tree) (ht : tree.eType ≠ EFileHashType.HashTorrent)
    (hfirst : ∃ Hash ∈ HashSet.head?, Hash.length = uSize)
    (h : SetHashSetOk tree HashSet) : ∀ Hash ∈ HashSet, Hash.length = uSize := by
  obtain ⟨hcount, hint⟩ := h.length_eq hs ht hfirst
  by_cases hone : HashSet.length ≤ 1
  · obtain ⟨first, hm, hlen⟩ := hfirst
    intro Hash hmem
    match HashSet, hone with
    | [only], _ =>
      rw [List.mem_singleton.mp hmem, Option.some.inj hm]
      exact hlen
  · let H : CHashFunction (List.Vector UInt8 uSize) :=
      ⟨fun _ => List.Vector.replicate uSize 0, fun _ _ => tree.hash, List.Vector.replicate uSize 0⟩
    obtain ⟨N, hN⟩ := h H rfl (fun _ => tree.hash) fun _ => List.Vector.replicate uSize 0
    obtain ⟨result, hrun, htrue, -⟩ := hN (max N (partCount tree)) (le_max_left _ _)
    rw [setHashSet_eq hfirst] at hrun
    obtain ⟨t, hrun', hset⟩ := setHashes_eq hrun
    obtain ⟨t₁, T, hrun₁, hshape, hT⟩ := exposeHashes_all hs hint ht _
      (List.length_mapIdx.trans hcount) (fun _ => tree.hash) tree.hash (le_max_right N _)
    rw [hrun₁] at hrun'
    rw [← Option.some.inj hrun'] at hset
    have hresult := hset _ (hshape.calculateTree (H := H))
    have hroot : H.hashOf (ofTree H T) = tree.hash := by
      rw [hashOf_ofTree]
      generalize hc : partCount tree = c at hT
      cases hT with
      | part => omega
      | fork => rfl
    refine (htrue ?_).2.1
    rw [hresult]
    exact setTree_fst_iff.mpr (Or.inr (Or.inr hroot.symm))

/-- With one hash for each part, `SetHashSet` does right with a torrent that has no
tree. -/
theorem setHashSetOk_torrent (hs : SizesOk tree) (ht : tree.eType = EFileHashType.HashTorrent)
    (hfirst : ∃ Hash ∈ HashSet.head?, Hash.length = uSize)
    (hcount : HashSet.length = partCount tree) (hsizes : ∀ Hash ∈ HashSet, Hash.length = uSize)
    (hnone : tree.treeRoot = null) : SetHashSetOk tree HashSet := by
  intro H _ memory behind
  obtain ⟨hsize, hmore, hint⟩ := hs.treeSize_torrent ht
  have hlen : (HashSet.mapIdx fun i Hash => copyHash Hash (behind i)).length = partCount tree :=
    List.length_mapIdx.trans hcount
  have hf : ∀ i (hi : i < (HashSet.mapIdx fun i Hash => copyHash Hash (behind i)).length),
      (HashSet.mapIdx fun i Hash => copyHash Hash (behind i))[i] =
        (fun i => (HashSet.mapIdx fun i Hash => copyHash Hash (behind i)).getD i H.zero) (0 + i) := fun i hi => by
    rw [Nat.zero_add]
    exact (List.getD_eq_getElem _ _ hi).symm
  refine ⟨2 ^ Nat.size (partCount tree), fun fuel hfuel => ?_⟩
  obtain ⟨t, hrun, hbuilt⟩ := exposeHashes_built
    (f := fun i => (HashSet.mapIdx fun i Hash => copyHash Hash (behind i)).getD i H.zero)
    hs.lengths (Built.new memory 0 (2 ^ Nat.size (partCount tree)) EBalance.eLeft) hint
    (by
      have hpos := Nat.two_pow_pos (Nat.size (partCount tree))
      rw [hsize]
      exact Nat.mul_lt_mul_of_pos_right (by omega) hs.lengths.partLength_pos)
    hsize.le (by omega) hf hfuel
  obtain ⟨t', hcalc⟩ := exists_calculateTree H hbuilt.ne_null
  have hresult : setHashSet H fuel memory behind HashSet tree = some (true, { tree with treeRoot := t' }) := by
    rw [setHashSet_eq hfirst, setHashes, hrun, Option.map_some, hcalc]
    exact congrArg some (setTree_torrent ht t')
  refine ⟨_, hresult, fun _ => ⟨hcount, hsizes, fun root hm => ?_⟩, fun he => by cases he⟩
  rw [knownRoot, if_pos ht, hnone] at hm
  cases hm

/-- With one hash for each part, `SetHashSet` does right with a tree that is no
torrent's. -/
theorem setHashSetOk_parts (hs : SizesOk tree) (ht : tree.eType ≠ EFileHashType.HashTorrent)
    (hfirst : ∃ Hash ∈ HashSet.head?, Hash.length = uSize)
    (hcount : HashSet.length = partCount tree) (hsizes : ∀ Hash ∈ HashSet, Hash.length = uSize)
    (hint : partCount tree < 2 ^ 31) : SetHashSetOk tree HashSet := by
  intro H _ memory behind
  refine ⟨partCount tree, fun fuel hfuel => ?_⟩
  obtain ⟨t, T, hrun, hshape, -⟩ := exposeHashes_all hs hint ht
    (HashSet.mapIdx fun i Hash => copyHash Hash (behind i)) (List.length_mapIdx.trans hcount)
    memory H.zero hfuel
  have hresult : setHashSet H fuel memory behind HashSet tree = some (setTree H (ofTree H T) tree) := by
    rw [setHashSet_eq hfirst, setHashes, hrun, Option.map_some, hshape.calculateTree]
  refine ⟨_, hresult, fun htrue => ⟨hcount, hsizes, fun root hm => ?_⟩, setTree_rejects⟩
  have haccept := setTree_fst_iff.mp htrue
  rw [setTree_treeRoot haccept]
  rw [knownRoot, if_neg ht] at hm
  split_ifs at hm with hzero
  · cases hm
  · rw [← Option.some.inj hm]
    exact ((haccept.resolve_left ht).resolve_left hzero).symm

/-- A tree of a file of two parts. -/
def twoParts : CFileHashTree (List.Vector UInt8 20) :=
  CFileHashTree.create (rightHash 20) EFileHashType.HashMule 10000000 none (-1)

theorem sizesOk_twoParts : SizesOk twoParts where
  lengths := ⟨by decide, fun PartSize hp => by
    rw [← Option.some.inj hp]
    decide⟩
  size := by decide
  fits := by decide
  torrent := fun ht => by cases ht

end Setting

end NeoLoader.HashTreeSet
