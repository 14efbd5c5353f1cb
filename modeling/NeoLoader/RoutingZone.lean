import NeoLoader.BitPrefix
import Mathlib.Data.List.Nodup
import Mathlib.Data.List.Perm.Basic

/-!
# Zones of a Kademlia routing tree

A fork splits the zone of some first bits of the distance to the own ID by the next
bit. A bin that gets too full becomes a fork, and two bins with few nodes become one
bin again. The tree holds pointers to nodes, whose IDs do not change while they are
in it.
-/

namespace NeoLoader.RoutingZone

open BitPrefix

abbrev CUInt128 := BitVec 128

/-- The settings of `CKadConfig` that zones go by. -/
structure CKadConfig where
  BucketSize : ℕ
  ZoneLimit : CUInt128
  LevelLimit : ℤ

/-- `CRoutingZone`, with pointers to nodes. -/
inductive CRoutingZone (ν : Type*) where
  /-- `CRoutingBin`, with the ID that it is looking for. -/
  | bin (uLevel : ℕ) (uZoneIndex : CUInt128) (Nodes : List ν) (pRandomLookup : Option CUInt128)
  /-- `CRoutingFork`. -/
  | fork (uLevel : ℕ) (uZoneIndex : CUInt128) (pLeftZone pRightZone : CRoutingZone ν)

open CRoutingZone

/-- Whether a zone is a fork. -/
def CRoutingZone.isFork {ν : Type*} : CRoutingZone ν → Bool
  | bin _ _ _ _ => false
  | fork _ _ _ _ => true

section Operations

variable {ν : Type*} (GetID : ν → CUInt128) (Cfg : CKadConfig) (rootID : CUInt128)

/-- The constructor of `CRoutingFork`. -/
def newFork (uLevel : ℕ) (uZoneIndex : CUInt128) : CRoutingZone ν :=
  let uNewIndex := uZoneIndex <<< 1
  fork uLevel uZoneIndex (bin (uLevel + 1) (uNewIndex + 1) [] none) (bin (uLevel + 1) uNewIndex [] none)

/-- The bit that `CRoutingFork::GetZone` goes by. -/
def getBit (uLevel : ℕ) (ID : CUInt128) : Bool := (ID ^^^ rootID).getMsbD uLevel

def getNode (ID : CUInt128) : CRoutingZone ν → Option ν
  | bin _ _ Nodes _ => Nodes.find? fun q => GetID q = ID
  | fork uLevel _ Left Right =>
    if getBit rootID uLevel ID then getNode ID Left else getNode ID Right

def setLookup (ID : CUInt128) : CRoutingZone ν → CRoutingZone ν
  | bin uLevel uZoneIndex Nodes _ => bin uLevel uZoneIndex Nodes (some ID)
  | fork uLevel uZoneIndex Left Right =>
    if getBit rootID uLevel ID then fork uLevel uZoneIndex (setLookup ID Left) Right
    else fork uLevel uZoneIndex Left (setLookup ID Right)

/-- `AddNode` within a number of calls, with the pointer to the node that is in the
tree now. A bin that is too full is replaced by what `Split` makes of it. -/
def addNode : ℕ → CRoutingZone ν → ν → Option (Bool × ν × CRoutingZone ν)
  | 0, _, _ => none
  | fuel + 1, fork uLevel uZoneIndex Left Right, pNode =>
    if getBit rootID uLevel (GetID pNode) then
      (addNode fuel Left pNode).map fun result =>
        (result.1, result.2.1, fork uLevel uZoneIndex result.2.2 Right)
    else
      (addNode fuel Right pNode).map fun result =>
        (result.1, result.2.1, fork uLevel uZoneIndex Left result.2.2)
  | fuel + 1, bin uLevel uZoneIndex Nodes pRandomLookup, pNode =>
    match Nodes.find? fun q => GetID q = GetID pNode with
    | some pCurNode => some (false, pCurNode, bin uLevel uZoneIndex Nodes pRandomLookup)
    | none =>
      if (Nodes ++ [pNode]).length > Cfg.BucketSize then
        ((Nodes ++ [pNode]).foldlM (fun pRoutingZone q =>
          (addNode fuel pRoutingZone q).map fun result => result.2.2)
            (newFork uLevel uZoneIndex)).map fun pRoutingZone =>
              (true, pNode, match pRandomLookup with
                | some ID => setLookup rootID ID pRoutingZone
                | none => pRoutingZone)
      else some (true, pNode, bin uLevel uZoneIndex (Nodes ++ [pNode]) pRandomLookup)

def removeNode (ID : CUInt128) : CRoutingZone ν → Bool × CRoutingZone ν
  | bin uLevel uZoneIndex Nodes pRandomLookup =>
    if Nodes.any fun q => GetID q = ID then
      (true, bin uLevel uZoneIndex (Nodes.eraseP fun q => GetID q = ID) pRandomLookup)
    else (false, bin uLevel uZoneIndex Nodes pRandomLookup)
  | fork uLevel uZoneIndex Left Right =>
    if getBit rootID uLevel ID then
      ((removeNode ID Left).1, fork uLevel uZoneIndex (removeNode ID Left).2 Right)
    else ((removeNode ID Right).1, fork uLevel uZoneIndex Left (removeNode ID Right).2)

/-- `CRoutingZone::IsDistantZone`. -/
def isDistantZone (uLevel : ℕ) (uZoneIndex : CUInt128) : Bool :=
  uZoneIndex ≥ Cfg.ZoneLimit && decide ((uLevel : ℤ) ≥ Cfg.LevelLimit)

/-- The loop of `CRoutingBin::Consolidate`: the nodes that stay, and the erased ones. -/
def purge (bPurge : ν → Bool) : ℕ → List ν → List ν × List ν
  | _, [] => ([], [])
  | MaxPurge, q :: Nodes =>
    if MaxPurge > 1 then
      if bPurge q then
        ((purge bPurge (MaxPurge - 1) Nodes).1, q :: (purge bPurge (MaxPurge - 1) Nodes).2)
      else (q :: (purge bPurge MaxPurge Nodes).1, (purge bPurge MaxPurge Nodes).2)
    else (q :: Nodes, [])

/-- What `Consolidate` did to a zone. -/
structure SConsolidated (ν : Type*) where
  /-- The count that it returns. -/
  uCount : ℕ
  /-- The nodes that it erased. -/
  erased : List ν
  /-- The zone that is in the tree now. -/
  zone : CRoutingZone ν

/-- `Consolidate`, for a zone that has a super zone or not. What nodes report at this
time is given by functions. -/
def consolidate (fuel : ℕ) (bCleanUp : Bool) (IsFading IsNeeded : ν → Bool) :
    Bool → CRoutingZone ν → Option (SConsolidated ν)
  | _, bin uLevel uZoneIndex Nodes pRandomLookup =>
    let result := purge (fun q => IsFading q ||
      (isDistantZone Cfg uLevel uZoneIndex && (bCleanUp || !IsNeeded q))) ((Nodes.length + 1) / 2) Nodes
    some ⟨result.1.length, result.2, bin uLevel uZoneIndex result.1 pRandomLookup⟩
  | bSuperZone, fork uLevel uZoneIndex Left Right =>
    (consolidate fuel bCleanUp IsFading IsNeeded true Left).bind fun left =>
      (consolidate fuel bCleanUp IsFading IsNeeded true Right).bind fun right =>
        let uCount := left.uCount + right.uCount
        let unchanged := SConsolidated.mk uCount (left.erased ++ right.erased)
          (fork uLevel uZoneIndex left.zone right.zone)
        if bSuperZone = false ∨ uCount ≥ Cfg.BucketSize then some unchanged
        else
          match left.zone, right.zone with
          | bin _ _ LeftNodes LeftLookup, bin _ _ RightNodes RightLookup =>
            if LeftLookup.isSome || RightLookup.isSome then some unchanged
            else
              ((LeftNodes ++ RightNodes).foldlM (fun pRoutingBin q =>
                (addNode GetID Cfg rootID fuel pRoutingBin q).map fun result => result.2.2)
                  (bin uLevel uZoneIndex [] none)).map fun pRoutingBin =>
                    ⟨uCount, left.erased ++ right.erased, pRoutingBin⟩
          | _, _ => some unchanged

/-- `Checkout`. In each bin it moves the first node that could be checked out to the
end, and starts, stops or leaves the lookup. -/
def checkout (CheckoutNode : ν → Bool) (lookup : ℕ → CUInt128 → Option CUInt128 → Option CUInt128) :
    CRoutingZone ν → CRoutingZone ν
  | bin uLevel uZoneIndex Nodes pRandomLookup =>
    bin uLevel uZoneIndex
      (match Nodes.find? CheckoutNode with
        | some pNode => Nodes.eraseP CheckoutNode ++ [pNode]
        | none => Nodes) (lookup uLevel uZoneIndex pRandomLookup)
  | fork uLevel uZoneIndex Left Right =>
    fork uLevel uZoneIndex (checkout CheckoutNode lookup Left) (checkout CheckoutNode lookup Right)

end Operations

section Views

variable {ν : Type*}

/-- All nodes of a zone. -/
def nodes : CRoutingZone ν → List ν
  | bin _ _ Nodes _ => Nodes
  | fork _ _ Left Right => nodes Left ++ nodes Right

/-- All bins of a zone, with their levels, zone indexes and nodes. -/
def bins : CRoutingZone ν → List (ℕ × CUInt128 × List ν)
  | bin uLevel uZoneIndex Nodes _ => [(uLevel, uZoneIndex, Nodes)]
  | fork _ _ Left Right => bins Left ++ bins Right

/-- A zone of a level and an index, all nodes of which are at their places. -/
inductive ZoneOk (GetID : ν → CUInt128) (BucketSize : ℕ) (rootID : CUInt128) :
    ℕ → CUInt128 → CRoutingZone ν → Prop where
  /-- The nodes of a bin have different IDs, are not too many, and have the distances
  of the zone. -/
  | bin {uLevel : ℕ} {uZoneIndex : CUInt128} {Nodes : List ν} (pRandomLookup : Option CUInt128) :
    (Nodes.map GetID).Nodup → Nodes.length ≤ BucketSize →
    (∀ q ∈ Nodes, topBits uLevel (GetID q ^^^ rootID) = uZoneIndex) →
    ZoneOk GetID BucketSize rootID uLevel uZoneIndex (bin uLevel uZoneIndex Nodes pRandomLookup)
  /-- A fork has the zones of the next bit. -/
  | fork {uLevel : ℕ} {uZoneIndex : CUInt128} {Left Right : CRoutingZone ν} : uLevel < 128 →
    uZoneIndex.toNat < 2 ^ uLevel →
    ZoneOk GetID BucketSize rootID (uLevel + 1) (uZoneIndex <<< 1 + 1) Left →
    ZoneOk GetID BucketSize rootID (uLevel + 1) (uZoneIndex <<< 1) Right →
    ZoneOk GetID BucketSize rootID uLevel uZoneIndex (fork uLevel uZoneIndex Left Right)

variable {GetID : ν → CUInt128} {BucketSize : ℕ} {rootID : CUInt128} {uLevel : ℕ}

/-- The index of a zone with the next bit. -/
theorem topBits_succ_eq (hL : uLevel < 128) {uZoneIndex x : CUInt128} (hz : uZoneIndex.toNat < 2 ^ uLevel) (b : Bool) :
    topBits (uLevel + 1) x = uZoneIndex <<< 1 + BitVec.ofNat 128 b.toNat ↔
      topBits uLevel x = uZoneIndex ∧ x.getMsbD uLevel = b := by
  constructor
  · intro h
    have hnat := congrArg BitVec.toNat h
    have hbit : b.toNat < 2 := Bool.toNat_lt b
    have hpow : 2 ^ uLevel ≤ 2 ^ 127 := Nat.pow_le_pow_right (by omega) (by omega)
    rw [toNat_topBits_succ hL, BitVec.toNat_add, BitVec.toNat_shiftLeft, BitVec.toNat_ofNat,
      Nat.shiftLeft_eq, pow_one] at hnat
    have hbit' : (x.getMsbD uLevel).toNat < 2 := Bool.toNat_lt _
    refine ⟨BitVec.eq_of_toNat_eq (by omega), ?_⟩
    have hsame : (x.getMsbD uLevel).toNat = b.toNat := by omega
    cases hx : x.getMsbD uLevel <;> cases b <;> simp_all
  · rintro ⟨rfl, rfl⟩
    exact topBits_succ hL x

variable {uZoneIndex : CUInt128} {zone : CRoutingZone ν}

/-- The left zone of a fork has the nodes with the next bit set, the right zone those
without. -/
theorem ZoneOk.children (h : ZoneOk GetID BucketSize rootID uLevel uZoneIndex zone) :
    ∀ q ∈ nodes zone, topBits uLevel (GetID q ^^^ rootID) = uZoneIndex := by
  induction h with
  | bin _ _ _ hplace => exact hplace
  | fork hL hz _ _ ihl ihr =>
    intro q hq
    rcases List.mem_append.mp hq with hq | hq
    · exact ((topBits_succ_eq hL hz true).mp (ihl q hq)).1
    · exact ((topBits_succ_eq hL hz false).mp ((ihr q hq).trans (add_zero _).symm)).1

theorem getBit_left (hL : uLevel < 128) (hz : uZoneIndex.toNat < 2 ^ uLevel) {Left : CRoutingZone ν}
    (h : ZoneOk GetID BucketSize rootID (uLevel + 1) (uZoneIndex <<< 1 + 1) Left) :
    ∀ q ∈ nodes Left, getBit rootID uLevel (GetID q) = true := fun q hq =>
  ((topBits_succ_eq hL hz true).mp (h.children q hq)).2

theorem getBit_right (hL : uLevel < 128) (hz : uZoneIndex.toNat < 2 ^ uLevel) {Right : CRoutingZone ν}
    (h : ZoneOk GetID BucketSize rootID (uLevel + 1) (uZoneIndex <<< 1) Right) :
    ∀ q ∈ nodes Right, getBit rootID uLevel (GetID q) = false := fun q hq =>
  ((topBits_succ_eq hL hz false).mp ((h.children q hq).trans (add_zero _).symm)).2

theorem topBits_child (hL : uLevel < 128) {uZoneIndex ID : CUInt128}
    (hz : uZoneIndex.toNat < 2 ^ uLevel) (hplace : topBits uLevel (ID ^^^ rootID) = uZoneIndex)
    {b : Bool} (hb : getBit rootID uLevel ID = b) :
    topBits (uLevel + 1) (ID ^^^ rootID) = uZoneIndex <<< 1 + BitVec.ofNat 128 b.toNat :=
  (topBits_succ_eq hL hz b).mpr ⟨hplace, hb⟩

/-- No ID is twice in a zone. -/
theorem ZoneOk.nodup (h : ZoneOk GetID BucketSize rootID uLevel uZoneIndex zone) : ((nodes zone).map GetID).Nodup := by
  induction h with
  | bin _ hnodup => exact hnodup
  | fork hL hz hl hr ihl ihr =>
    rw [nodes, List.map_append, List.nodup_append]
    refine ⟨ihl, ihr, fun a ha b hb hab => ?_⟩
    obtain ⟨q, hq, rfl⟩ := List.mem_map.mp ha
    obtain ⟨q', hq', rfl⟩ := List.mem_map.mp hb
    have hleft := getBit_left hL hz hl q hq
    rw [hab, getBit_right hL hz hr q' hq'] at hleft
    cases hleft

/-- All bins of a zone are zones. -/
theorem ZoneOk.bins (h : ZoneOk GetID BucketSize rootID uLevel uZoneIndex zone) :
    ∀ b ∈ bins zone, b.2.2.length ≤ BucketSize ∧ ∀ q ∈ b.2.2, topBits b.1 (GetID q ^^^ rootID) = b.2.1 := by
  induction h with
  | bin _ _ hsize hplace =>
    intro b hb
    rw [List.mem_singleton.mp hb]
    exact ⟨hsize, hplace⟩
  | fork _ _ _ _ ihl ihr =>
    intro b hb
    rcases List.mem_append.mp hb with hb | hb
    exacts [ihl b hb, ihr b hb]

theorem getNode_eq_some {ID : CUInt128} {q : ν}
    (h : getNode GetID rootID ID zone = some q) : q ∈ nodes zone ∧ GetID q = ID := by
  induction zone with
  | bin uLevel uZoneIndex Nodes pRandomLookup =>
    exact ⟨List.mem_of_find?_eq_some h, by simpa using List.find?_some h⟩
  | fork uLevel uZoneIndex Left Right ihl ihr =>
    rw [getNode] at h
    split_ifs at h
    · exact ⟨List.mem_append_left _ (ihl h).1, (ihl h).2⟩
    · exact ⟨List.mem_append_right _ (ihr h).1, (ihr h).2⟩

theorem ZoneOk.getNode_isSome
    (h : ZoneOk GetID BucketSize rootID uLevel uZoneIndex zone) {q : ν} (hq : q ∈ nodes zone) :
    (getNode GetID rootID (GetID q) zone).isSome := by
  induction h with
  | bin _ _ _ _ =>
    rw [getNode, List.find?_isSome]
    exact ⟨q, hq, by simp⟩
  | fork hL hz hl hr ihl ihr =>
    rw [getNode]
    rcases List.mem_append.mp hq with hq | hq
    · rw [if_pos (getBit_left hL hz hl q hq)]
      exact ihl hq
    · rw [if_neg (by simp [getBit_right hL hz hr q hq])]
      exact ihr hq

end Views

section Adding

variable {ν : Type*} {GetID : ν → CUInt128} {Cfg : CKadConfig} {rootID : CUInt128}

/-- What `AddNode` did to a zone. -/
structure AddOk (GetID : ν → CUInt128) (BucketSize : ℕ) (rootID : CUInt128) (uLevel : ℕ)
    (uZoneIndex : CUInt128) (zone : CRoutingZone ν) (pNode : ν)
    (result : Bool × ν × CRoutingZone ν) : Prop where
  /-- The zone is in order. -/
  ok : ZoneOk GetID BucketSize rootID uLevel uZoneIndex result.2.2
  /-- A new node is in the zone. -/
  added : result.1 = true → result.2.1 = pNode ∧ (∀ q ∈ nodes zone, GetID q ≠ GetID pNode) ∧
    (nodes result.2.2).Perm (pNode :: nodes zone)
  /-- For a node that was known nothing changes. -/
  known : result.1 = false → result.2.1 ∈ nodes zone ∧ GetID result.2.1 = GetID pNode ∧ result.2.2 = zone

@[simp] theorem nodes_setLookup (ID : CUInt128) (zone : CRoutingZone ν) :
    nodes (setLookup rootID ID zone) = nodes zone := by
  induction zone with
  | bin => rfl
  | fork uLevel uZoneIndex Left Right ihl ihr =>
    rw [setLookup]
    split_ifs <;> simp [nodes, ihl, ihr]

variable {uZoneIndex : CUInt128}

theorem ZoneOk.setLookup {BucketSize uLevel : ℕ} {zone : CRoutingZone ν}
    (h : ZoneOk GetID BucketSize rootID uLevel uZoneIndex zone) (ID : CUInt128) :
    ZoneOk GetID BucketSize rootID uLevel uZoneIndex (setLookup rootID ID zone) := by
  induction h with
  | bin _ hnodup hsize hplace => exact ZoneOk.bin _ hnodup hsize hplace
  | fork hL hz hl hr ihl ihr =>
    rw [RoutingZone.setLookup]
    split_ifs
    exacts [ZoneOk.fork hL hz ihl hr, ZoneOk.fork hL hz hl ihr]

theorem zoneOk_newFork (GetID : ν → CUInt128) (BucketSize : ℕ) (rootID : CUInt128) {uLevel : ℕ}
    (hL : uLevel < 128) (hz : uZoneIndex.toNat < 2 ^ uLevel) :
    ZoneOk GetID BucketSize rootID uLevel uZoneIndex (newFork uLevel uZoneIndex) :=
  ZoneOk.fork hL hz (ZoneOk.bin none List.nodup_nil (Nat.zero_le _) (by simp))
    (ZoneOk.bin none List.nodup_nil (Nat.zero_le _) (by simp))

variable {Nodes : List ν}

/-- Adding several new nodes to a zone. -/
theorem foldlM_addNode {BucketSize uLevel : ℕ} {fuel : ℕ}
    (hadd : ∀ (zone : CRoutingZone ν) (pNode : ν) result, ZoneOk GetID BucketSize rootID uLevel uZoneIndex zone →
      topBits uLevel (GetID pNode ^^^ rootID) = uZoneIndex →
      addNode GetID Cfg rootID fuel zone pNode = some result →
      AddOk GetID BucketSize rootID uLevel uZoneIndex zone pNode result) {zone zone' : CRoutingZone ν}
    (h : ZoneOk GetID BucketSize rootID uLevel uZoneIndex zone)
    (hplace : ∀ q ∈ Nodes, topBits uLevel (GetID q ^^^ rootID) = uZoneIndex)
    (hnodup : ((Nodes ++ nodes zone).map GetID).Nodup) (hrun : Nodes.foldlM (fun pRoutingZone q =>
      (addNode GetID Cfg rootID fuel pRoutingZone q).map fun result => result.2.2) zone = some zone') :
    ZoneOk GetID BucketSize rootID uLevel uZoneIndex zone' ∧ (nodes zone').Perm (Nodes ++ nodes zone) := by
  induction Nodes generalizing zone with
  | nil =>
    obtain rfl := Option.some.inj hrun
    exact ⟨h, List.Perm.refl _⟩
  | cons q Nodes ih =>
    rw [List.foldlM_cons] at hrun
    obtain ⟨zone₁, hfirst, hrest⟩ := Option.bind_eq_some_iff.mp hrun
    obtain ⟨result, hq, rfl⟩ := Option.map_eq_some_iff.mp hfirst
    have hok := hadd zone q result h (hplace q List.mem_cons_self) hq
    have hnew : result.1 = true := by
      by_contra hold
      obtain ⟨hm, hsame, -⟩ := hok.known (Bool.eq_false_of_not_eq_true hold)
      rw [List.cons_append, List.map_cons, List.nodup_cons] at hnodup
      exact hnodup.1 (hsame ▸ List.mem_map_of_mem (List.mem_append_right _ hm))
    obtain ⟨-, -, hperm⟩ := hok.added hnew
    have hmove : (Nodes ++ nodes result.2.2).Perm (q :: Nodes ++ nodes zone) :=
      (hperm.append_left Nodes).trans List.perm_middle
    obtain ⟨hzone, hall⟩ := ih hok.ok (fun p hp => hplace p (List.mem_cons_of_mem _ hp))
      ((hmove.map GetID).nodup_iff.mpr hnodup) hrest
    exact ⟨hzone, hall.trans hmove⟩

/-- With room for no node no new node can be added. -/
theorem addNode_no_room (GetID : ν → CUInt128) (rootID : CUInt128)
    (hroom : Cfg.BucketSize = 0) (fuel : ℕ) {zone : CRoutingZone ν}
    (hempty : nodes zone = []) (pNode : ν) : addNode GetID Cfg rootID fuel zone pNode = none := by
  induction fuel generalizing zone with
  | zero => rfl
  | succ fuel ih =>
    cases zone with
    | bin uLevel uZoneIndex Nodes pRandomLookup =>
      have hNodes : Nodes = [] := hempty
      subst hNodes
      have hfork := ih (show nodes (newFork uLevel uZoneIndex : CRoutingZone ν) = [] from rfl)
      rw [addNode]
      simp [hroom, hfork]
    | fork uLevel uZoneIndex Left Right =>
      obtain ⟨hl, hr⟩ := List.append_eq_nil_iff.mp hempty
      rw [addNode, ih hl, ih hr]
      simp

/-- Nodes with different IDs can be told apart by the bits after those of their zone. -/
theorem uLevel_lt {uLevel : ℕ} (htwo : 2 ≤ Nodes.length) (hnodup : (Nodes.map GetID).Nodup)
    (hplace : ∀ q ∈ Nodes, topBits uLevel (GetID q ^^^ rootID) = uZoneIndex) : uLevel < 128 := by
  by_contra hL
  match Nodes, htwo, hnodup, hplace with
  | q :: q' :: _, _, hnodup, hplace =>
    have hq := hplace q (by simp)
    have hq' := hplace q' (by simp)
    rw [topBits_all (not_lt.mp hL)] at hq hq'
    have hsame : GetID q = GetID q' := by
      rw [← BitVec.xor_left_inj rootID, hq, hq']
    simp [hsame] at hnodup

/-- A bin is split only if its nodes can be told apart. -/
theorem split_level {uLevel fuel : ℕ} {zone' : CRoutingZone ν} (hfull : Nodes.length > Cfg.BucketSize)
    (hnodup : (Nodes.map GetID).Nodup) (hplace : ∀ q ∈ Nodes, topBits uLevel (GetID q ^^^ rootID) = uZoneIndex)
    (hrun : Nodes.foldlM (fun pRoutingZone q =>
      (addNode GetID Cfg rootID fuel pRoutingZone q).map fun result => result.2.2)
        (newFork uLevel uZoneIndex) = some zone') : uLevel < 128 := by
  by_cases htwo : 2 ≤ Nodes.length
  · exact uLevel_lt htwo hnodup hplace
  · obtain ⟨q, rfl⟩ := List.length_eq_one_iff.mp (show Nodes.length = 1 by omega)
    have hroom : Cfg.BucketSize = 0 := by simpa using hfull
    have hfork := addNode_no_room GetID rootID hroom fuel
      (show nodes (newFork uLevel uZoneIndex : CRoutingZone ν) = [] from rfl) q
    simp [hfork] at hrun

/-- A new node at the end of a bin. -/
theorem snoc_ok {uLevel : ℕ} {pNode : ν} (hnodup : (Nodes.map GetID).Nodup)
    (hplaces : ∀ q ∈ Nodes, topBits uLevel (GetID q ^^^ rootID) = uZoneIndex) (hne : ∀ q ∈ Nodes, GetID q ≠ GetID pNode)
    (hplace : topBits uLevel (GetID pNode ^^^ rootID) = uZoneIndex) : ((Nodes ++ [pNode]).map GetID).Nodup ∧
      ∀ q ∈ Nodes ++ [pNode], topBits uLevel (GetID q ^^^ rootID) = uZoneIndex := by
  refine ⟨?_, fun q hq => ?_⟩
  · rw [List.map_append, List.nodup_append]
    refine ⟨hnodup, List.nodup_singleton _, fun a ha b hb => ?_⟩
    obtain ⟨q, hq, rfl⟩ := List.mem_map.mp ha
    rw [List.mem_singleton.mp hb]
    exact hne q hq
  · rcases List.mem_append.mp hq with hq | hq
    · exact hplaces q hq
    · rw [List.mem_singleton.mp hq]
      exact hplace

/-- `AddNode` keeps a zone in order. -/
theorem addNode_ok {uLevel : ℕ} {zone : CRoutingZone ν} {fuel : ℕ} {pNode : ν} {result : Bool × ν × CRoutingZone ν}
    (h : ZoneOk GetID Cfg.BucketSize rootID uLevel uZoneIndex zone)
    (hplace : topBits uLevel (GetID pNode ^^^ rootID) = uZoneIndex)
    (hrun : addNode GetID Cfg rootID fuel zone pNode = some result) :
    AddOk GetID Cfg.BucketSize rootID uLevel uZoneIndex zone pNode result := by
  induction fuel generalizing uLevel uZoneIndex zone pNode result with
  | zero => cases hrun
  | succ fuel ih =>
    cases h with
    | fork hL hz hl hr =>
      rw [addNode] at hrun
      split_ifs at hrun with hbit
      · obtain ⟨child, hchild, rfl⟩ := Option.map_eq_some_iff.mp hrun
        have hok := ih hl (topBits_child hL hz hplace hbit) hchild
        refine ⟨ZoneOk.fork hL hz hok.ok hr, fun hnew => ?_, fun hold => ?_⟩
        · obtain ⟨hp, hne, hperm⟩ := hok.added hnew
          refine ⟨hp, fun q hq => ?_, hperm.append_right _⟩
          rcases List.mem_append.mp hq with hq | hq
          · exact hne q hq
          · intro hsame
            rw [← hsame, getBit_right hL hz hr q hq] at hbit
            cases hbit
        · obtain ⟨hm, hsame, heq⟩ := hok.known hold
          exact ⟨List.mem_append_left _ hm, hsame, by rw [heq]⟩
      · have hbit := Bool.eq_false_of_not_eq_true hbit
        obtain ⟨child, hchild, rfl⟩ := Option.map_eq_some_iff.mp hrun
        have hok := ih hr ((topBits_child hL hz hplace hbit).trans (add_zero _)) hchild
        refine ⟨ZoneOk.fork hL hz hl hok.ok, fun hnew => ?_, fun hold => ?_⟩
        · obtain ⟨hp, hne, hperm⟩ := hok.added hnew
          refine ⟨hp, fun q hq => ?_, (hperm.append_left _).trans List.perm_middle⟩
          rcases List.mem_append.mp hq with hq | hq
          · intro hsame
            rw [← hsame, getBit_left hL hz hl q hq] at hbit
            cases hbit
          · exact hne q hq
        · obtain ⟨hm, hsame, heq⟩ := hok.known hold
          exact ⟨List.mem_append_right _ hm, hsame, by rw [heq]⟩
    | @bin _ _ Nodes pRandomLookup hnodup hsize hplaces =>
      rw [addNode] at hrun
      cases hfind : Nodes.find? fun q => GetID q = GetID pNode with
      | some pCurNode =>
        rw [hfind] at hrun
        obtain rfl := Option.some.inj hrun
        refine ⟨ZoneOk.bin _ hnodup hsize hplaces, (fun hnew => by cases hnew), fun _ => ?_⟩
        exact ⟨List.mem_of_find?_eq_some hfind, by simpa using List.find?_some hfind, rfl⟩
      | none =>
        rw [hfind] at hrun
        have hne : ∀ q ∈ Nodes, GetID q ≠ GetID pNode := by simpa using hfind
        obtain ⟨hnodup', hplaces'⟩ := snoc_ok hnodup hplaces hne hplace
        have hmove : (Nodes ++ [pNode]).Perm (pNode :: Nodes) := List.perm_append_comm
        dsimp only at hrun
        split_ifs at hrun with hfull
        · obtain ⟨zone', hfold, rfl⟩ := Option.map_eq_some_iff.mp hrun
          have hL : uLevel < 128 := split_level hfull hnodup' hplaces' hfold
          have hz : uZoneIndex.toNat < 2 ^ uLevel := by
            rw [← hplace]
            exact toNat_topBits_lt hL.le _
          obtain ⟨hok, hperm⟩ := foldlM_addNode (fun _ _ _ hzone hp hadd => ih hzone hp hadd)
            (zoneOk_newFork GetID Cfg.BucketSize rootID hL hz) hplaces'
            (by simpa [newFork, nodes] using hnodup') hfold
          have hperm' : (nodes zone').Perm (pNode :: Nodes) := by
            simpa [newFork, nodes] using hperm.trans (hmove.append_right _)
          cases pRandomLookup with
          | none => exact ⟨hok, fun _ => ⟨rfl, hne, hperm'⟩, (fun hold => by cases hold)⟩
          | some ID =>
            refine ⟨hok.setLookup ID, fun _ => ⟨rfl, hne, ?_⟩, (fun hold => by cases hold)⟩
            rw [nodes_setLookup]
            exact hperm'
        · obtain rfl := Option.some.inj hrun
          exact ⟨ZoneOk.bin _ hnodup' (not_lt.mp hfull) hplaces',
            fun _ => ⟨rfl, hne, hmove⟩, (fun hold => by cases hold)⟩

end Adding

section Removing

variable {ν : Type*} {GetID : ν → CUInt128} {Cfg : CKadConfig} {rootID : CUInt128} {uZoneIndex : CUInt128}

/-- Taking nodes out of a bin or changing their order keeps it in order. -/
theorem zoneOk_bin {BucketSize uLevel : ℕ} {Nodes Nodes' : List ν}
    (rest : List ν) (hperm : Nodes.Perm (rest ++ Nodes')) (hnodup : (Nodes.map GetID).Nodup)
    (hsize : Nodes.length ≤ BucketSize) (hplace : ∀ q ∈ Nodes, topBits uLevel (GetID q ^^^ rootID) = uZoneIndex)
    (pRandomLookup : Option CUInt128) :
    ZoneOk GetID BucketSize rootID uLevel uZoneIndex (bin uLevel uZoneIndex Nodes' pRandomLookup) := by
  have hlen := hperm.length_eq
  rw [List.length_append] at hlen
  have hnodup' := (hperm.map GetID).nodup_iff.mp hnodup
  rw [List.map_append, List.nodup_append] at hnodup'
  exact ZoneOk.bin _ hnodup'.2.1 (by omega) fun q hq => hplace q (hperm.mem_iff.mpr (List.mem_append_right _ hq))

/-- `RemoveNode` takes the node with this ID out of a zone, if there is one. -/
theorem removeNode_ok {BucketSize uLevel : ℕ} {zone : CRoutingZone ν}
    (h : ZoneOk GetID BucketSize rootID uLevel uZoneIndex zone) (ID : CUInt128) :
    ZoneOk GetID BucketSize rootID uLevel uZoneIndex (removeNode GetID rootID ID zone).2 ∧
      ((removeNode GetID rootID ID zone).1 = true →
        ∃ q, GetID q = ID ∧ (nodes zone).Perm (q :: nodes (removeNode GetID rootID ID zone).2)) ∧
      ((removeNode GetID rootID ID zone).1 = false →
        (removeNode GetID rootID ID zone).2 = zone ∧ ∀ q ∈ nodes zone, GetID q ≠ ID) := by
  induction h with
  | @bin uLevel uZoneIndex Nodes pRandomLookup hnodup hsize hplace =>
    rw [removeNode]
    split_ifs with hany
    · obtain ⟨q, hm, hq⟩ := List.any_eq_true.mp hany
      obtain ⟨a, before, after, -, ha, hsplit, herase⟩ := List.exists_of_eraseP (p := fun q => decide (GetID q = ID)) hm hq
      have hperm : Nodes.Perm (a :: Nodes.eraseP fun q => GetID q = ID) := by
        rw [herase, hsplit]
        exact List.perm_middle
      exact ⟨zoneOk_bin [a] hperm hnodup hsize hplace _,
        fun _ => ⟨a, by simpa using ha, hperm⟩, (fun hf => by cases hf)⟩
    · exact ⟨ZoneOk.bin _ hnodup hsize hplace, (fun ht => by cases ht), fun _ => ⟨rfl, by simpa [nodes] using hany⟩⟩
  | @fork uLevel uZoneIndex Left Right hL hz hl hr ihl ihr =>
    rw [removeNode]
    split_ifs with hbit
    · obtain ⟨hok, hfound, hmissed⟩ := ihl
      refine ⟨ZoneOk.fork hL hz hok hr, fun ht => ?_, fun hf => ?_⟩
      · obtain ⟨q, hq, hperm⟩ := hfound ht
        exact ⟨q, hq, hperm.append_right _⟩
      · obtain ⟨hsame, hne⟩ := hmissed hf
        refine ⟨by rw [hsame], fun q hq => ?_⟩
        rcases List.mem_append.mp hq with hq | hq
        · exact hne q hq
        · intro hID
          rw [← hID, getBit_right hL hz hr q hq] at hbit
          cases hbit
    · obtain ⟨hok, hfound, hmissed⟩ := ihr
      refine ⟨ZoneOk.fork hL hz hl hok, fun ht => ?_, fun hf => ?_⟩
      · obtain ⟨q, hq, hperm⟩ := hfound ht
        exact ⟨q, hq, (hperm.append_left _).trans List.perm_middle⟩
      · obtain ⟨hsame, hne⟩ := hmissed hf
        refine ⟨by rw [hsame], fun q hq => ?_⟩
        rcases List.mem_append.mp hq with hq | hq
        · intro hID
          exact hbit (hID ▸ getBit_left hL hz hl q hq)
        · exact hne q hq

theorem perm_purge (bPurge : ν → Bool) (MaxPurge : ℕ) (Nodes : List ν) :
    Nodes.Perm ((purge bPurge MaxPurge Nodes).2 ++ (purge bPurge MaxPurge Nodes).1) := by
  induction Nodes generalizing MaxPurge with
  | nil => exact List.Perm.refl _
  | cons q Nodes ih =>
    rw [purge]
    split_ifs
    · exact (ih (MaxPurge - 1)).cons q
    · exact ((ih MaxPurge).cons q).trans List.perm_middle.symm
    · exact List.Perm.refl _

/-- `Consolidate` keeps a zone in order, loses no node but the erased ones, and counts
the others. -/
theorem consolidate_ok {uLevel : ℕ} {zone : CRoutingZone ν}
    (h : ZoneOk GetID Cfg.BucketSize rootID uLevel uZoneIndex zone) {fuel : ℕ}
    {bCleanUp bSuperZone : Bool} {IsFading IsNeeded : ν → Bool} {result : SConsolidated ν}
    (hrun : consolidate GetID Cfg rootID fuel bCleanUp IsFading IsNeeded bSuperZone zone = some result) :
    ZoneOk GetID Cfg.BucketSize rootID uLevel uZoneIndex result.zone ∧
      (nodes zone).Perm (result.erased ++ nodes result.zone) ∧
      result.uCount = (nodes result.zone).length := by
  induction h generalizing bSuperZone result with
  | @bin uLevel uZoneIndex Nodes pRandomLookup hnodup hsize hplace =>
    rw [consolidate] at hrun
    obtain rfl := Option.some.inj hrun
    have hperm := perm_purge (fun q => IsFading q ||
      (isDistantZone Cfg uLevel uZoneIndex && (bCleanUp || !IsNeeded q))) ((Nodes.length + 1) / 2) Nodes
    exact ⟨zoneOk_bin _ hperm hnodup hsize hplace _, hperm, rfl⟩
  | @fork uLevel uZoneIndex Left Right hL hz hl hr ihl ihr =>
    rw [consolidate] at hrun
    obtain ⟨left, hleft, hrun⟩ := Option.bind_eq_some_iff.mp hrun
    obtain ⟨right, hright, hrun⟩ := Option.bind_eq_some_iff.mp hrun
    obtain ⟨hokl, hperml, hcountl⟩ := ihl hleft
    obtain ⟨hokr, hpermr, hcountr⟩ := ihr hright
    have hfork := ZoneOk.fork hL hz hokl hokr
    have hperm : (nodes Left ++ nodes Right).Perm
        ((left.erased ++ right.erased) ++ (nodes left.zone ++ nodes right.zone)) := by
      refine (hperml.append hpermr).trans ?_
      rw [List.append_assoc, List.append_assoc]
      refine List.Perm.append_left _ ?_
      rw [← List.append_assoc, ← List.append_assoc]
      exact List.perm_append_comm.append_right _
    have hcount : left.uCount + right.uCount = (nodes left.zone ++ nodes right.zone).length := by
      rw [List.length_append, hcountl, hcountr]
    have hunchanged : ∀ r, some (SConsolidated.mk (left.uCount + right.uCount)
        (left.erased ++ right.erased) (fork uLevel uZoneIndex left.zone right.zone)) = some r →
        ZoneOk GetID Cfg.BucketSize rootID uLevel uZoneIndex r.zone ∧
          (nodes Left ++ nodes Right).Perm (r.erased ++ nodes r.zone) ∧
          r.uCount = (nodes r.zone).length := by
      rintro r hr
      obtain rfl := Option.some.inj hr
      exact ⟨hfork, hperm, hcount⟩
    dsimp only at hrun
    split_ifs at hrun with hstay
    · exact hunchanged result hrun
    · cases hzl : left.zone with
      | fork =>
        rw [hzl] at hrun
        rw [hzl] at hunchanged
        exact hunchanged result hrun
      | bin levelL indexL LeftNodes LeftLookup =>
        cases hzr : right.zone with
        | fork =>
          rw [hzl, hzr] at hrun
          rw [hzl, hzr] at hunchanged
          exact hunchanged result hrun
        | bin levelR indexR RightNodes RightLookup =>
          have hnodup := hfork.nodup
          have hchildren := hfork.children
          simp only [hzl, hzr, nodes] at hrun hunchanged hnodup hchildren hperm hcount
          split_ifs at hrun
          · exact hunchanged result hrun
          · obtain ⟨zone', hfold, rfl⟩ := Option.map_eq_some_iff.mp hrun
            have hempty : ZoneOk GetID Cfg.BucketSize rootID uLevel uZoneIndex
                (bin uLevel uZoneIndex ([] : List ν) none) :=
              ZoneOk.bin none List.nodup_nil (Nat.zero_le _) (by simp)
            obtain ⟨hok, hall⟩ := foldlM_addNode (fun _ _ _ hzone hp hadd => addNode_ok hzone hp hadd) hempty hchildren
              (by rwa [nodes, List.append_nil]) hfold
            rw [nodes, List.append_nil] at hall
            exact ⟨hok, hperm.trans (hall.symm.append_left _), hcount.trans hall.length_eq.symm⟩

/-- `Checkout` keeps a zone in order and loses no node. -/
theorem checkout_ok {BucketSize uLevel : ℕ} {zone : CRoutingZone ν}
    (h : ZoneOk GetID BucketSize rootID uLevel uZoneIndex zone) (CheckoutNode : ν → Bool)
    (lookup : ℕ → CUInt128 → Option CUInt128 → Option CUInt128) :
    ZoneOk GetID BucketSize rootID uLevel uZoneIndex (checkout CheckoutNode lookup zone) ∧
      (nodes zone).Perm (nodes (checkout CheckoutNode lookup zone)) := by
  induction h with
  | @bin uLevel uZoneIndex Nodes pRandomLookup hnodup hsize hplace =>
    have hperm : Nodes.Perm (match Nodes.find? CheckoutNode with
        | some pNode => Nodes.eraseP CheckoutNode ++ [pNode]
        | none => Nodes) := by
      cases hfind : Nodes.find? CheckoutNode with
      | none => exact List.Perm.refl _
      | some pNode =>
        obtain ⟨hp, before, after, hsplit, hbefore⟩ := List.find?_eq_some_iff_append.mp hfind
        have herase : Nodes.eraseP CheckoutNode = before ++ after := by
          rw [hsplit, List.eraseP_append_right _ (by simpa using hbefore)]
          simp [hp]
        rw [herase]
        refine (List.Perm.of_eq hsplit).trans (List.perm_middle.trans ?_)
        exact (List.perm_append_singleton pNode (before ++ after)).symm
    exact ⟨zoneOk_bin [] hperm hnodup hsize hplace _, hperm⟩
  | fork hL hz _ _ ihl ihr => exact ⟨ZoneOk.fork hL hz ihl.1 ihr.1, ihl.2.append ihr.2⟩

end Removing

section Returning

variable {ν : Type*} {GetID : ν → CUInt128} {Cfg : CKadConfig} {rootID : CUInt128}

/-- With room for nodes `AddNode` returns after two calls for each level below. A fork
stays a fork. -/
theorem exists_addNode (hroom : 0 < Cfg.BucketSize) {uLevel : ℕ} (hL : uLevel ≤ 128)
    {uZoneIndex : CUInt128} {zone : CRoutingZone ν}
    (h : ZoneOk GetID Cfg.BucketSize rootID uLevel uZoneIndex zone) {pNode : ν}
    (hplace : topBits uLevel (GetID pNode ^^^ rootID) = uZoneIndex) {fuel : ℕ}
    (hfuel : 2 * (129 - uLevel) ≤ fuel + if zone.isFork then 1 else 0) :
    ∃ result, addNode GetID Cfg rootID fuel zone pNode = some result ∧ (zone.isFork → result.2.2.isFork) := by
  induction fuel generalizing uLevel uZoneIndex zone pNode with
  | zero =>
    split_ifs at hfuel <;> omega
  | succ fuel ih =>
    cases h with
    | fork hL' hz hl hr =>
      have hchild : ∀ b : Bool, 2 * (129 - (uLevel + 1)) ≤ fuel + if b then 1 else 0 := by
        intro b
        rw [CRoutingZone.isFork, if_pos rfl] at hfuel
        omega
      rw [addNode]
      split_ifs with hbit
      · obtain ⟨result, hrun, -⟩ := ih (by omega) hl (topBits_child hL' hz hplace hbit) (hchild _)
        exact ⟨_, by rw [hrun]; rfl, fun _ => rfl⟩
      · obtain ⟨result, hrun, -⟩ := ih (by omega) hr ((topBits_child hL' hz hplace
          (Bool.eq_false_of_not_eq_true hbit)).trans (add_zero _)) (hchild _)
        exact ⟨_, by rw [hrun]; rfl, fun _ => rfl⟩
    | @bin _ _ Nodes pRandomLookup hnodup hsize hplaces =>
      rw [addNode]
      cases hfind : Nodes.find? fun q => GetID q = GetID pNode with
      | some pCurNode => exact ⟨_, rfl, fun hf => by cases hf⟩
      | none =>
        dsimp only
        split_ifs with hfull
        · have hne : ∀ q ∈ Nodes, GetID q ≠ GetID pNode := by simpa using hfind
          obtain ⟨hnodup', hplaces'⟩ := snoc_ok hnodup hplaces hne hplace
          have hL' : uLevel < 128 := uLevel_lt (by omega) hnodup' hplaces'
          have hz : uZoneIndex.toNat < 2 ^ uLevel := by
            rw [← hplace]
            exact toNat_topBits_lt hL _
          have hfold : ∀ (l : List ν) (zone : CRoutingZone ν),
              ZoneOk GetID Cfg.BucketSize rootID uLevel uZoneIndex zone → zone.isFork →
              (∀ q ∈ l, topBits uLevel (GetID q ^^^ rootID) = uZoneIndex) →
              ∃ zone', l.foldlM (fun pRoutingZone q =>
                (addNode GetID Cfg rootID fuel pRoutingZone q).map fun result => result.2.2) zone = some zone' := by
            intro l
            induction l with
            | nil => exact fun zone _ _ _ => ⟨zone, rfl⟩
            | cons q l ihl =>
              intro zone hzone hfork hl
              have hcalls : 2 * (129 - uLevel) ≤ fuel + if zone.isFork then 1 else 0 := by
                rw [CRoutingZone.isFork, if_neg Bool.false_ne_true] at hfuel
                rw [if_pos hfork]
                omega
              obtain ⟨result, hrun, hstays⟩ := ih hL hzone (hl q List.mem_cons_self) hcalls
              obtain ⟨zone', hrest⟩ := ihl result.2.2
                (addNode_ok hzone (hl q List.mem_cons_self) hrun).ok (hstays hfork)
                fun p hp => hl p (List.mem_cons_of_mem _ hp)
              exact ⟨zone', by rw [List.foldlM_cons, hrun]; exact hrest⟩
          obtain ⟨zone', hzone'⟩ := hfold (Nodes ++ [pNode]) (newFork uLevel uZoneIndex)
            (zoneOk_newFork GetID Cfg.BucketSize rootID hL' hz) rfl hplaces'
          exact ⟨_, by rw [hzone']; rfl, fun hf => by cases hf⟩
        · exact ⟨_, rfl, fun hf => by cases hf⟩

/-- Nodes that fit in a bin are put into it one by one. -/
theorem exists_foldlM_bin {fuel uLevel : ℕ} {uZoneIndex : CUInt128} {Nodes before : List ν}
    {pRandomLookup : Option CUInt128} (hnodup : ((before ++ Nodes).map GetID).Nodup)
    (hsize : (before ++ Nodes).length ≤ Cfg.BucketSize) : Nodes.foldlM (fun pRoutingBin q =>
      (addNode GetID Cfg rootID (fuel + 1) pRoutingBin q).map fun result => result.2.2)
        (bin uLevel uZoneIndex before pRandomLookup) =
          some (bin uLevel uZoneIndex (before ++ Nodes) pRandomLookup) := by
  induction Nodes generalizing before with
  | nil => rw [List.append_nil]; rfl
  | cons q Nodes ih =>
    have hsplit : before ++ q :: Nodes = before ++ [q] ++ Nodes := by simp
    rw [hsplit] at hnodup hsize ⊢
    have hfind : (before.find? fun p => GetID p = GetID q) = none := by
      rw [List.map_append, List.map_append, List.nodup_append, List.nodup_append] at hnodup
      rw [List.find?_eq_none]
      intro p hp
      simpa using hnodup.1.2.2 _ (List.mem_map_of_mem hp) _ (by simp)
    have hroom : ¬(before ++ [q]).length > Cfg.BucketSize := by
      rw [List.length_append] at hsize
      omega
    rw [List.foldlM_cons, addNode, hfind]
    dsimp only
    rw [if_neg hroom]
    exact ih hnodup hsize

/-- `Consolidate` returns. -/
theorem exists_consolidate {uLevel : ℕ} {uZoneIndex : CUInt128} {zone : CRoutingZone ν}
    (h : ZoneOk GetID Cfg.BucketSize rootID uLevel uZoneIndex zone) {fuel : ℕ} (hfuel : 0 < fuel)
    (bCleanUp bSuperZone : Bool) (IsFading IsNeeded : ν → Bool) :
    ∃ result, consolidate GetID Cfg rootID fuel bCleanUp IsFading IsNeeded bSuperZone zone =
      some result := by
  obtain ⟨fuel, rfl⟩ : ∃ n, fuel = n + 1 := ⟨fuel - 1, by omega⟩
  induction h generalizing bSuperZone with
  | bin => exact ⟨_, rfl⟩
  | @fork uLevel uZoneIndex Left Right hL hz hl hr ihl ihr =>
    obtain ⟨left, hleft⟩ := ihl true
    obtain ⟨right, hright⟩ := ihr true
    obtain ⟨hokl, -, hcountl⟩ := consolidate_ok hl hleft
    obtain ⟨hokr, -, hcountr⟩ := consolidate_ok hr hright
    have hnodup := (ZoneOk.fork hL hz hokl hokr).nodup
    rw [consolidate, hleft, hright]
    simp only [Option.bind_some]
    split_ifs with hstay
    · exact ⟨_, rfl⟩
    · cases hzl : left.zone with
      | fork => exact ⟨_, rfl⟩
      | bin levelL indexL LeftNodes LeftLookup =>
        cases hzr : right.zone with
        | fork => exact ⟨_, rfl⟩
        | bin levelR indexR RightNodes RightLookup =>
          dsimp only
          split_ifs
          · exact ⟨_, rfl⟩
          · simp only [hzl, hzr, nodes] at hnodup hcountl hcountr
            have hsize : ([] ++ (LeftNodes ++ RightNodes)).length ≤ Cfg.BucketSize := by
              simp only [List.nil_append, List.length_append]
              omega
            rw [exists_foldlM_bin (by rwa [List.nil_append]) hsize]
            exact ⟨_, rfl⟩

end Returning

end NeoLoader.RoutingZone
