import NeoLoader.KeyMap
import NeoLoader.RoutingZone
import Mathlib.Data.List.Perm.Subperm

/-!
# The nodes closest to a target

The search goes down on the side of the target first. All nodes on that side are
closer than those on the other side, so the other side is needed only if there are
not yet enough nodes.
-/

namespace NeoLoader.ClosestNodes

open KeyMap BitPrefix RoutingZone CRoutingZone

section Operations

variable {ν : Type*}

/-- What a node reports about itself. -/
structure SNodeInfo (ν : Type*) where
  GetClass : ν → ℤ
  /-- Whether `GetAddress` of a protocol is valid. -/
  HasAddress : ℕ → ν → Bool
  HasFailed : ν → Bool

/-- A node that `CRoutingBin::GetClosestNodes` does not skip. -/
def isEligible (info : SNodeInfo ν) (eProtocol : ℕ) (iMaxState : ℤ) (q : ν) : Bool :=
  !decide (info.GetClass q > iMaxState) &&
    !(decide (eProtocol ≠ 0) && !info.HasAddress eProtocol q) && !info.HasFailed q

variable (GetID : ν → CUInt128) (rootID uTargetID : CUInt128)

/-- The distance of a node to the target as a number. -/
def distance (q : ν) : ℕ := (uTargetID ^^^ GetID q).toNat

/-- `GetClosestNodes`. The last results are erased while there are more than desired. -/
def getClosestNodes (eligible : ν → Bool) (uDesiredCount : ℕ) : CRoutingZone ν → OrderedMap ℕ ν → OrderedMap ℕ ν
  | bin _ _ Nodes _, results =>
    (Nodes.foldl (fun results q =>
      if eligible q then results.insert (distance GetID uTargetID q) q else results) results).take uDesiredCount
  | fork uLevel _ Left Right, results =>
    if getBit rootID uLevel uTargetID then
      let results := getClosestNodes eligible uDesiredCount Left results
      if results.size < uDesiredCount then getClosestNodes eligible uDesiredCount Right results
      else results
    else
      let results := getClosestNodes eligible uDesiredCount Right results
      if results.size < uDesiredCount then getClosestNodes eligible uDesiredCount Left results
      else results

end Operations

section Search

variable {ν : Type*} {GetID : ν → CUInt128} {BucketSize : ℕ} {rootID uTargetID : CUInt128}

/-- Results that have each seen node, or enough nodes that are closer. -/
structure Closest (GetID : ν → CUInt128) (uTargetID : CUInt128) (k : ℕ) (seen : List ν)
    (results : OrderedMap ℕ ν) : Prop where
  /-- The results are seen nodes at their distances. -/
  entries : ∀ e ∈ results.entries, e.2 ∈ seen ∧ e.1 = distance GetID uTargetID e.2
  /-- A node is there, or enough that are closer. -/
  complete : ∀ q ∈ seen, results.HasKey (distance GetID uTargetID q) ∨ k ≤ results.rank (distance GetID uTargetID q)

/-- Nodes on the side of the target are closer than those on the other side. -/
theorem distance_lt {uLevel : ℕ} (hL : uLevel < 128) {uZoneIndex : CUInt128} {p q : ν}
    (hp : topBits uLevel (GetID p ^^^ rootID) = uZoneIndex) (hq : topBits uLevel (GetID q ^^^ rootID) = uZoneIndex)
    (hnear : getBit rootID uLevel (GetID p) = getBit rootID uLevel uTargetID)
    (hfar : getBit rootID uLevel (GetID q) = !getBit rootID uLevel uTargetID) :
    distance GetID uTargetID p < distance GetID uTargetID q := by
  have hxor : ∀ ID, uTargetID ^^^ ID = (ID ^^^ rootID) ^^^ (uTargetID ^^^ rootID) := fun ID => by
    rw [BitVec.xor_comm uTargetID rootID, ← BitVec.xor_assoc, BitVec.xor_assoc ID,
      BitVec.xor_self, BitVec.xor_zero, BitVec.xor_comm]
  unfold distance
  unfold getBit at hnear hfar
  rw [hxor, hxor (GetID q)]
  refine lt_of_topBits_eq hL ?_ ?_ ?_
  · rw [topBits_xor, topBits_xor _ (GetID q ^^^ rootID), hp, hq]
  · rw [BitVec.getMsbD_xor, hnear, Bool.xor_self]
  · rw [BitVec.getMsbD_xor, hfar, Bool.not_xor_self]

section

variable {k : ℕ} {seen : List ν} {results : OrderedMap ℕ ν} (h : Closest GetID uTargetID k seen results)

include h

/-- Putting a node into the results. -/
theorem Closest.insert (q : ν) :
    Closest GetID uTargetID k (q :: seen) (results.insert (distance GetID uTargetID q) q) where
  entries := fun e he => by
    rcases OrderedMap.mem_insert.mp he with rfl | ⟨hm, -⟩
    · exact ⟨List.mem_cons_self, rfl⟩
    · exact ⟨List.mem_cons_of_mem _ (h.entries e hm).1, (h.entries e hm).2⟩
  complete := fun p hp => by
    rw [OrderedMap.hasKey_insert]
    rcases List.mem_cons.mp hp with rfl | hp
    · exact Or.inl (Or.inl rfl)
    · rcases h.complete p hp with hkey | hrank
      · exact Or.inl (Or.inr hkey)
      · exact Or.inr (hrank.trans (OrderedMap.rank_le_rank_insert _ _ _ _))

/-- Erasing the last results while there are more than desired. -/
theorem Closest.take :
    Closest GetID uTargetID k seen (results.take k) where
  entries := fun e he => h.entries e (OrderedMap.mem_take_iff.mp he).1
  complete := fun p hp => by
    rw [OrderedMap.rank_take]
    rcases h.complete p hp with ⟨e, he, hkey⟩ | hrank
    · rw [← hkey]
      by_cases hlt : results.rank e.1 < k
      · exact Or.inl ⟨e, OrderedMap.mem_take_iff.mpr ⟨he, hlt⟩, rfl⟩
      · exact Or.inr (le_min le_rfl (not_lt.mp hlt))
    · exact Or.inr (le_min le_rfl hrank)

end

theorem Closest.congr {k : ℕ} {seen seen' : List ν} {results : OrderedMap ℕ ν}
    (h : Closest GetID uTargetID k seen results) (hsame : ∀ q, q ∈ seen ↔ q ∈ seen') :
    Closest GetID uTargetID k seen' results where
  entries := fun e he => ⟨(hsame _).mp (h.entries e he).1, (h.entries e he).2⟩
  complete := fun q hq => h.complete q ((hsame q).mpr hq)

/-- The loop over the nodes of a bin. -/
theorem Closest.foldl {k : ℕ} {seen : List ν} {results : OrderedMap ℕ ν}
    (h : Closest GetID uTargetID k seen results) (eligible : ν → Bool) (Nodes : List ν) :
    Closest GetID uTargetID k (seen ++ Nodes.filter eligible) (Nodes.foldl (fun results q =>
      if eligible q then results.insert (distance GetID uTargetID q) q else results) results) := by
  induction Nodes generalizing seen results with
  | nil => simpa using h
  | cons q Nodes ih =>
    rw [List.foldl_cons]
    by_cases hq : eligible q = true
    · rw [if_pos hq, List.filter_cons_of_pos hq]
      exact (ih (h.insert q)).congr fun p => by simp; tauto
    · rw [if_neg hq, List.filter_cons_of_neg hq]
      exact ih h

/-- Nodes that are all farther than the results change nothing if there are enough. -/
theorem Closest.skip {k : ℕ} {seen : List ν} (far : List ν) {results : OrderedMap ℕ ν}
    (h : Closest GetID uTargetID k seen results) (hsize : k ≤ results.size)
    (hfar : ∀ p ∈ seen, ∀ q ∈ far, distance GetID uTargetID p < distance GetID uTargetID q) :
    Closest GetID uTargetID k (seen ++ far) results where
  entries := fun e he => ⟨List.mem_append_left _ (h.entries e he).1, (h.entries e he).2⟩
  complete := fun q hq => by
    rcases List.mem_append.mp hq with hq | hq
    · exact h.complete q hq
    · have hall : results.rank (distance GetID uTargetID q) = results.size :=
        List.countP_eq_length.mpr fun e he => by
          obtain ⟨hm, hkey⟩ := h.entries e he
          simpa [hkey] using hfar e.2 hm q hq
      exact Or.inr (hall ▸ hsize)

/-- Searching a zone that is farther than all nodes that were seen. -/
theorem getClosestNodes_closest {uLevel : ℕ} {uZoneIndex : CUInt128} {zone : CRoutingZone ν}
    (hz : ZoneOk GetID BucketSize rootID uLevel uZoneIndex zone) (eligible : ν → Bool) {k : ℕ}
    {seen : List ν} {results : OrderedMap ℕ ν} (h : Closest GetID uTargetID k seen results)
    (hsize : results.size ≤ k) (hfar : ∀ p ∈ seen, ∀ q ∈ nodes zone,
      distance GetID uTargetID p < distance GetID uTargetID q) :
    Closest GetID uTargetID k (seen ++ (nodes zone).filter eligible)
        (getClosestNodes GetID rootID uTargetID eligible k zone results) ∧
      (getClosestNodes GetID rootID uTargetID eligible k zone results).size ≤ k := by
  induction hz generalizing seen results with
  | @bin uLevel uZoneIndex Nodes pRandomLookup =>
    rw [getClosestNodes]
    exact ⟨(h.foldl eligible Nodes).take, by simp⟩
  | @fork uLevel uZoneIndex Left Right hL hz hl hr ihl ihr =>
    have hleft := getBit_left hL hz hl
    have hright := getBit_right hL hz hr
    have hplace := (ZoneOk.fork hL hz hl hr).children
    have hnodes : ∀ b : Bool, ∀ near far : CRoutingZone ν, (∀ q ∈ nodes near, getBit rootID uLevel (GetID q) = b) →
        (∀ q ∈ nodes far, getBit rootID uLevel (GetID q) = !b) → getBit rootID uLevel uTargetID = b →
        (∀ q ∈ nodes near, q ∈ nodes Left ++ nodes Right) →
        (∀ q ∈ nodes far, q ∈ nodes Left ++ nodes Right) →
        ∀ p ∈ seen ++ (nodes near).filter eligible, ∀ q ∈ nodes far,
          distance GetID uTargetID p < distance GetID uTargetID q := by
      intro b near far hnear hfar' hb hn hf p hp q hq
      rcases List.mem_append.mp hp with hp | hp
      · exact hfar p hp q (hf q hq)
      · have hp := List.mem_of_mem_filter hp
        exact distance_lt hL (hplace p (hn p hp)) (hplace q (hf q hq)) (by rw [hnear p hp, hb]) (by rw [hfar' q hq, hb])
    have hinl : ∀ q ∈ nodes Left, q ∈ nodes Left ++ nodes Right :=
      fun q hq => List.mem_append_left _ hq
    have hinr : ∀ q ∈ nodes Right, q ∈ nodes Left ++ nodes Right :=
      fun q hq => List.mem_append_right _ hq
    rw [getClosestNodes]
    dsimp only
    split_ifs with hbit hmore hmore
    · obtain ⟨hnear, hcount⟩ := ihl h hsize fun p hp q hq => hfar p hp q (hinl q hq)
      obtain ⟨hboth, hcount'⟩ := ihr hnear hcount (hnodes true Left Right hleft (by simpa using hright) hbit hinl hinr)
      exact ⟨hboth.congr fun q => by simp [nodes], hcount'⟩
    · obtain ⟨hnear, hcount⟩ := ihl h hsize fun p hp q hq => hfar p hp q (hinl q hq)
      refine ⟨(hnear.skip ((nodes Right).filter eligible) (not_lt.mp hmore) fun p hp q hq =>
        hnodes true Left Right hleft (by simpa using hright) hbit hinl hinr p hp q
          (List.mem_of_mem_filter hq)).congr fun q => by simp [nodes],
        hcount⟩
    · have hbit := Bool.eq_false_of_not_eq_true hbit
      obtain ⟨hnear, hcount⟩ := ihr h hsize fun p hp q hq => hfar p hp q (hinr q hq)
      obtain ⟨hboth, hcount'⟩ := ihl hnear hcount (hnodes false Right Left hright (by simpa using hleft) hbit hinr hinl)
      exact ⟨hboth.congr fun q => by simp [nodes]; tauto, hcount'⟩
    · have hbit := Bool.eq_false_of_not_eq_true hbit
      obtain ⟨hnear, hcount⟩ := ihr h hsize fun p hp q hq => hfar p hp q (hinr q hq)
      refine ⟨(hnear.skip ((nodes Left).filter eligible) (not_lt.mp hmore) fun p hp q hq =>
        hnodes false Right Left hright (by simpa using hleft) hbit hinr hinl p hp q
          (List.mem_of_mem_filter hq)).congr fun q => by simp [nodes]; tauto,
        hcount⟩

theorem eq_of_distance_eq {Nodes : List ν} (hnodup : (Nodes.map GetID).Nodup) {p q : ν}
    (hp : p ∈ Nodes) (hq : q ∈ Nodes) (h : distance GetID uTargetID p = distance GetID uTargetID q) : p = q := by
  refine List.inj_on_of_nodup_map hnodup hp hq ?_
  rwa [distance, distance, BitVec.toNat_inj, BitVec.xor_right_inj] at h

section

variable {k : ℕ} {seen : List ν} {results : OrderedMap ℕ ν} (h : Closest GetID uTargetID k seen results)

include h

theorem Closest.nodup_values : (results.entries.map Prod.snd).Nodup := by
  have hkeys : (results.entries.map Prod.snd).map (distance GetID uTargetID) =
      results.entries.map Prod.fst := by
    rw [List.map_map]
    exact List.map_congr_left fun e he => (h.entries e he).2.symm
  exact List.Nodup.of_map (distance GetID uTargetID) (hkeys ▸ results.nodup_keys)

theorem Closest.subperm : (results.entries.map Prod.snd).Subperm seen := by
  refine h.nodup_values.subperm fun q hq => ?_
  obtain ⟨e, he, rfl⟩ := List.mem_map.mp hq
  exact (h.entries e he).1

theorem Closest.rank_eq (d : ℕ) :
    results.rank d = (results.entries.map Prod.snd).countP fun p => distance GetID uTargetID p < d := by
  rw [List.countP_map]
  exact List.countP_congr fun e he => by simp [(h.entries e he).2]

theorem Closest.mem_values (hnodup : (seen.map GetID).Nodup) {q : ν}
    (hq : q ∈ seen) (hkey : results.HasKey (distance GetID uTargetID q)) : q ∈ results.entries.map Prod.snd := by
  obtain ⟨e, he, hsame⟩ := hkey
  obtain ⟨hm, hd⟩ := h.entries e he
  have heq := eq_of_distance_eq hnodup hm hq (hd.symm.trans hsame)
  exact List.mem_map.mpr ⟨e, he, heq⟩

/-- The results are the seen nodes than which not too many are closer. -/
theorem Closest.mem_iff (hsize : results.size ≤ k) (hnodup : (seen.map GetID).Nodup) {q : ν} :
    q ∈ results.entries.map Prod.snd ↔ q ∈ seen ∧
      (seen.countP fun p => distance GetID uTargetID p < distance GetID uTargetID q) < k := by
  constructor
  · intro hq
    have hseen := h.subperm.subset hq
    refine ⟨hseen, ?_⟩
    have hless : results.rank (distance GetID uTargetID q) < results.size := by
      refine List.countP_lt_length_iff.mpr ?_
      obtain ⟨e, he, rfl⟩ := List.mem_map.mp hq
      exact ⟨e, he, by simp [(h.entries e he).2]⟩
    have hsub : (seen.filter fun p =>
        distance GetID uTargetID p < distance GetID uTargetID q).Subperm
          (results.entries.map Prod.snd |>.filter fun p =>
            distance GetID uTargetID p < distance GetID uTargetID q) := by
      refine ((List.Nodup.of_map GetID hnodup).filter _).subperm fun p hp => ?_
      obtain ⟨hp, hd⟩ := List.mem_filter.mp hp
      refine List.mem_filter.mpr ⟨?_, hd⟩
      rcases h.complete p hp with hkey | hrank
      · exact h.mem_values hnodup hp hkey
      · have hmono : results.rank (distance GetID uTargetID p) ≤ results.rank (distance GetID uTargetID q) :=
          List.countP_mono_left fun e _ he => by
            have hd := of_decide_eq_true hd
            have he := of_decide_eq_true he
            exact decide_eq_true (he.trans hd)
        omega
    have hle := hsub.length_le
    rw [← List.countP_eq_length_filter, ← List.countP_eq_length_filter, ← h.rank_eq] at hle
    omega
  · rintro ⟨hq, hless⟩
    refine h.mem_values hnodup hq ((h.complete q hq).resolve_right fun hrank => ?_)
    rw [h.rank_eq] at hrank
    have hle := h.subperm.countP_le fun p =>
      decide (distance GetID uTargetID p < distance GetID uTargetID q)
    omega

/-- There are as many results as desired, or all seen nodes. -/
theorem Closest.size_eq (hsize : results.size ≤ k)
    (hnodup : (seen.map GetID).Nodup) : results.size = min k seen.length := by
  have hlen := h.subperm.length_le
  rw [List.length_map] at hlen
  refine le_antisymm (le_min hsize hlen) ?_
  by_contra hless
  have hall : seen.Subperm (results.entries.map Prod.snd) := by
    refine (List.Nodup.of_map GetID hnodup).subperm fun q hq => ?_
    refine h.mem_values hnodup hq ((h.complete q hq).resolve_right fun hrank => ?_)
    have hle : results.rank (distance GetID uTargetID q) ≤ results.size := List.countP_le_length
    omega
  have hle := hall.length_le
  rw [List.length_map] at hle
  exact hless ((min_le_right _ _).trans hle)

end

/-- `GetClosestNodes` returns the eligible nodes than which fewer than the desired
number of eligible nodes are closer, each at its distance. -/
theorem getClosestNodes_iff {uLevel : ℕ} {uZoneIndex : CUInt128} {zone : CRoutingZone ν}
    (hz : ZoneOk GetID BucketSize rootID uLevel uZoneIndex zone) (uTargetID : CUInt128)
    (info : SNodeInfo ν) (eProtocol : ℕ) (iMaxState : ℤ) (uDesiredCount : ℕ) :
    let found := (nodes zone).filter (isEligible info eProtocol iMaxState)
    let results := getClosestNodes GetID rootID uTargetID (isEligible info eProtocol iMaxState)
      uDesiredCount zone OrderedMap.empty
    (∀ q, q ∈ results.entries.map Prod.snd ↔ q ∈ found ∧ (found.countP fun p =>
      distance GetID uTargetID p < distance GetID uTargetID q) < uDesiredCount) ∧
    (∀ e ∈ results.entries, e.1 = distance GetID uTargetID e.2) ∧
    results.size = min uDesiredCount found.length := by
  intro found results
  have hempty : Closest GetID uTargetID uDesiredCount [] (OrderedMap.empty : OrderedMap ℕ ν) :=
    ⟨fun e he => (List.not_mem_nil he).elim, fun q hq => (List.not_mem_nil hq).elim⟩
  obtain ⟨h, hsize⟩ := getClosestNodes_closest hz (isEligible info eProtocol iMaxState) hempty
    (Nat.zero_le _) fun p hp => (List.not_mem_nil hp).elim
  have hnodup : (found.map GetID).Nodup :=
    hz.nodup.sublist (List.filter_sublist.map GetID)
  exact ⟨fun q => h.mem_iff hsize hnodup, fun e he => (h.entries e he).2, h.size_eq hsize hnodup⟩

/-- A fork with a node on each side. -/
def twoBins : CRoutingZone CUInt128 :=
  fork 0 0 (bin 1 1 [0x80000000000000000000000000000000#128] none) (bin 1 0 [1#128] none)

theorem zoneOk_twoBins : ZoneOk id 10 0 0 0 twoBins :=
  ZoneOk.fork (by decide) (by decide) (ZoneOk.bin none (by simp) (by simp) (by simp [topBits]))
    (ZoneOk.bin none (by simp) (by simp) (by simp [topBits]))

/-- The node on the side of the target is the closest one. -/
theorem getClosestNodes_iff_twoBins : 0x80000000000000000000000000000000#128 ∈
      ((getClosestNodes id 0 0x80000000000000000000000000000001#128
        (isEligible ⟨fun _ => 0, fun _ _ => true, fun _ => false⟩ 0 4) 1 twoBins
          OrderedMap.empty).entries.map Prod.snd) := by
  refine ((getClosestNodes_iff zoneOk_twoBins _ _ 0 4 1).1 _).mpr ?_
  decide

end Search

end NeoLoader.ClosestNodes
