import NeoLoader.JoinedPartMap
import NeoLoader.RangeMapLoop

/-!
# Setting a range of a joined part map

A range of a joined file is set in the maps of the sub-files under it, joint by joint. A missing
sub-file is left out. What other joined maps have of their own on the same bytes is merged into the
state that a reader sees, so flags can only be cleared that none of them has.
-/

namespace NeoLoader.SharedRanges

open StepFunction Tiling RangeMap PartStates JoinedPartMap

section Model

variable (uState : SPartRange) (eMode : ESet)

/-- `CSharedPartMap::SetRange`. -/
def sharedSetRange (map : CSharedPartMap) (uBegin uEnd : ℕ) : CSharedPartMap :=
  { map with partMap := map.partMap.setRange partMapOps uBegin uEnd uState eMode }

/-- Set a section of a joint, if its sub-file is loaded. -/
def setSection (pLink : SPartMapLink) (uBegin uSectionEnd : ℕ) : SPartMapLink :=
  { pLink with
    pMap := pLink.pMap.map fun map => sharedSetRange uState eMode map
      (uBegin - pLink.uShareBegin) (uSectionEnd - pLink.uShareBegin) }

/-- The loop of `CJoinedPartMap::SetSharedRange`, over the joints from the found one on. -/
def sharedLoop : List (ℕ × SPartMapLink) → ℕ → ℕ → List (ℕ × SPartMapLink)
  | [], _, _ => []
  | joint :: later, uBegin, uEnd =>
    if ¬(joint.2.uShareBegin ≤ uBegin ∧ uBegin < joint.2.uShareEnd) then joint :: later
    else
      let uSectionEnd := min joint.2.uShareEnd uEnd
      (joint.1, setSection uState eMode joint.2 uBegin uSectionEnd) ::
        if uSectionEnd = uEnd then later else sharedLoop later uSectionEnd uEnd

/-- `CJoinedPartMap::SetSharedRange`, for an end that is an offset. -/
def setSharedRange (map : CJoinedPartMap) (uBegin uEnd : ℕ) : CJoinedPartMap :=
  let i := lowerBound map.joints (minusOne - uBegin)
  if i = map.joints.length then map
  else ⟨(sharedLoop uState eMode (map.joints.take (i + 1)).reverse uBegin uEnd).reverse ++ map.joints.drop (i + 1)⟩

/-- A joint after a range was set: the part of the range that lies in it, if there is one. -/
def setPart (uBegin uEnd : ℕ) (pLink : SPartMapLink) : SPartMapLink :=
  if max uBegin pLink.uShareBegin < min pLink.uShareEnd uEnd then
    setSection uState eMode pLink (max uBegin pLink.uShareBegin) (min pLink.uShareEnd uEnd)
  else pLink

end Model

section Joints

variable {N : ℕ} {map : CJoinedPartMap} {uState : SPartRange} {eMode : ESet}

theorem span_setPart (uState : SPartRange) (eMode : ESet) (uBegin uEnd : ℕ) (pLink : SPartMapLink) :
    (setPart uState eMode uBegin uEnd pLink).uShareBegin = pLink.uShareBegin ∧
      (setPart uState eMode uBegin uEnd pLink).uShareEnd = pLink.uShareEnd := by
  unfold setPart
  split_ifs <;> exact ⟨rfl, rfl⟩

variable {pLink : SPartMapLink} {uBegin uEnd : ℕ}

theorem setPart_outside (h : pLink.uShareEnd ≤ uBegin ∨ uEnd ≤ pLink.uShareBegin) :
    setPart uState eMode uBegin uEnd pLink = pLink := by
  unfold setPart
  rw [if_neg (by omega)]

/-- The loop sets the part of the range in every joint. -/
theorem sharedLoop_eq {joints : List (ℕ × SPartMapLink)} {first uBegin uEnd : ℕ}
    (htiles : Tiles first N (joints.map fun joint => joint.2.span)) (hfirst : first ≤ uBegin)
    (hlt : uBegin < uEnd) (hhead : ∀ joint ∈ joints.head?, uBegin < joint.2.uShareEnd) :
    sharedLoop uState eMode joints uBegin uEnd =
      joints.map fun joint => (joint.1, setPart uState eMode uBegin uEnd joint.2) := by
  induction joints generalizing first uBegin with
  | nil => rfl
  | cons joint later ih =>
    obtain ⟨hbegin, hpos, htail⟩ := htiles
    dsimp only [SPartMapLink.span] at hbegin hpos htail
    have hin := hhead joint rfl
    have hpart : setPart uState eMode uBegin uEnd joint.2 =
        setSection uState eMode joint.2 uBegin (min joint.2.uShareEnd uEnd) := by
      unfold setPart
      rw [max_eq_left (by omega), if_pos (by omega)]
    rw [sharedLoop, if_neg (not_not.mpr ⟨by omega, hin⟩), List.map_cons, hpart]
    dsimp only
    congr 1
    split_ifs with hdone
    · -- the range ends in this joint, so it does not reach the later ones
      have hsame : later = later.map fun joint => (joint.1, joint.2) :=
        (List.map_id'' (fun _ => rfl) later).symm
      conv_lhs => rw [hsame]
      refine List.map_congr_left fun other ho => ?_
      have hb := htail.bounds (List.mem_map_of_mem ho)
      dsimp only [SPartMapLink.span] at hb
      rw [setPart_outside (Or.inr (by omega))]
    · have hmin : min joint.2.uShareEnd uEnd = joint.2.uShareEnd := by omega
      rw [hmin, ih htail le_rfl (by omega)]
      · refine List.map_congr_left fun other ho => ?_
        have hb := htail.bounds (List.mem_map_of_mem ho)
        dsimp only [SPartMapLink.span] at hb
        unfold setPart
        rw [max_eq_right hb.1, max_eq_right (by omega)]
      · intro other ho
        have hb := htail.bounds (List.mem_map_of_mem (List.mem_of_mem_head? ho))
        dsimp only [SPartMapLink.span] at hb
        omega

theorem exists_covers (h : JoinedOk N map) {x : ℕ} (hx : x < N) : ∃ joint ∈ map.joints, joint.2.span.Covers x := by
  obtain ⟨early, later, joint, hlist, -, hcovers, -⟩ := h.exists_joint hx
  refine ⟨joint, ?_, hcovers⟩
  rw [hlist]
  exact List.mem_append_right _ List.mem_cons_self

/-- Setting a range of a joined map sets the part of it in every joint. -/
theorem setSharedRange_eq (h : JoinedOk N map) (hlt : uBegin < uEnd)
    (hend : uEnd ≤ N) : setSharedRange uState eMode map uBegin uEnd =
      ⟨map.joints.map fun joint => (joint.1, setPart uState eMode uBegin uEnd joint.2)⟩ := by
  obtain ⟨early, later, joint, hlist, hwalk, hcovers, hearly, htiles⟩ :=
    h.exists_joint (show uBegin < N by omega)
  obtain ⟨hx1, hx2⟩ := hcovers
  dsimp only [SPartMapLink.span] at hx1 hx2
  have hlen : map.joints.length = later.length + (early.length + 1) := by
    rw [hlist, List.length_append, List.length_cons, List.length_reverse, List.length_reverse]
  have htake : map.joints.take (later.length + 1) = (joint :: later).reverse := by
    rw [hlist, List.take_append, List.length_reverse, List.take_of_length_le
      (by rw [List.length_reverse]; omega), Nat.add_sub_cancel_left, List.take_succ_cons,
      List.take_zero, List.reverse_cons]
  have hdrop : map.joints.drop (later.length + 1) = early.reverse := by
    rw [hlist, List.drop_append, List.length_reverse, List.drop_of_length_le
      (by rw [List.length_reverse]; omega), Nat.add_sub_cancel_left, List.drop_succ_cons,
      List.drop_zero, List.nil_append]
  have hsame : early.reverse.map (fun joint => (joint.1, setPart uState eMode uBegin uEnd joint.2)) =
      early.reverse := by
    refine (List.map_congr_left fun other ho => ?_).trans (List.map_id'' (fun _ => rfl) _)
    have hb := hearly.bounds (List.mem_map_of_mem (List.mem_reverse.mp ho))
    dsimp only [SPartMapLink.span] at hb
    rw [setPart_outside (Or.inl (by omega))]
  unfold setSharedRange
  dsimp only
  rw [hwalk, if_neg (by omega), htake, hdrop, List.reverse_reverse, sharedLoop_eq htiles hx1 hlt fun other ho => by
      rw [← Option.some.inj ho]
      exact hx2]
  rw [hlist, List.map_append, List.map_cons, List.map_cons, hsame, List.reverse_cons,
    List.append_assoc, List.map_reverse, List.singleton_append]

theorem jointOk_setPart (h : JointOk pLink) (uBegin uEnd : ℕ) : JointOk (setPart uState eMode uBegin uEnd pLink) := by
  unfold setPart
  split_ifs with hin
  · intro map hp
    obtain ⟨old, hold, rfl⟩ := Option.map_eq_some_iff.mp hp
    have hok := h old hold
    exact ⟨setRange_canonical hok.canonical hok.size_lt (by omega) (by omega) uState eMode, hok.size_lt, hok.linked⟩
  · exact h

/-- A joined map stays in order. -/
theorem joinedOk_setSharedRange (h : JoinedOk N map) (hlt : uBegin < uEnd)
    (hend : uEnd ≤ N) : JoinedOk N (setSharedRange uState eMode map uBegin uEnd) := by
  have hspans : ∀ (joints : List (ℕ × SPartMapLink)) (first : ℕ), Tiles first N (joints.map fun joint => joint.2.span) →
      Tiles first N ((joints.map fun joint => (joint.1, setPart uState eMode uBegin uEnd joint.2)).map
        fun joint => joint.2.span) := by
    intro joints
    induction joints with
    | nil => exact fun _ ht => ht
    | cons joint later ih =>
      rintro first ⟨hbegin, hpos, htail⟩
      obtain ⟨hb, he⟩ := span_setPart uState eMode uBegin uEnd joint.2
      refine ⟨?_, ?_, ?_⟩
      · exact hb.trans hbegin
      · exact hpos.trans_eq he.symm
      · have hrest := ih _ htail
        rwa [show joint.2.span.last = _ from he.symm] at hrest
  rw [setSharedRange_eq h hlt hend]
  refine ⟨?_, fun joint hm => ?_, fun joint hm => ?_, h.fits⟩
  · dsimp only
    rw [← List.map_reverse]
    exact hspans _ _ h.tiles
  · obtain ⟨old, hold, rfl⟩ := List.mem_map.mp hm
    dsimp only
    rw [(span_setPart uState eMode uBegin uEnd old.2).1]
    exact h.key old hold
  · obtain ⟨old, hold, rfl⟩ := List.mem_map.mp hm
    exact jointOk_setPart (h.joint old hold) uBegin uEnd

/-- The state that a shared map shows at an offset, if its own one is known. -/
def shownState (map : CSharedPartMap) (x : ℕ) (own : SPartRange) : SPartRange :=
  map.links.foldl (fun state link =>
    if link.1 + x < link.2.getSize then
      SPartRange.mergeState state (RangeMap.stateAt partMapOps link.2 (link.1 + x)) EMerge.eUnion
    else state) own

theorem stateAt_setPart (h : JointOk pLink) {uBegin uEnd x : ℕ}
    (hx : pLink.uShareBegin ≤ x) (hx' : x < pLink.uShareEnd) :
    (setPart uState eMode uBegin uEnd pLink).stateAt x = if uBegin ≤ x ∧ x < uEnd then
        (match pLink.pMap with
          | some map => shownState map (x - pLink.uShareBegin) (SPartRange.makeState
              (RangeMap.stateAt partMapOps map.partMap (x - pLink.uShareBegin)) uState eMode)
          | none => pLink.stateAt x)
      else pLink.stateAt x := by
  unfold setPart
  by_cases hin : max uBegin pLink.uShareBegin < min pLink.uShareEnd uEnd
  · rw [if_pos hin]
    cases hp : pLink.pMap with
    | none =>
      simp only [SPartMapLink.stateAt, setSection, hp, Option.map_none, ite_self]
    | some map =>
      have hok := h map hp
      have hset := stateAt_setRange hok.canonical hok.size_lt (show max uBegin pLink.uShareBegin - pLink.uShareBegin <
          min pLink.uShareEnd uEnd - pLink.uShareBegin by omega) (by omega) uState eMode
        (x - pLink.uShareBegin)
      have hiff : (max uBegin pLink.uShareBegin - pLink.uShareBegin ≤ x - pLink.uShareBegin ∧
          x - pLink.uShareBegin < min pLink.uShareEnd uEnd - pLink.uShareBegin) ↔
          (uBegin ≤ x ∧ x < uEnd) := by omega
      simp only [hiff] at hset
      have hstate : (setSection uState eMode pLink (max uBegin pLink.uShareBegin)
          (min pLink.uShareEnd uEnd)).stateAt x = shownState map (x - pLink.uShareBegin)
            (RangeMap.stateAt partMapOps (map.partMap.setRange partMapOps
              (max uBegin pLink.uShareBegin - pLink.uShareBegin)
              (min pLink.uShareEnd uEnd - pLink.uShareBegin) uState eMode)
              (x - pLink.uShareBegin)) := by
        simp only [SPartMapLink.stateAt, setSection, hp, Option.map_some]
        rfl
      have hold : pLink.stateAt x = shownState map (x - pLink.uShareBegin)
          (RangeMap.stateAt partMapOps map.partMap (x - pLink.uShareBegin)) := by
        simp only [SPartMapLink.stateAt, hp]
        rfl
      rw [hstate, hset, hold]
      split_ifs <;> rfl
  · rw [if_neg hin, if_neg (by omega)]

end Joints

section Flags

/-- A flag of a state, by its bit. -/
def bit (s : SPartRange) (k : ℕ) : Bool := s.uStates.getLsbD k

/-- A bit that no counter stands behind: not the scheduled, the requested or the marked one. -/
def Plain (k : ℕ) : Prop := k ≠ 4 ∧ k ≠ 5 ∧ k ≠ 10

theorem getLsbD_flag {j k : ℕ} (hj : j < 32) (hne : k ≠ j) : (BitVec.ofNat 32 (2 ^ j)).getLsbD k = false := by
  have hpow : BitVec.ofNat 32 (2 ^ j) = BitVec.twoPow 32 j := by
    refine BitVec.eq_of_toNat_eq ?_
    rw [BitVec.toNat_twoPow, BitVec.toNat_ofNat]
  rw [hpow, BitVec.getLsbD_twoPow, decide_eq_true hj, Bool.true_and, decide_eq_false hne.symm]

theorem bit_statFlag (u : BitVec 32) (count : BitVec 16) {j k : ℕ} (hj : j < 32) (hne : k ≠ j) :
    (SPartRange.statFlag u count (2 ^ j)).getLsbD k = u.getLsbD k := by
  have hflag := getLsbD_flag hj hne
  unfold SPartRange.statFlag
  split_ifs
  · rw [BitVec.getLsbD_or, hflag, Bool.or_false]
  · rw [BitVec.getLsbD_and, BitVec.getLsbD_not, hflag, Bool.not_false, Bool.and_true]
    by_cases hk : k < 32
    · rw [decide_eq_true hk, Bool.and_true]
    · rw [BitVec.getLsbD_of_ge _ _ (not_lt.mp hk), Bool.false_and]

variable {k : ℕ}

theorem bit_statUpd (s : SPartRange) (hk : Plain k) : bit (SPartRange.statUpd s) k = bit s k := by
  obtain ⟨h4, h5, h10⟩ := hk
  have hmarked := bit_statFlag (SPartRange.statFlag (SPartRange.statFlag s.uStates s.uScheduled
    Part.Scheduled) s.uRequested Part.Requested) s.uMarked (show 10 < 32 by omega) h10
  have hrequested := bit_statFlag (SPartRange.statFlag s.uStates s.uScheduled Part.Scheduled)
    s.uRequested (show 5 < 32 by omega) h5
  have hscheduled := bit_statFlag s.uStates s.uScheduled (show 4 < 32 by omega) h4
  exact hmarked.trans (hrequested.trans hscheduled)

theorem bit_add (s : SPartRange) (u : BitVec 32) (hk : Plain k) :
    bit (SPartRange.makeState s (SPartRange.ofStates u) ESet.eAdd) k = (bit s k || u.getLsbD k) :=
  (bit_statUpd _ hk).trans BitVec.getLsbD_or

theorem bit_clr (s : SPartRange) (u : BitVec 32) (hk : Plain k) :
    bit (SPartRange.makeState s (SPartRange.ofStates u) ESet.eClr) k = (bit s k && !u.getLsbD k) := by
  refine (bit_statUpd _ hk).trans ?_
  dsimp only [SPartRange.ofStates]
  rw [bit, BitVec.getLsbD_and, BitVec.getLsbD_not]
  by_cases hlt : k < 32
  · rw [decide_eq_true hlt, Bool.true_and, bit]
  · rw [bit, BitVec.getLsbD_of_ge _ _ (not_lt.mp hlt), Bool.false_and, Bool.false_and]

theorem bit_union (s t : SPartRange) (hk : Plain k) :
    bit (SPartRange.mergeState s t EMerge.eUnion) k = (bit s k || bit t k) :=
  (bit_statUpd _ hk).trans BitVec.getLsbD_or

theorem bit_inter (s t : SPartRange) (hk : Plain k) :
    bit (SPartRange.mergeState s t EMerge.eInter) k = (bit s k && bit t k) :=
  (bit_statUpd _ hk).trans BitVec.getLsbD_and

/-- No joined map has the flag on the byte of a sub-file. -/
def LinksClear (map : CSharedPartMap) (x k : ℕ) : Prop :=
  ∀ link ∈ map.links, bit (RangeMap.stateAt partMapOps link.2 (link.1 + x)) k = false

/-- A flag that no joined map has is the own one. -/
theorem bit_shownState {map : CSharedPartMap} {x k : ℕ} (hk : Plain k) (h : LinksClear map x k)
    (own : SPartRange) : bit (shownState map x own) k = bit own k := by
  have hfold : ∀ (links : List (ℕ × CRangeMap SPartRange)) (own : SPartRange),
      (∀ link ∈ links, bit (RangeMap.stateAt partMapOps link.2 (link.1 + x)) k = false) →
      bit (links.foldl (fun state link => if link.1 + x < link.2.getSize then
        SPartRange.mergeState state (RangeMap.stateAt partMapOps link.2 (link.1 + x)) EMerge.eUnion
        else state) own) k = bit own k := by
    intro links
    induction links with
    | nil => exact fun _ _ => rfl
    | cons link links ih =>
      intro own hl
      rw [List.foldl_cons, ih _ fun other hm => hl other (List.mem_cons_of_mem _ hm)]
      split_ifs
      · rw [bit_union own _ hk, hl link List.mem_cons_self, Bool.or_false]
      · rfl
  exact hfold map.links own h

end Flags

end NeoLoader.SharedRanges
