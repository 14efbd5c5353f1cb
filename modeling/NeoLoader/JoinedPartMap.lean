import NeoLoader.PartStates
import NeoLoader.RangeMapIteration

/-!
# Joined part maps

The map of a file that consists of sub-files looks up each offset in the map
of the sub-file there. A search walks the joints and, inside a joint, the
ranges of the shared map, and goes on while the masked state stays the same.
It takes up each next range one byte after the end of the last one, so it
does not look at the byte in between. Hints are left out: a valid one does
not change what a search finds.
-/

namespace NeoLoader.JoinedPartMap

open StepFunction Tiling RangeMap PartStates

/-- `CSharedPartMap`: the map of a sub-file, and the ranges of each joined map
that links to it, with the offset of the sub-file there. -/
structure CSharedPartMap where
  /-- The ranges of the sub-file itself. -/
  partMap : CRangeMap SPartRange
  /-- `m_Links`: `uShareBegin` and the own ranges of each joined map. -/
  links : List (ℕ × CRangeMap SPartRange)

/-- `SPartMapLink`, as a joint: where the sub-file lies, and its map if it is
loaded. -/
structure SPartMapLink where
  /-- First offset of the sub-file. -/
  uShareBegin : ℕ
  /-- First offset after the sub-file. -/
  uShareEnd : ℕ
  /-- Identifier of the sub-file, zero if there is none. -/
  ID : ℕ
  /-- The map of the sub-file. -/
  pMap : Option CSharedPartMap

/-- `CJoinedPartMap`, as far as a search reads it. -/
structure CJoinedPartMap where
  /-- `m_Joints`, in key order: the key is `ULLONG_MAX - uShareBegin`. -/
  joints : List (ℕ × SPartMapLink)

/-- The local variables of the searches: a range and its state. -/
structure LocalRange where
  /-- First offset of the range. -/
  uLocalBegin : ℕ
  /-- First offset after the range; zero before the first run. -/
  uLocalEnd : ℕ
  /-- State of the range. -/
  uLocalState : SPartRange

/-- The default state. -/
abbrev noState : SPartRange := SPartRange.ofStates 0

/-- The body of the loop over the links of a shared map: the range shrinks to
the part with one state in the linked map too. -/
def linkStep (uEnd : ℕ) (uMask : SPartRange) (loc : LocalRange) (link : ℕ × CRangeMap SPartRange) : LocalRange :=
  let next := link.2.getNextRange partMapOps 0 (link.1 + uEnd) noState uMask none
  if next.found = false then loc
  else
    let uRemoteEnd := next.uEnd - link.1
    let uRemoteBegin := if next.uBegin ≥ link.1 then next.uBegin - link.1 else 0
    { uLocalBegin := if loc.uLocalBegin < uRemoteBegin then uRemoteBegin else loc.uLocalBegin
      uLocalEnd := if loc.uLocalEnd > uRemoteEnd then uRemoteEnd else loc.uLocalEnd
      uLocalState := SPartRange.mergeState loc.uLocalState next.uState EMerge.eUnion }

def CSharedPartMap.getNextRange (map : CSharedPartMap) (uBegin uEnd : ℕ) (uMask : SPartRange) :
    Option LocalRange :=
  let uEnd := if uBegin > uEnd then uBegin else uEnd
  let next := map.partMap.getNextRange partMapOps 0 uEnd noState uMask none
  if next.found = false then none
  else some (map.links.foldl (linkStep uEnd uMask) ⟨next.uBegin, next.uEnd, next.uState⟩)

/-- The range of a joint around an offset in it; a missing sub-file is one
range, disabled if there is no sub-file at all. -/
def SPartMapLink.remoteRange (pLink : SPartMapLink) (uSectionEnd : ℕ) : Option LocalRange :=
  match pLink.pMap with
  | some map =>
    (map.getNextRange 0 (uSectionEnd - pLink.uShareBegin) noState).map fun loc =>
      ⟨loc.uLocalBegin + pLink.uShareBegin, loc.uLocalEnd + pLink.uShareBegin, loc.uLocalState⟩
  | none => some ⟨pLink.uShareBegin, pLink.uShareEnd,
      SPartRange.ofStates (if pLink.ID = 0 then BitVec.ofNat 32 Part.Disabled else 0)⟩

/-- The loop of `CJoinedPartMap::GetNextRange` over the joints from the found
one on. Without fuel there is no result; the inner `none` is the return value
false. -/
def joinedLoop (uMask : SPartRange) : ℕ → List SPartMapLink → ℕ → LocalRange → Option (Option LocalRange)
  | 0, _, _, _ => none
  | _ + 1, [], _, _ => some none
  | fuel + 1, pLink :: later, uSectionEnd, loc =>
    if uSectionEnd ≥ pLink.uShareEnd then
      if later.isEmpty then (if loc.uLocalEnd = 0 then some none else some (some loc))
      else joinedLoop uMask fuel later uSectionEnd loc
    else
      match pLink.remoteRange uSectionEnd with
      | none => some none
      | some remote =>
        if loc.uLocalEnd = 0 then
          joinedLoop uMask fuel (pLink :: later) ((remote.uLocalEnd + 1) % 2 ^ 64) remote
        else if SPartRange.matchState (CRangeMap.masked partMapOps uMask loc.uLocalState)
            (CRangeMap.masked partMapOps uMask remote.uLocalState) = false then some (some loc)
        else
          joinedLoop uMask fuel (pLink :: later) ((remote.uLocalEnd + 1) % 2 ^ 64)
            { loc with uLocalEnd := remote.uLocalEnd }

/-- `CJoinedPartMap::GetNextRange`: the search starts at the last joint that
does not begin after the offset. -/
def CJoinedPartMap.getNextRange (map : CJoinedPartMap) (fuel uBegin uEnd : ℕ)
    (uState uMask : SPartRange) : Option (NextRange SPartRange) :=
  let uEnd := if uBegin > uEnd then uBegin else uEnd
  let i := lowerBound map.joints (minusOne - uEnd)
  if i = map.joints.length then some ⟨false, uBegin, uEnd, uState, none⟩
  else
    (joinedLoop uMask fuel ((map.joints.take (i + 1)).reverse.map Prod.snd) uEnd ⟨0, 0, noState⟩).map fun result =>
      match result with
      | none => ⟨false, uBegin, uEnd, uState, none⟩
      | some loc => ⟨true, loc.uLocalBegin, loc.uLocalEnd, loc.uLocalState, none⟩

/-- `IterateRanges` over a joined map. -/
def CJoinedPartMap.iterateRanges (map : CJoinedPartMap) (fuel : ℕ) (uMask : SPartRange)
    (it : SIterator SPartRange) : Option (Bool × SIterator SPartRange) :=
  if it.uEnd = it.uTo then some (false, it)
  else (map.getNextRange fuel it.uBegin it.uEnd it.uState uMask).map (clip it)

section SharedState

/-- The state a shared map has at an offset: its own one with those of the
joined maps that link to it. -/
def CSharedPartMap.stateAt (map : CSharedPartMap) (x : ℕ) : SPartRange :=
  map.links.foldl (fun state link =>
    if link.1 + x < link.2.getSize then
      SPartRange.mergeState state (RangeMap.stateAt partMapOps link.2 (link.1 + x)) EMerge.eUnion
    else state) (RangeMap.stateAt partMapOps map.partMap x)

/-- The state of an offset in a joint. -/
def SPartMapLink.stateAt (pLink : SPartMapLink) (x : ℕ) : SPartRange :=
  match pLink.pMap with
  | some map => map.stateAt (x - pLink.uShareBegin)
  | none => SPartRange.ofStates (if pLink.ID = 0 then BitVec.ofNat 32 Part.Disabled else 0)

/-- The state of an offset of the joined file: the one of the joint there. -/
def CJoinedPartMap.stateAt (map : CJoinedPartMap) (x : ℕ) : SPartRange :=
  match map.joints.find? fun joint =>
    decide (joint.2.uShareBegin ≤ x) && decide (x < joint.2.uShareEnd) with
  | some joint => joint.2.stateAt x
  | none => noState

/-- A shared map over a sub-file of the given size. -/
structure SharedOk (size : ℕ) (map : CSharedPartMap) : Prop where
  /-- The own ranges cover the sub-file. -/
  canonical : Canonical partMapOps size map.partMap
  /-- Its size is one. -/
  size_lt : size < 2 ^ 64
  /-- The linked maps are in order, and the offsets in them are offsets. -/
  linked : ∀ link ∈ map.links, link.1 + size < 2 ^ 64 ∧ ∃ n < 2 ^ 64, Canonical partMapOps n link.2

/-- A joint whose map covers its sub-file. -/
def JointOk (pLink : SPartMapLink) : Prop :=
  ∀ map, pLink.pMap = some map → SharedOk (pLink.uShareEnd - pLink.uShareBegin) map

theorem stateAt_of_seen {map : CRangeMap SPartRange} {x : ℕ} {state : SPartRange}
    (h : seen partMapOps map noState x = some state) : RangeMap.stateAt partMapOps map x = state := by
  rw [seen, Option.map_eq_some_iff] at h
  obtain ⟨v, hv, hm⟩ := h
  rw [RangeMap.stateAt, hv, Option.getD_some, ← hm]
  rfl

/-- One range of a shared map around an offset, as far as it lies to the right
of the offset. -/
structure OneState (state : ℕ → SPartRange) (x size : ℕ) (loc : LocalRange) : Prop where
  /-- The range does not start after the offset. -/
  uBegin_le : loc.uLocalBegin ≤ x
  /-- The range ends after the offset. -/
  lt_uEnd : x < loc.uLocalEnd
  /-- The range ends in the file. -/
  uEnd_le : loc.uLocalEnd ≤ size
  /-- The offsets from the given one on have the state of the range. -/
  same : ∀ y, x ≤ y → y < loc.uLocalEnd → state y = loc.uLocalState
  /-- The state is a full one. -/
  stored : SPartRange.Stored loc.uLocalState

/-- A plain map finds one range around an offset. -/
theorem getNextRange_oneState {size : ℕ} {map : CRangeMap SPartRange}
    (h : Canonical partMapOps size map) (hsize : size < 2 ^ 64) {x : ℕ} (hx : x < size) :
    (map.getNextRange partMapOps 0 x noState noState none).found = true ∧
      OneState (RangeMap.stateAt partMapOps map) x size ⟨(map.getNextRange partMapOps 0 x noState noState none).uBegin,
          (map.getNextRange partMapOps 0 x noState noState none).uEnd,
          (map.getNextRange partMapOps 0 x noState noState none).uState⟩ := by
  have hcur : (if 0 > x then 0 else x) = x := if_neg (by omega)
  obtain ⟨hf, -⟩ := getNextRange_found h hsize hcur hx noState noState (hintOk_none map)
  have hbegin := hf.uBegin_le
  have hend := hf.lt_uEnd
  have hsame : ∀ y, x ≤ y → y < (map.getNextRange partMapOps 0 x noState noState none).uEnd →
      RangeMap.stateAt partMapOps map y = (map.getNextRange partMapOps 0 x noState noState none).uState :=
    fun y h1 h2 => stateAt_of_seen (hf.same y (by omega) h2)
  refine ⟨hf.found, hbegin, hend, hf.uEnd_le, hsame, ?_⟩
  dsimp only
  rw [← hsame x le_rfl hend]
  exact h.stored_stateAt x

/-- A link shrinks the range and adds its state. -/
theorem linkStep_oneState {state : ℕ → SPartRange} {x size n : ℕ} {loc : LocalRange}
    (hloc : OneState state x size loc) {link : ℕ × CRangeMap SPartRange}
    (hfit : link.1 + size < 2 ^ 64) (hn : n < 2 ^ 64) (h : Canonical partMapOps n link.2) :
    OneState (fun y => if link.1 + y < link.2.getSize then
      SPartRange.mergeState (state y) (RangeMap.stateAt partMapOps link.2 (link.1 + y))
        EMerge.eUnion else state y) x size (linkStep x noState loc link) := by
  have hb := hloc.uBegin_le
  have he := hloc.lt_uEnd
  have hle := hloc.uEnd_le
  rw [h.getSize]
  rcases Nat.lt_or_ge (link.1 + x) n with hin | hpast
  · obtain ⟨hfound, hone⟩ := getNextRange_oneState h hn hin
    have hb' := hone.uBegin_le
    have he' := hone.lt_uEnd
    have hle' := hone.uEnd_le
    have hsame' := hone.same
    rw [linkStep]
    generalize link.2.getNextRange partMapOps 0 (link.1 + x) noState noState none = next at *
    dsimp only at hb' he' hle' hsame'
    simp only [hfound, Bool.true_eq_false, if_false]
    constructor
    · dsimp only
      split <;> split <;> omega
    · dsimp only
      split <;> omega
    · dsimp only
      split <;> omega
    · intro y h1 h2
      dsimp only at h2
      have hy : y < loc.uLocalEnd ∧ link.1 + y < next.uEnd := by
        split at h2 <;> omega
      dsimp only
      rw [if_pos (by omega), hloc.same y h1 hy.1, hsame' (link.1 + y) (by omega) hy.2]
    · exact SPartRange.stored_mergeState hloc.stored _ _
  · have hcur : (if 0 > link.1 + x then 0 else link.1 + x) = link.1 + x := if_neg (by omega)
    have hnone := getNextRange_not_found h hn hcur (by omega) hpast noState noState (hintOk_none link.2)
    rw [linkStep, hnone]
    refine ⟨hb, he, hle, fun y h1 h2 => ?_, hloc.stored⟩
    dsimp only
    rw [if_neg (by omega)]
    exact hloc.same y h1 h2

/-- A shared map finds one range around an offset. -/
theorem sharedRange_oneState {size : ℕ} {map : CSharedPartMap} (h : SharedOk size map) {x : ℕ} (hx : x < size) :
    ∃ loc, map.getNextRange 0 x noState = some loc ∧ OneState map.stateAt x size loc := by
  have hcur : (if 0 > x then 0 else x) = x := if_neg (by omega)
  obtain ⟨hfound, hone⟩ := getNextRange_oneState h.canonical h.size_lt hx
  have hlinked := h.linked
  simp only [CSharedPartMap.getNextRange, hcur, hfound, Bool.true_eq_false, if_false]
  refine ⟨_, rfl, ?_⟩
  have hfold : ∀ (links : List (ℕ × CRangeMap SPartRange)) (state : ℕ → SPartRange)
      (loc : LocalRange), (∀ link ∈ links, link.1 + size < 2 ^ 64 ∧
        ∃ n < 2 ^ 64, Canonical partMapOps n link.2) → OneState state x size loc →
      OneState (fun y => links.foldl (fun state link =>
        if link.1 + y < link.2.getSize then SPartRange.mergeState state
          (RangeMap.stateAt partMapOps link.2 (link.1 + y)) EMerge.eUnion else state) (state y))
        x size (links.foldl (linkStep x noState) loc) := by
    intro links
    induction links with
    | nil => exact fun _ _ _ hone => hone
    | cons link links ih =>
      intro state loc hl hone
      obtain ⟨hfit, n, hn, hc⟩ := hl link List.mem_cons_self
      exact ih _ _ (fun other hm => hl other (List.mem_cons_of_mem _ hm)) (linkStep_oneState hone hfit hn hc)
  exact hfold map.links _ _ hlinked hone

/-- A joint finds one range around an offset in it. -/
theorem remoteRange_oneState {pLink : SPartMapLink} (h : JointOk pLink) {x : ℕ}
    (hx : pLink.uShareBegin ≤ x) (hx' : x < pLink.uShareEnd) :
    ∃ loc, pLink.remoteRange x = some loc ∧ OneState pLink.stateAt x pLink.uShareEnd loc := by
  rw [SPartMapLink.remoteRange]
  cases hp : pLink.pMap with
  | none =>
    refine ⟨_, rfl, hx, hx', le_rfl, fun y _ _ => ?_, ⟨rfl, rfl⟩⟩
    rw [SPartMapLink.stateAt, hp]
  | some map =>
    obtain ⟨loc, hget, hone⟩ := sharedRange_oneState (h map hp)
      (show x - pLink.uShareBegin < pLink.uShareEnd - pLink.uShareBegin by omega)
    have hb := hone.uBegin_le
    have he := hone.lt_uEnd
    have hle := hone.uEnd_le
    dsimp only
    rw [hget, Option.map_some]
    refine ⟨_, rfl, by dsimp only; omega, by dsimp only; omega, by dsimp only; omega, ?_, hone.stored⟩
    intro y h1 h2
    dsimp only at h2
    rw [SPartMapLink.stateAt, hp]
    exact hone.same (y - pLink.uShareBegin) (by omega) (by omega)

end SharedState

/-- The joint as a span. -/
def SPartMapLink.span (pLink : SPartMapLink) : Span SPartMapLink :=
  ⟨pLink.uShareBegin, pLink.uShareEnd, pLink⟩

section Loop

/-- Where a search ended that went on from an end: every byte in between has the
masked state, or lies alone between two bytes that have it. -/
structure Reached (state : ℕ → SPartRange) (N first last : ℕ) (value : SPartRange) : Prop where
  /-- The end did not move back. -/
  le : first ≤ last
  /-- The end lies in the file. -/
  last_le : last ≤ N
  /-- The bytes in between. -/
  bytes : ∀ x, first ≤ x → x < last → state x = value ∨ x + 1 < last ∧ state (x - 1) = value ∧ state (x + 1) = value
  /-- The last byte has the state. -/
  before : state (last - 1) = value
  /-- The byte one after the end does not have it. -/
  after : last + 1 < N → state (last + 1) ≠ value

/-- The loop from a range on: the end moves on over ranges of the same masked
state, and over single bytes of any state between them. -/
theorem joinedLoop_reached {N : ℕ} (hfit : N + 1 < 2 ^ 64) {state : ℕ → SPartRange}
    (uMask : SPartRange) {fuel : ℕ} {pLink : SPartMapLink} {later : List SPartMapLink}
    (htiles : Tiles pLink.uShareBegin N ((pLink :: later).map SPartMapLink.span))
    (hok : ∀ joint ∈ pLink :: later, JointOk joint)
    (hstate : ∀ joint ∈ pLink :: later, ∀ x, joint.uShareBegin ≤ x → x < joint.uShareEnd →
      state x = joint.stateAt x) {loc : LocalRange} (hfirst : 0 < loc.uLocalEnd)
    (hend : loc.uLocalEnd ≤ N) (hbegin : pLink.uShareBegin ≤ loc.uLocalEnd + 1)
    (hfuel : later.length + 1 + (N + 1 - loc.uLocalEnd) < fuel)
    (hstored : SPartRange.Stored loc.uLocalState)
    (hbefore : CRangeMap.masked partMapOps uMask (state (loc.uLocalEnd - 1)) =
      CRangeMap.masked partMapOps uMask loc.uLocalState) :
    ∃ last, joinedLoop uMask fuel (pLink :: later) (loc.uLocalEnd + 1) loc =
        some (some { loc with uLocalEnd := last }) ∧
      Reached (fun x => CRangeMap.masked partMapOps uMask (state x)) N loc.uLocalEnd last
        (CRangeMap.masked partMapOps uMask loc.uLocalState) := by
  induction fuel generalizing pLink later loc with
  | zero => omega
  | succ fuel ih =>
    obtain ⟨-, hlt, htail⟩ := htiles
    dsimp only [SPartMapLink.span] at hlt htail
    have hle := htail.le
    rw [joinedLoop]
    by_cases hpast : loc.uLocalEnd + 1 ≥ pLink.uShareEnd
    · rw [if_pos hpast]
      cases later with
      | nil =>
        have hN : pLink.uShareEnd = N := htail
        have hne : ¬loc.uLocalEnd = 0 := by omega
        rw [List.isEmpty_nil, if_pos rfl, if_neg hne]
        exact ⟨loc.uLocalEnd, rfl, le_rfl, hend, fun x h1 h2 => by omega, hbefore, fun h => by omega⟩
      | cons next later =>
        have hnext : next.uShareBegin = pLink.uShareEnd := htail.1
        rw [List.isEmpty_cons, if_neg Bool.false_ne_true]
        rw [List.length_cons] at hfuel
        refine ih ?_ (fun joint hm => hok joint (List.mem_cons_of_mem _ hm))
          (fun joint hm => hstate joint (List.mem_cons_of_mem _ hm)) hfirst hend (by omega)
          (by omega) hstored hbefore
        rw [hnext]
        exact htail
    · rw [if_neg hpast]
      obtain ⟨remote, hget, hone⟩ := remoteRange_oneState (hok pLink List.mem_cons_self) hbegin (not_le.mp hpast)
      have he := hone.lt_uEnd
      have hle' := hone.uEnd_le
      have hsame : ∀ x, loc.uLocalEnd + 1 ≤ x → x < remote.uLocalEnd → state x = remote.uLocalState := fun x h1 h2 => by
        rw [hstate pLink List.mem_cons_self x (by omega) (by omega), hone.same x h1 h2]
      have hne : ¬loc.uLocalEnd = 0 := by omega
      simp only [hget, if_neg hne]
      have hm1 : partMapOps.Stored (CRangeMap.masked partMapOps uMask loc.uLocalState) :=
        stored_masked hstored uMask
      have hm2 : partMapOps.Stored (CRangeMap.masked partMapOps uMask remote.uLocalState) :=
        stored_masked hone.stored uMask
      by_cases hmatch : SPartRange.matchState (CRangeMap.masked partMapOps uMask loc.uLocalState)
          (CRangeMap.masked partMapOps uMask remote.uLocalState) = false
      · rw [if_pos hmatch]
        refine ⟨loc.uLocalEnd, rfl, le_rfl, hend, fun x h1 h2 => by omega, hbefore, fun _ heq => ?_⟩
        rw [hsame _ le_rfl he] at heq
        rw [(SPartRange.matchState_iff hm1 hm2).mpr heq.symm] at hmatch
        cases hmatch
      · have heq := (SPartRange.matchState_iff hm1 hm2).mp (eq_true_of_ne_false hmatch)
        rw [if_neg hmatch, Nat.mod_eq_of_lt (by omega)]
        have hbytes : ∀ x, loc.uLocalEnd + 1 ≤ x → x < remote.uLocalEnd → CRangeMap.masked partMapOps uMask (state x) =
              CRangeMap.masked partMapOps uMask loc.uLocalState := fun x h1 h2 => by
          rw [hsame x h1 h2, heq]
        obtain ⟨last, hloop, hreach⟩ := @ih pLink later ⟨rfl, hlt, htail⟩ hok hstate
          { loc with uLocalEnd := remote.uLocalEnd } (by dsimp only; omega)
          (by dsimp only; omega) (by dsimp only; omega) (by dsimp only; omega) hstored
          (hbytes _ (by dsimp only; omega) (by dsimp only; omega))
        have hge := hreach.le
        dsimp only at hge
        refine ⟨last, hloop, by omega, hreach.last_le, fun x h1 h2 => ?_, hreach.before, hreach.after⟩
        rcases Nat.lt_or_ge x remote.uLocalEnd with hlow | hhigh
        · rcases Nat.eq_or_lt_of_le h1 with rfl | h1
          · exact Or.inr ⟨by omega, hbefore, hbytes _ le_rfl he⟩
          · exact Or.inl (hbytes x h1 hlow)
        · exact hreach.bytes x hhigh h2

end Loop

section Joints

/-- A joined map over a file of size `N`: in key order the joints tile the file
from its end to its begin. -/
structure JoinedOk (N : ℕ) (map : CJoinedPartMap) : Prop where
  /-- The joints tile the file. -/
  tiles : Tiles 0 N (map.joints.reverse.map fun joint => joint.2.span)
  /-- The keys of the joints. -/
  key : ∀ joint ∈ map.joints, joint.1 = minusOne - joint.2.uShareBegin
  /-- Every joint has the map of its sub-file. -/
  joint : ∀ joint ∈ map.joints, JointOk joint.2
  /-- An offset after the end is an offset too. -/
  fits : N + 1 < 2 ^ 64

variable {N : ℕ} {map : CJoinedPartMap}

/-- The joint over an offset decides the state there. -/
theorem JoinedOk.stateAt_eq (h : JoinedOk N map) {joint : ℕ × SPartMapLink}
    (hm : joint ∈ map.joints) {x : ℕ} (hx : joint.2.span.Covers x) : map.stateAt x = joint.2.stateAt x := by
  have hspan : ∀ other ∈ map.joints, other.2.span ∈ map.joints.reverse.map fun joint => joint.2.span := fun other ho =>
    List.mem_map_of_mem (List.mem_reverse.mpr ho)
  rw [CJoinedPartMap.stateAt]
  cases hf : map.joints.find? fun joint =>
    decide (joint.2.uShareBegin ≤ x) && decide (x < joint.2.uShareEnd) with
  | none =>
    have hnone := List.find?_eq_none.mp hf joint hm
    rw [Bool.and_eq_true, decide_eq_true_eq, decide_eq_true_eq] at hnone
    exact absurd hx hnone
  | some other =>
    have hother := List.find?_some hf
    rw [Bool.and_eq_true, decide_eq_true_eq, decide_eq_true_eq] at hother
    have he := h.tiles.unique (hspan other (List.mem_of_find?_eq_some hf)) (hspan joint hm) hother hx
    have hlink : other.2 = joint.2 := congrArg Span.value he
    dsimp only
    rw [hlink]

theorem lowerBound_append_cons {V : Type*} {front back : List (ℕ × V)} {part : ℕ × V} {key : ℕ}
    (hfront : ∀ other ∈ front, other.1 < key) (hpart : key ≤ part.1) :
    lowerBound (front ++ part :: back) key = front.length := by
  induction front with
  | nil => rw [List.nil_append, lowerBound_cons, if_pos hpart, List.length_nil]
  | cons other front ih =>
    have hlt := hfront other List.mem_cons_self
    rw [List.cons_append, lowerBound_cons, if_neg (by omega),
      ih fun o ho => hfront o (List.mem_cons_of_mem _ ho), List.length_cons]

/-- An offset of the file splits the joints at the one over it, and the search for the offset ends
there. -/
theorem JoinedOk.exists_joint (h : JoinedOk N map) {x : ℕ} (hx : x < N) :
    ∃ (early later : List (ℕ × SPartMapLink)) (joint : ℕ × SPartMapLink),
      map.joints = later.reverse ++ joint :: early.reverse ∧
      lowerBound map.joints (minusOne - x) = later.length ∧ joint.2.span.Covers x ∧
      Tiles 0 joint.2.uShareBegin (early.map fun joint => joint.2.span) ∧
      Tiles joint.2.uShareBegin N ((joint :: later).map fun joint => joint.2.span) := by
  obtain ⟨front, span, back, hsplit, hcovers, htiles⟩ := h.tiles.exists_split (Nat.zero_le x) hx
  obtain ⟨early, rest, hjoints, rfl, hrest⟩ := List.map_eq_append_iff.mp hsplit
  obtain ⟨joint, later, rfl, rfl, rfl⟩ := List.map_eq_cons_iff.mp hrest
  have hlist : map.joints = later.reverse ++ joint :: early.reverse := by
    rw [← List.reverse_reverse map.joints, hjoints, List.reverse_append, List.reverse_cons,
      List.append_assoc, List.singleton_append]
  have hmem : ∀ other ∈ joint :: later, other ∈ map.joints := fun other ho => by
    rw [← List.mem_reverse, hjoints]
    exact List.mem_append_right _ ho
  have hall := h.tiles
  rw [hjoints, List.map_append, tiles_append] at hall
  obtain ⟨mid, hearly, hmid⟩ := hall
  rw [← show joint.2.uShareBegin = mid from hmid.1] at hearly
  have hkey := h.key
  have hfits := h.fits
  refine ⟨early, later, joint, hlist, ?_, hcovers, hearly, htiles⟩
  obtain ⟨hx1, hx2⟩ := hcovers
  rw [hlist, lowerBound_append_cons, List.length_reverse]
  · intro other ho
    have hl := List.mem_reverse.mp ho
    have hb := htiles.2.2.bounds (List.mem_map_of_mem hl)
    dsimp only [SPartMapLink.span] at hx2 hb
    rw [hkey other (hmem other (List.mem_cons_of_mem _ hl)), minusOne]
    omega
  · dsimp only [SPartMapLink.span] at hx1
    rw [hkey joint (hmem joint List.mem_cons_self)]
    omega

/-- The walk from an offset of the file starts at the joint over the offset, and
goes to the end of the file. -/
theorem JoinedOk.exists_walk (h : JoinedOk N map) {x : ℕ} (hx : x < N) :
    ∃ pLink later, lowerBound map.joints (minusOne - x) ≠ map.joints.length ∧
      ((map.joints.take (lowerBound map.joints (minusOne - x) + 1)).reverse.map Prod.snd) = pLink :: later ∧
      (∀ link ∈ pLink :: later, ∃ joint ∈ map.joints, joint.2 = link) ∧
      later.length < map.joints.length ∧ pLink.span.Covers x ∧
      Tiles pLink.uShareBegin N ((pLink :: later).map SPartMapLink.span) := by
  obtain ⟨early, later, joint, hlist, hwalk, hcovers, -, htiles⟩ := h.exists_joint hx
  have hmem : ∀ other ∈ joint :: later, other ∈ map.joints := fun other ho => by
    rw [hlist, List.mem_append, List.mem_reverse, List.mem_cons]
    rcases List.mem_cons.mp ho with rfl | hl
    · exact Or.inr (Or.inl rfl)
    · exact Or.inl hl
  have hlen : map.joints.length = later.length + (early.length + 1) := by
    rw [hlist, List.length_append, List.length_cons, List.length_reverse, List.length_reverse]
  have htake : map.joints.take (later.length + 1) = later.reverse ++ [joint] := by
    rw [hlist, List.take_append, List.length_reverse, List.take_of_length_le
      (by rw [List.length_reverse]; omega), Nat.add_sub_cancel_left, List.take_succ_cons,
      List.take_zero]
  refine ⟨joint.2, later.map Prod.snd, by omega, ?_, ?_, ?_, hcovers, ?_⟩
  · rw [hwalk, htake, List.reverse_append, List.reverse_reverse, List.reverse_singleton,
      List.singleton_append, List.map_cons]
  · intro link hl
    rw [← List.map_cons] at hl
    obtain ⟨other, ho, rfl⟩ := List.mem_map.mp hl
    exact ⟨other, hmem other ho, rfl⟩
  · rw [List.length_map]
    omega
  · rw [List.map_cons, List.map_map]
    exact htiles

end Joints

/-- A byte that differs from the one before it, while the bytes on both sides
of it agree. -/
def Lone (N : ℕ) (state : ℕ → SPartRange) (k : ℕ) : Prop :=
  0 < k ∧ k + 1 < N ∧ state (k - 1) = state (k + 1) ∧ state k ≠ state (k - 1)

section Search

variable {N : ℕ} {map : CJoinedPartMap}

/-- What a search in a joined map finds around an offset: a range of one state,
and from its end on whatever `Reached` allows. -/
structure JoinedFound (N : ℕ) (map : CJoinedPartMap) (uMask : SPartRange) (cur : ℕ)
    (next : NextRange SPartRange) : Prop where
  /-- A range was found. -/
  found : next.found = true
  /-- It does not start after the offset. -/
  uBegin_le : next.uBegin ≤ cur
  /-- The first range goes beyond the offset and has the state, the rest of the
  way it was gone on. -/
  reached : ∃ first, cur < first ∧ (∀ x, cur ≤ x → x < first → map.stateAt x = next.uState) ∧
    Reached (fun x => CRangeMap.masked partMapOps uMask (map.stateAt x)) N first next.uEnd
      (CRangeMap.masked partMapOps uMask next.uState)

/-- A search from inside the file finds a range. -/
theorem JoinedOk.getNextRange_found (h : JoinedOk N map) {fuel : ℕ}
    (hfuel : map.joints.length + N + 2 < fuel) {uBegin uEnd cur : ℕ}
    (hcur : (if uBegin > uEnd then uBegin else uEnd) = cur) (hin : cur < N) (uState uMask : SPartRange) :
    ∃ next, map.getNextRange fuel uBegin uEnd uState uMask = some next ∧
      JoinedFound N map uMask cur next := by
  obtain ⟨pLink, later, hlow, hwalk, hmem, hlen, ⟨h1, h2⟩, htiles⟩ := h.exists_walk hin
  have hok : ∀ link ∈ pLink :: later, JointOk link := fun link hl => by
    obtain ⟨joint, hm, rfl⟩ := hmem link hl
    exact h.joint joint hm
  have hstate : ∀ link ∈ pLink :: later, ∀ x, link.uShareBegin ≤ x → x < link.uShareEnd →
      map.stateAt x = link.stateAt x := fun link hl x hx hx' => by
    obtain ⟨joint, hm, rfl⟩ := hmem link hl
    exact h.stateAt_eq hm ⟨hx, hx'⟩
  have hfits := h.fits
  have hle := htiles.2.2.le
  dsimp only [SPartMapLink.span] at h1 h2 hle
  obtain ⟨remote, hget, hone⟩ := remoteRange_oneState (hok pLink List.mem_cons_self) h1 h2
  have he := hone.lt_uEnd
  have hle' := hone.uEnd_le
  have hsame : ∀ x, cur ≤ x → x < remote.uLocalEnd → map.stateAt x = remote.uLocalState :=
    fun x hx hx' => by
      rw [hstate pLink List.mem_cons_self x (by omega) (by omega), hone.same x hx hx']
  obtain ⟨fuel, rfl⟩ := Nat.exists_eq_add_one.mpr (show 0 < fuel by omega)
  obtain ⟨last, hloop, hreach⟩ := joinedLoop_reached hfits uMask htiles hok hstate
    (show 0 < remote.uLocalEnd by omega) (by omega) (by omega)
    (show later.length + 1 + (N + 1 - remote.uLocalEnd) < fuel by omega) hone.stored
    (by rw [hsame _ (by omega) (by omega)])
  have hnot : ¬cur ≥ pLink.uShareEnd := by omega
  refine ⟨⟨true, remote.uLocalBegin, last, remote.uLocalState, none⟩, ?_, rfl, hone.uBegin_le,
    remote.uLocalEnd, he, hsame, hreach⟩
  simp only [CJoinedPartMap.getNextRange, hcur, if_neg hlow, hwalk]
  rw [joinedLoop, if_neg hnot]
  simp only [hget, if_true]
  rw [Nat.mod_eq_of_lt (by omega), hloop, Option.map_some]

/-- A search from past the file finds nothing. -/
theorem JoinedOk.getNextRange_not_found (h : JoinedOk N map) {fuel : ℕ} (hfuel : 0 < fuel)
    {uBegin uEnd cur : ℕ} (hcur : (if uBegin > uEnd then uBegin else uEnd) = cur) (hpast : N ≤ cur)
    (uState uMask : SPartRange) :
    map.getNextRange fuel uBegin uEnd uState uMask = some ⟨false, uBegin, cur, uState, none⟩ := by
  obtain ⟨fuel, rfl⟩ := Nat.exists_eq_add_one.mpr hfuel
  simp only [CJoinedPartMap.getNextRange, hcur]
  have htiles := h.tiles
  have hkey := h.key
  have hfits := h.fits
  cases hj : map.joints with
  | nil => exact if_pos rfl
  | cons joint rest =>
    rw [hj] at htiles hkey
    rw [List.reverse_cons, List.map_append, tiles_append] at htiles
    obtain ⟨b, -, hb, hlt, he⟩ := htiles
    have he' : joint.2.uShareEnd = N := he
    dsimp only [SPartMapLink.span] at hb hlt
    have hlow : lowerBound (joint :: rest) (minusOne - cur) = 0 := by
      rw [lowerBound_cons, hkey joint List.mem_cons_self, if_pos (by omega)]
    rw [hlow, if_neg (by rw [List.length_cons]; omega), List.take_succ_cons, List.take_zero,
      List.reverse_singleton, List.map_singleton, joinedLoop, if_pos (by omega), List.isEmpty_nil,
      if_pos rfl, if_pos rfl, Option.map_some]

end Search

section Iterate

variable {N : ℕ} {map : CJoinedPartMap}

/-- What a run of the calling loop over a joined map returns from an offset on.
The ranges carry the states of their bytes if no lone byte lies on the way. -/
structure JoinedCollected (N : ℕ) (map : CJoinedPartMap) (uMask : SPartRange) (cur uTo : ℕ)
    (ranges : List (Span SPartRange)) : Prop where
  /-- In the file the ranges tile what is left of the window. -/
  tiles : cur < N → Tiles cur (min uTo N) ranges
  /-- Past the file there is no range. -/
  past : N ≤ cur → ranges = []
  /-- When the ranges carry the masked states of their bytes. -/
  same_iff : (∀ range ∈ ranges, ∀ x, range.Covers x → CRangeMap.masked partMapOps uMask range.value =
        CRangeMap.masked partMapOps uMask (map.stateAt x)) ↔
    ∀ k, cur < k → k < uTo → ¬Lone N (fun x => CRangeMap.masked partMapOps uMask (map.stateAt x)) k

section

variable {uMask : SPartRange} {cur : ℕ} {next : NextRange SPartRange} (h : JoinedFound N map uMask cur next)

include h

/-- The returned part of a found range carries the states of its bytes if there
is no lone byte in it. -/
theorem JoinedFound.same_iff (uTo : ℕ) :
    (∀ x, cur ≤ x → x < min next.uEnd uTo → CRangeMap.masked partMapOps uMask next.uState =
        CRangeMap.masked partMapOps uMask (map.stateAt x)) ↔
      ∀ k, cur < k → k < min next.uEnd uTo →
        ¬Lone N (fun x => CRangeMap.masked partMapOps uMask (map.stateAt x)) k := by
  obtain ⟨first, hfirst, hsame, hreach⟩ := h.reached
  have hle := hreach.last_le
  constructor
  · rintro hall k hk hk' ⟨-, -, -, hne⟩
    dsimp only at hne
    rw [← hall k (by omega) hk', ← hall (k - 1) (by omega) (by omega)] at hne
    exact hne rfl
  · intro hnone x hx hx'
    rcases Nat.lt_or_ge x first with hlow | hhigh
    · rw [hsame x hx hlow]
    · by_contra hne
      rcases hreach.bytes x hhigh (by omega) with heq | ⟨hin, hbefore, hafter⟩
      · exact hne heq.symm
      · exact hnone x (by omega) hx' ⟨by omega, by omega, hbefore.trans hafter.symm,
          fun heq => hne (heq.trans hbefore).symm⟩

/-- The byte after a found range is not a lone one: the search would have gone
on over it. -/
theorem JoinedFound.not_lone_uEnd : ¬Lone N (fun x => CRangeMap.masked partMapOps uMask (map.stateAt x)) next.uEnd := by
  obtain ⟨first, hfirst, hsame, hreach⟩ := h.reached
  rintro ⟨-, hlt, heq, -⟩
  exact hreach.after hlt (heq.symm.trans hreach.before)

end

/-- The calling loop over a joined map ends and tiles what is left of the
window. -/
theorem JoinedOk.collect_spec (h : JoinedOk N map) (uMask : SPartRange) {it : SIterator SPartRange}
    (hr : Ready it) {sub fuel : ℕ} (hsub : map.joints.length + N + 2 < sub) (hfuel : N - max it.uEnd it.uFrom < fuel) :
    ∃ ranges, collectWith (map.iterateRanges sub uMask) fuel it = some ranges ∧
      JoinedCollected N map uMask (max it.uEnd it.uFrom) it.uTo ranges := by
  induction fuel generalizing it with
  | zero => omega
  | succ fuel ih =>
    have hlt := hr.lt
    have hto := hr.uTo_lt
    have hle := hr.uEnd_le
    rw [collectWith]
    by_cases hopen : it.uEnd = it.uTo
    · rw [CJoinedPartMap.iterateRanges, if_pos hopen]
      refine ⟨[], rfl, fun hin => ?_, fun _ => rfl, ?_⟩
      · rw [Tiles]
        omega
      · exact iff_of_true (fun range hm => by cases hm) fun k hk hk' => by omega
    · rcases Nat.lt_or_ge (max it.uEnd it.uFrom) N with hin | hpast
      · obtain ⟨next, hget, hf⟩ := h.getNextRange_found hsub hr.resume hin it.uState uMask
        have hsame := hf.same_iff it.uTo
        have hstop := hf.not_lone_uEnd
        obtain ⟨first, hfirst, -, hreach⟩ := hf.reached
        have hge := hreach.le
        have hend := hreach.last_le
        have hstep : map.iterateRanges sub uMask it = some (true, ⟨it.uFrom, it.uTo,
            max it.uEnd it.uFrom, min next.uEnd it.uTo, next.uState, next.pHint⟩) := by
          rw [CJoinedPartMap.iterateRanges, if_neg hopen, hget, Option.map_some,
            clip_found hf.found hf.uBegin_le (by omega)]
        have hresume : (if max it.uEnd it.uFrom > min next.uEnd it.uTo then max it.uEnd it.uFrom
            else min next.uEnd it.uTo) = max (min next.uEnd it.uTo) it.uFrom := by
          split <;> omega
        have hready : Ready (⟨it.uFrom, it.uTo, max it.uEnd it.uFrom, min next.uEnd it.uTo,
            next.uState, next.pHint⟩ : SIterator SPartRange) :=
          ⟨hlt, hto, Nat.min_le_right _ _, hresume⟩
        obtain ⟨ranges, hc, hrest⟩ := ih hready (show N - max (min next.uEnd it.uTo) it.uFrom < fuel by omega)
        have hcur : max (min next.uEnd it.uTo) it.uFrom = min next.uEnd it.uTo := by omega
        dsimp only at hrest
        rw [hcur] at hrest
        rw [hstep]
        dsimp only
        rw [hc, Option.map_some]
        refine ⟨_, rfl, fun _ => ⟨rfl, by dsimp only; omega, ?_⟩, fun _ => by omega, ?_⟩
        · dsimp only
          rcases Nat.lt_or_ge (min next.uEnd it.uTo) N with hlt' | hge'
          · exact hrest.tiles hlt'
          · rw [hrest.past hge', Tiles]
            omega
        · rw [List.forall_mem_cons, hrest.same_iff]
          constructor
          · rintro ⟨hfirst', hothers⟩ k hk hk'
            rcases Nat.lt_trichotomy k (min next.uEnd it.uTo) with hlow | heq | hhigh
            · exact hsame.mp (fun x h1 h2 => hfirst' x ⟨h1, h2⟩) k hk hlow
            · rw [heq, show min next.uEnd it.uTo = next.uEnd by omega]
              exact hstop
            · exact hothers k hhigh hk'
          · intro hnone
            constructor
            · rintro x ⟨h1, h2⟩
              exact hsame.mpr (fun k hk hk' => hnone k hk (by omega)) x h1 h2
            · intro k hk hk'
              exact hnone k (by omega) hk'
      · have hnone := h.getNextRange_not_found (show 0 < sub by omega) hr.resume hpast it.uState uMask
        rw [CJoinedPartMap.iterateRanges, if_neg hopen, hnone]
        refine ⟨[], rfl, fun hin => by omega, fun _ => rfl, ?_⟩
        refine iff_of_true (fun range hm => by cases hm) ?_
        rintro k hk hk' ⟨-, hk'', -⟩
        omega

end Iterate

section Windows

variable {N : ℕ} {map : CJoinedPartMap}

/-- For joints that tile the file and any contents of the linked maps, the
calling loop over a window ends, its ranges tile the window, and they carry the
masked state of each of their bytes if and only if no byte in the window, its
first one apart, differs from both its neighbours while these agree. -/
theorem iterateRanges_joined_iff (h : JoinedOk N map) {uFrom uTo : ℕ} (hlt : uFrom < uTo)
    (hto : uTo < 2 ^ 64) (uMask : SPartRange) :
    (∃ ranges, collectWith (map.iterateRanges (map.joints.length + N + 3) uMask) (N + 1)
        (CRangeMap.iterator partMapOps uFrom uTo false) = some ranges ∧
      (uFrom < N → Tiles uFrom (min uTo N) ranges) ∧ (N ≤ uFrom → ranges = []) ∧
      ∀ range ∈ ranges, ∀ x, range.Covers x → CRangeMap.masked partMapOps uMask range.value =
          CRangeMap.masked partMapOps uMask (map.stateAt x)) ↔
    ∀ k, uFrom < k → k < uTo → ¬Lone N (fun x => CRangeMap.masked partMapOps uMask (map.stateAt x)) k := by
  have hcur : max (CRangeMap.iterator partMapOps uFrom uTo false).uEnd
      (CRangeMap.iterator partMapOps uFrom uTo false).uFrom = uFrom := Nat.zero_max uFrom
  obtain ⟨ranges, hc, hspec⟩ := h.collect_spec uMask (ready_iterator partMapOps hlt hto false)
    (show map.joints.length + N + 2 < map.joints.length + N + 3 by omega)
    (show N - max (CRangeMap.iterator partMapOps uFrom uTo false).uEnd
      (CRangeMap.iterator partMapOps uFrom uTo false).uFrom < N + 1 by omega)
  rw [hcur] at hspec
  refine Iff.trans ?_ hspec.same_iff
  constructor
  · rintro ⟨other, hc', -, -, hsame⟩
    rw [hc, Option.some.injEq] at hc'
    rw [hc']
    exact hsame
  · intro hsame
    exact ⟨ranges, hc, hspec.tiles, hspec.past, hsame⟩

/-- A file of three sub-files, the one in the middle with one byte, which is
available. -/
def threeJoints : CJoinedPartMap where
  joints :=
    [(minusOne - 11, ⟨11, 20, 3, some ⟨CRangeMap.create partMapOps 9, []⟩⟩),
      (minusOne - 10, ⟨10, 11, 2, some ⟨(CRangeMap.create partMapOps 1).setRange partMapOps 0 1
        (SPartRange.ofStates 1) ESet.eSet, []⟩⟩),
      (minusOne - 0, ⟨0, 10, 1, some ⟨CRangeMap.create partMapOps 10, []⟩⟩)]

/-- The three sub-files fit together. -/
theorem threeJoints_ok : JoinedOk 20 threeJoints where
  tiles := by decide
  key := by decide
  joint := by
    have hshared : ∀ {size : ℕ} {map : CRangeMap SPartRange}, Canonical partMapOps size map →
        size < 2 ^ 64 → SharedOk size ⟨map, []⟩ := fun hc hs =>
      ⟨hc, hs, fun link hm => by cases hm⟩
    intro joint hm map hp
    simp only [threeJoints, List.mem_cons, List.not_mem_nil, or_false] at hm
    rcases hm with rfl | rfl | rfl
    · rw [← Option.some.inj hp]
      exact hshared (canonical_create _ (by decide)) (by decide)
    · rw [← Option.some.inj hp]
      exact hshared (setRange_canonical (canonical_create _ (by decide)) (by decide) (by decide)
        (by decide) _ _) (by decide)
    · rw [← Option.some.inj hp]
      exact hshared (canonical_create _ (by decide)) (by decide)
  fits := by decide

/-- The byte in the middle is returned with the state of its neighbours. -/
theorem iterateRanges_skips_byte : JoinedOk 20 threeJoints ∧
      ∃ ranges, collectWith (threeJoints.iterateRanges (3 + 20 + 3) noState) (20 + 1)
        (CRangeMap.iterator partMapOps 0 20 false) = some ranges ∧
        ∃ range ∈ ranges, range.Covers 10 ∧ CRangeMap.masked partMapOps noState range.value ≠
            CRangeMap.masked partMapOps noState (threeJoints.stateAt 10) :=
  ⟨threeJoints_ok, [⟨0, 20, noState⟩], by decide, ⟨0, 20, noState⟩, by decide, by decide, by decide⟩

/-- The window from the sub-file in the middle on. -/
theorem iterateRanges_joined_iff_window :
    (∃ ranges, collectWith (threeJoints.iterateRanges (3 + 20 + 3) noState) (20 + 1)
        (CRangeMap.iterator partMapOps 10 20 false) = some ranges ∧
      (10 < 20 → Tiles 10 (min 20 20) ranges) ∧ (20 ≤ 10 → ranges = []) ∧
      ∀ range ∈ ranges, ∀ x, range.Covers x → CRangeMap.masked partMapOps noState range.value =
          CRangeMap.masked partMapOps noState (threeJoints.stateAt x)) ↔
    ∀ k, 10 < k → k < 20 → ¬Lone 20 (fun x => CRangeMap.masked partMapOps noState (threeJoints.stateAt x)) k :=
  iterateRanges_joined_iff threeJoints_ok (by decide) (by decide) noState

end Windows

end NeoLoader.JoinedPartMap
