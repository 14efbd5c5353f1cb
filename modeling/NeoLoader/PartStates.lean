import NeoLoader.RangeMap

/-!
# The states of the part maps

The status flags of a part, and the virtual functions of the maps whose values
are not plain flags: `CPartMap` keeps flags together with counters of
transfers and a priority, `CAvailMap` counts sources, and `CCacheMap` keeps two
counters. `CShareMap`, the map of one transfer, is a plain map of flags.
-/

namespace NeoLoader.PartStates

open RangeMap

section Counters

variable {w : ℕ}

/-- `NUM_CLR`: subtraction that stops at zero. -/
def numClr (a b : BitVec w) : BitVec w := if b < a then a - b else 0

/-- `NUM_OR`: the larger of two counters. -/
def numOr (a b : BitVec w) : BitVec w := if a < b then b else a

/-- `NUM_AND`: the smaller of two counters. -/
def numAnd (a b : BitVec w) : BitVec w := if b < a then b else a

theorem toNat_numClr (a b : BitVec w) : (numClr a b).toNat = a.toNat - b.toNat := by
  unfold numClr
  split_ifs with h
  · exact BitVec.toNat_sub_of_le (BitVec.le_of_lt h)
  · have hle : a.toNat ≤ b.toNat := not_lt.mp h
    rw [Nat.sub_eq_zero_of_le hle]
    exact BitVec.toNat_zero

end Counters

namespace Part

/-- Available on disk, or advertised by a peer. -/
def Available : ℕ := 0x0001

/-- Downloaded and verified. -/
def Verified : ℕ := 0x0002

/-- Hashed and found bad. -/
def Corrupt : ℕ := 0x0004

/-- Downloaded, but not written yet. -/
def Cached : ℕ := 0x0008

/-- Scheduled for download. -/
def Scheduled : ℕ := 0x0010

/-- Requested for download. -/
def Requested : ℕ := 0x0020

/-- Allocated for download. -/
def Allocated : ℕ := 0x0040

/-- Excluded from download. -/
def Disabled : ℕ := 0x0080

/-- Marked for hoster download. -/
def Marked : ℕ := 0x0400

/-- Needed soon by a stream. -/
def Stream : ℕ := 0x1000

end Part

/-- `SPartRange`: the state of a range of a part map. -/
structure SPartRange where
  /-- Whether an update is about the flags and counters. -/
  bStates : Bool
  /-- Whether an update is about the priority. -/
  bPriority : Bool
  /-- The status flags. -/
  uStates : BitVec 32
  /-- Transfers that have the range scheduled. -/
  uScheduled : BitVec 16
  /-- Transfers that have the range requested. -/
  uRequested : BitVec 16
  /-- Transfers that have the range marked. -/
  uMarked : BitVec 16
  /-- Download priority. -/
  iPriority : ℤ
  deriving DecidableEq, Repr

namespace SPartRange

/-- The constructor from flags, which counts one transfer for each of the
three counted flags. -/
def ofStates (s : BitVec 32) : SPartRange where
  bStates := true
  bPriority := true
  uStates := s
  uScheduled := if s &&& BitVec.ofNat 32 Part.Scheduled ≠ 0 then 1 else 0
  uRequested := if s &&& BitVec.ofNat 32 Part.Requested ≠ 0 then 1 else 0
  uMarked := if s &&& BitVec.ofNat 32 Part.Marked ≠ 0 then 1 else 0
  iPriority := 0

/-- `operator&`: the flags under a mask. -/
def and (s : SPartRange) (uValue : ℕ) : BitVec 32 := s.uStates &&& BitVec.ofNat 32 uValue

/-- One line of `STAT_UPD`: a counted flag is set when its counter is. -/
def statFlag (uStates : BitVec 32) (count : BitVec 16) (flag : ℕ) : BitVec 32 :=
  if count ≠ 0 then uStates ||| BitVec.ofNat 32 flag else uStates &&& ~~~BitVec.ofNat 32 flag

/-- `STAT_UPD`: the counted flags follow their counters. -/
def statUpd (a : SPartRange) : SPartRange :=
  { a with
    uStates := statFlag (statFlag (statFlag a.uStates a.uScheduled Part.Scheduled)
      a.uRequested Part.Requested) a.uMarked Part.Marked }

/-- `CPartMap::StateSet`. -/
def stateSet (uCur : SPartRange) : Bool :=
  uCur.uStates != 0 || uCur.uScheduled != 0 || uCur.uRequested != 0 || uCur.uMarked != 0 || uCur.iPriority != 0

/-- `CPartMap::MatchState`. -/
def matchState (uCur uState : SPartRange) : Bool :=
  uCur.uStates == uState.uStates && uCur.uScheduled == uState.uScheduled &&
    uCur.uRequested == uState.uRequested && uCur.uMarked == uState.uMarked &&
    uCur.iPriority == uState.iPriority

/-- `CPartMap::MakeState`. The parts of an update that it is not about leave
the current state alone. -/
def makeState (uCur uState : SPartRange) : ESet → SPartRange
  | ESet.eSet =>
    let uCur := if uState.bStates then
      { uCur with
        uStates := uState.uStates
        uScheduled := uState.uScheduled
        uRequested := uState.uRequested
        uMarked := uState.uMarked } else uCur
    if uState.bPriority then { uCur with iPriority := uState.iPriority } else uCur
  | ESet.eAdd =>
    let uCur := if uState.bStates then
      statUpd { uCur with
        uStates := uCur.uStates ||| uState.uStates
        uScheduled := uCur.uScheduled + uState.uScheduled
        uRequested := uCur.uRequested + uState.uRequested
        uMarked := uCur.uMarked + uState.uMarked } else uCur
    if uState.bPriority then { uCur with iPriority := uCur.iPriority + uState.iPriority } else uCur
  | ESet.eClr =>
    let uCur := if uState.bStates then
      statUpd { uCur with
        uStates := uCur.uStates &&& ~~~uState.uStates
        uScheduled := numClr uCur.uScheduled uState.uScheduled
        uRequested := numClr uCur.uRequested uState.uRequested
        uMarked := numClr uCur.uMarked uState.uMarked } else uCur
    if uState.bPriority then
      { uCur with
        iPriority := if uCur.iPriority > uState.iPriority then
          uCur.iPriority - uState.iPriority else 0 }
    else uCur

/-- `CPartMap::MergeState`. -/
def mergeState (uCur uState : SPartRange) : EMerge → SPartRange
  | EMerge.eUnion =>
    let uCur := statUpd { uCur with
      uStates := uCur.uStates ||| uState.uStates
      uScheduled := numOr uCur.uScheduled uState.uScheduled
      uRequested := numOr uCur.uRequested uState.uRequested
      uMarked := numOr uCur.uMarked uState.uMarked }
    { uCur with iPriority := max uCur.iPriority uState.iPriority }
  | EMerge.eInter =>
    let uCur := statUpd { uCur with
      uStates := uCur.uStates &&& uState.uStates
      uScheduled := numAnd uCur.uScheduled uState.uScheduled
      uRequested := numAnd uCur.uRequested uState.uRequested
      uMarked := numAnd uCur.uMarked uState.uMarked }
    { uCur with iPriority := min uCur.iPriority uState.iPriority }

/-- A part map holds full states only: the two selectors of a stored state are
set, whatever updates it went through. -/
def Stored (s : SPartRange) : Prop := s.bStates = true ∧ s.bPriority = true

/-- An update never touches the selectors of the current state. -/
theorem stored_makeState {u : SPartRange} (h : Stored u) (v : SPartRange) (eMode : ESet) :
    Stored (makeState u v eMode) := by
  obtain ⟨hs, hp⟩ := h
  cases eMode with
  | eSet =>
    dsimp only [makeState]
    split <;> split <;> exact ⟨hs, hp⟩
  | eAdd =>
    dsimp only [makeState]
    split <;> split <;> exact ⟨hs, hp⟩
  | eClr =>
    dsimp only [makeState]
    split <;> split <;> exact ⟨hs, hp⟩

theorem stored_mergeState {u : SPartRange} (h : Stored u) (v : SPartRange) (eMode : EMerge) :
    Stored (mergeState u v eMode) := by
  obtain ⟨hs, hp⟩ := h
  cases eMode with
  | eUnion => exact ⟨hs, hp⟩
  | eInter => exact ⟨hs, hp⟩

/-- Full states match only if they are equal. -/
theorem matchState_iff {u v : SPartRange} (hu : Stored u) (hv : Stored v) : matchState u v = true ↔ u = v := by
  obtain ⟨hus, hup⟩ := hu
  obtain ⟨hvs, hvp⟩ := hv
  cases u with
  | mk us up _ _ _ _ _ =>
    cases v with
    | mk vs vp _ _ _ _ _ =>
      dsimp only at hus hup hvs hvp
      simp only [matchState, Bool.and_eq_true, beq_iff_eq, mk.injEq, hus, hup, hvs, hvp, true_and, and_assoc]

end SPartRange

/-- The virtual functions of `CPartMap`. -/
def partMapOps : StateOps SPartRange where
  default := SPartRange.ofStates 0
  stateSet := SPartRange.stateSet
  matchState := SPartRange.matchState
  makeState := SPartRange.makeState
  mergeState := SPartRange.mergeState
  Stored := SPartRange.Stored
  stateSet_default := by decide
  stored_default := ⟨rfl, rfl⟩
  stored_makeState := SPartRange.stored_makeState
  stored_mergeState := SPartRange.stored_mergeState
  matchState_iff := SPartRange.matchState_iff

/-- The virtual functions of `CShareMap`. -/
abbrev shareMapOps : StateOps (BitVec 16) := valueMapOps 16

/-- `CAvailMap::MakeState`. -/
def availMakeState (uCur uState : BitVec 32) : ESet → BitVec 32
  | ESet.eSet => uState
  | ESet.eAdd => uCur + uState
  | ESet.eClr => numClr uCur uState

/-- `CAvailMap::MergeState`. -/
def availMergeState (uCur uState : BitVec 32) : EMerge → BitVec 32
  | EMerge.eUnion => numOr uCur uState
  | EMerge.eInter => numAnd uCur uState

/-- The virtual functions of `CAvailMap`, a `CValueMap` with counters. -/
def availMapOps : StateOps (BitVec 32) :=
  { valueMapOps 32 with
    makeState := availMakeState
    mergeState := availMergeState
    stored_makeState := fun _ _ _ => trivial
    stored_mergeState := fun _ _ _ => trivial }

/-- `SCacheRange`: the state of a range of a cache map. -/
structure SCacheRange where
  /-- Copies in the cache. -/
  uAvail : BitVec 32
  /-- Readers that need the range. -/
  uNeed : BitVec 32
  deriving DecidableEq, Repr

/-- Apply a counter operation to both counters. -/
def SCacheRange.both (f : BitVec 32 → BitVec 32 → BitVec 32) (cur state : SCacheRange) :
    SCacheRange := ⟨f cur.uAvail state.uAvail, f cur.uNeed state.uNeed⟩

/-- The virtual functions of `CCacheMap`. -/
def cacheMapOps : StateOps SCacheRange where
  default := ⟨0, 0⟩
  stateSet := fun cur => cur.uAvail != 0 || cur.uNeed != 0
  matchState := fun cur state => cur.uAvail == state.uAvail && cur.uNeed == state.uNeed
  makeState := fun cur state eMode =>
    SCacheRange.both (fun a b => availMakeState a b eMode) cur state
  mergeState := fun cur state eMode =>
    SCacheRange.both (fun a b => availMergeState a b eMode) cur state
  Stored := fun _ => True
  stateSet_default := rfl
  stored_default := trivial
  stored_makeState := fun _ _ _ => trivial
  stored_mergeState := fun _ _ _ => trivial
  matchState_iff := fun {u v} _ _ => by
    cases u with
    | mk _ _ =>
      cases v with
      | mk _ _ => simp only [Bool.and_eq_true, beq_iff_eq, SCacheRange.mk.injEq]

end NeoLoader.PartStates
