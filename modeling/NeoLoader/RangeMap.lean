import NeoLoader.StepFunction

/-!
# The range map

`CRangeMap` keeps one map entry for each range: the key is the first offset
after the range and the value is its state. The map is embedded as the list
of its entries in key order, an iterator as a position in that list, and the
virtual functions of the derived classes as one record of operations. The
revision counts the changes, so that an iterator from before a change is
recognised as outdated.
-/

namespace NeoLoader.RangeMap

open StepFunction

/-- The set modes of `CRangeMap::ESet`. -/
inductive ESet where
  | eSet
  | eAdd
  | eClr
  deriving DecidableEq, Repr

/-- The merge modes of `CRangeMap::EMerge`. -/
inductive EMerge where
  | eUnion
  | eInter
  deriving DecidableEq, Repr

/-- The virtual functions of a range map, with what every derived class
grants: the values a map can hold are closed under them, and on those
values a match is an equality. -/
structure StateOps (V : Type*) where
  /-- The default value `ValueType()`. -/
  default : V
  /-- Whether any state is set. -/
  stateSet : V → Bool
  /-- Whether two states are the same for the map. -/
  matchState : V → V → Bool
  /-- New state of a range from its current one, the given one and the mode. -/
  makeState : V → V → ESet → V
  /-- Common state of two ranges. -/
  mergeState : V → V → EMerge → V
  /-- Values a map can hold. -/
  Stored : V → Prop
  /-- Nothing is set in the default value. -/
  stateSet_default : stateSet default = false
  /-- A fresh map holds such a value. -/
  stored_default : Stored default
  /-- An update leaves such a value. -/
  stored_makeState : ∀ {u : V}, Stored u → ∀ (v : V) (eMode : ESet), Stored (makeState u v eMode)
  /-- A merge leaves such a value. -/
  stored_mergeState : ∀ {u : V}, Stored u → ∀ (v : V) (eMode : EMerge), Stored (mergeState u v eMode)
  /-- On the values a map can hold, matching is equality. -/
  matchState_iff : ∀ {u v : V}, Stored u → Stored v → (matchState u v = true ↔ u = v)

/-- The ordered map and its revision. -/
structure CRangeMap (V : Type*) where
  /-- `m_PartMap`: end offset and state of each range, in key order. -/
  partMap : List (ℕ × V)
  /-- `m_Revision`: grows with every change. -/
  revision : ℕ
  deriving DecidableEq, Repr

/-- The `uint64` value `-1`. -/
def minusOne : ℕ := 2 ^ 64 - 1

section Map

variable {V : Type*}

/-- `QMap::lowerBound`: position of the first entry whose key is not below
the given one, or the end. -/
def lowerBound (partMap : List (ℕ × V)) (key : ℕ) : ℕ :=
  partMap.findIdx fun part => key ≤ part.1

/-- `QMap::insert`: store the value under the key, replacing an entry with
the same key. -/
def qmapInsert : List (ℕ × V) → ℕ → V → List (ℕ × V)
  | [], key, value => [(key, value)]
  | part :: rest, key, value =>
    if part.1 < key then part :: qmapInsert rest key value
    else if part.1 = key then (key, value) :: rest
    else (key, value) :: part :: rest

/-- Make the key end a range: the range that spans it is split with an
`insert`. Nothing happens if the key lies past the map. -/
def splitRange (partMap : List (ℕ × V)) (key : ℕ) : Option (List (ℕ × V)) :=
  match partMap[lowerBound partMap key]? with
  | none => none
  | some part => some (if part.1 ≠ key then qmapInsert partMap key part.2 else partMap)

/-- The update loop of `SetRange`: from the position `first + count` down to
the one after `first`. -/
def updateDown (f : V → V) (first : ℕ) : ℕ → List (ℕ × V) → List (ℕ × V)
  | 0, partMap => partMap
  | count + 1, partMap =>
    updateDown f first count (partMap.modify (first + (count + 1)) fun part => (part.1, f part.2))

/-- The clean-up loop of `SetRange`: an entry goes if it matches its
successor or ends at zero. -/
def clearLoop (matchState : V → V → Bool) : List (ℕ × V) → List (ℕ × V)
  | prevPart :: part :: rest =>
    if matchState prevPart.2 part.2 || prevPart.1 == 0 then clearLoop matchState (part :: rest)
    else prevPart :: clearLoop matchState (part :: rest)
  | partMap => partMap

/-- The clean-up of `SetRange` around the positions of the two ends: one
entry before the first and one entry after the last are looked at too. -/
def clearDuplicates (matchState : V → V → Bool) (partMap : List (ℕ × V)) (first last : ℕ) : List (ℕ × V) :=
  let start := if first = 0 then first else first - 1
  let stop := if last + 1 = partMap.length then last + 1 else last + 2
  partMap.take start ++ clearLoop matchState ((partMap.take stop).drop start) ++ partMap.drop stop

end Map

namespace CRangeMap

variable {V : Type*} (ops : StateOps V)

/-- The constructor: one range over the whole size. -/
def create (size : ℕ) : CRangeMap V := ⟨[(size, ops.default)], 1⟩

/-- The last key, which is the covered size. -/
def getSize (map : CRangeMap V) : ℕ := (map.partMap.getLast?.map Prod.fst).getD 0

/-- `Reset`: back to one range, over the given size or the current one. -/
def reset (map : CRangeMap V) (size : ℕ) : CRangeMap V :=
  ⟨[(if size = minusOne then map.getSize else size, ops.default)], map.revision + 1⟩

/-- `Assign`: take over the ranges of another map. -/
def assign (map other : CRangeMap V) : CRangeMap V := ⟨other.partMap, map.revision + 1⟩

/-- `SetRange`: split at both ends, update the ranges in between, then clean
up. The iterator `End` keeps its entry when the second split inserts before
it. A range past the end of the map leaves after the failed search. -/
def setRange (map : CRangeMap V) (uBegin uEnd : ℕ) (uState : V) (eMode : ESet) : CRangeMap V :=
  let revision := map.revision + 1
  let uEnd := if uEnd = minusOne then map.getSize else uEnd
  match splitRange map.partMap uEnd with
  | none => ⟨map.partMap, revision⟩
  | some partMap =>
    match splitRange partMap uBegin with
    | none => ⟨partMap, revision⟩
    | some partMap =>
      let first := lowerBound partMap uBegin
      let last := lowerBound partMap uEnd
      let partMap := updateDown (fun v => ops.makeState v uState eMode) first (last - first) partMap
      ⟨clearDuplicates ops.matchState partMap first last, revision⟩

/-- The state as seen through a mask; an unset mask shows all of it. -/
def masked (uMask v : V) : V :=
  if ops.stateSet uMask then ops.mergeState v uMask EMerge.eInter else v

/-- The loop of `GetRange` over the entries from the last one of interest
backwards. Nothing has been collected yet while the state is `none`. -/
def getRangeLoop (uBegin : ℕ) (eMode : EMerge) (uMask : V) : List (ℕ × V) → Option V → V
  | [], uState => uState.getD ops.default
  | part :: rest, uState =>
    if part.1 ≤ uBegin then uState.getD ops.default
    else
      let uCurrent := masked ops uMask part.2
      match uState with
      | none => getRangeLoop uBegin eMode uMask rest (some uCurrent)
      | some uState =>
        getRangeLoop uBegin eMode uMask rest (some (ops.mergeState uCurrent uState eMode))

/-- `GetRange`: the merged state of the ranges that reach into the window. -/
def getRange (map : CRangeMap V) (uBegin uEnd : ℕ) (eMode : EMerge) (uMask : V) : V :=
  let uEnd := if uEnd = minusOne then map.getSize else uEnd
  let part := lowerBound map.partMap uEnd
  if part = map.partMap.length then ops.default
  else getRangeLoop ops uBegin eMode uMask (map.partMap.take (part + 1)).reverse none

end CRangeMap

/-- `SIterHint`: the revision at which the iterator was taken, and the
iterator. A fresh hint has revision zero, which no map has. -/
structure SIterHint where
  /-- Revision of the map when the iterator was stored. -/
  revision : ℕ
  /-- Position of the last entry that was returned. -/
  iter : ℕ
  deriving DecidableEq, Repr

/-- The arguments `GetNextRange` takes by reference, and its result. -/
structure NextRange (V : Type*) where
  /-- Whether a range was found. -/
  found : Bool
  /-- First offset of the range. -/
  uBegin : ℕ
  /-- First offset after the range. -/
  uEnd : ℕ
  /-- State of the range. -/
  uState : V
  /-- The hint, if the caller passes one. -/
  pHint : Option SIterHint
  deriving DecidableEq, Repr

/-- `SIterator`. The hint is absent if the iterator was made without one. -/
structure SIterator (V : Type*) where
  /-- First offset of the window. -/
  uFrom : ℕ
  /-- First offset after the window. -/
  uTo : ℕ
  /-- First offset of the current range. -/
  uBegin : ℕ
  /-- First offset after the current range. -/
  uEnd : ℕ
  /-- State of the current range. -/
  uState : V
  /-- The hint, allocated on first use. -/
  pHint : Option SIterHint
  deriving DecidableEq, Repr

namespace CRangeMap

variable {V : Type*} (ops : StateOps V)

/-- The constructor of `SIterator`. -/
def iterator (uFrom uTo : ℕ) (bHint : Bool) : SIterator V where
  uFrom := uFrom
  uTo := uTo
  uBegin := uFrom
  uEnd := 0
  uState := ops.default
  pHint := if bHint then some ⟨0, 0⟩ else none

/-- The masked loop of `GetNextRange`: go on while the next entry has the
same masked state. It keeps the key and the position of the last entry. -/
def extend (uMask uState : V) : List (ℕ × V) → ℕ → ℕ → ℕ × ℕ
  | [], uEnd, iter => (uEnd, iter)
  | part :: rest, uEnd, iter =>
    if ops.matchState uState (ops.mergeState part.2 uMask EMerge.eInter) then
      extend uMask uState rest part.1 (iter + 1)
    else (uEnd, iter)

/-- Whether the position stored in the hint still leads to the range before
the searched one. -/
def hintValid (map : CRangeMap V) (uEnd : ℕ) (hint : SIterHint) : Bool :=
  hint.revision == map.revision && ((map.partMap[hint.iter]?.map Prod.fst).getD map.getSize + 1) % 2 ^ 64 == uEnd

/-- Position of the searched entry: the one after the hint, if that is still
valid, else the result of a fresh search. -/
def position (map : CRangeMap V) (uEnd : ℕ) : Option SIterHint → ℕ
  | some hint => if hintValid map uEnd hint then hint.iter + 1 else lowerBound map.partMap uEnd
  | none => lowerBound map.partMap uEnd

/-- Start of the range whose entry stands at the position: the key before
it, or zero. -/
def startOf (map : CRangeMap V) (position : ℕ) : ℕ :=
  if position = 0 then 0 else (map.partMap[position - 1]?.map Prod.fst).getD 0

/-- `GetNextRange`: the range after `uEnd`, or the one around `uBegin` if that
is larger, with the following ranges of the same masked state. -/
def getNextRange (map : CRangeMap V) (uBegin uEnd : ℕ) (uState uMask : V) (pHint : Option SIterHint) : NextRange V :=
  let uEnd := ((if uBegin > uEnd then uBegin else uEnd) + 1) % 2 ^ 64
  let position := map.position uEnd pHint
  match map.partMap[position]? with
  | none => ⟨false, uBegin, uEnd, uState, pHint⟩
  | some part =>
    let uState := masked ops uMask part.2
    let last :=
      if ops.stateSet uMask then
        extend ops uMask uState (map.partMap.drop (position + 1)) part.1 position
      else (part.1, position)
    ⟨true, map.startOf position, last.1, uState, pHint.map fun _ => ⟨map.revision, last.2⟩⟩

end CRangeMap

section Iterate

variable {V : Type*}

/-- What `IterateRanges` makes of the range that `GetNextRange` found: it is
clipped to the window. -/
def clip (it : SIterator V) (next : NextRange V) : Bool × SIterator V :=
  let uFrom := max it.uEnd it.uFrom
  let it : SIterator V := ⟨it.uFrom, it.uTo, next.uBegin, next.uEnd, next.uState, next.pHint⟩
  if next.found = false then (false, it)
  else if it.uBegin < uFrom then
    (true, { it with uBegin := uFrom, uEnd := min it.uEnd it.uTo })
  else if it.uBegin ≥ it.uTo then (false, it)
  else (true, { it with uEnd := min it.uEnd it.uTo })

/-- `IterateRanges`: one step of the iterator. -/
def CRangeMap.iterateRanges (ops : StateOps V) (map : CRangeMap V) (it : SIterator V) (uMask : V) :
    Bool × SIterator V :=
  if it.uEnd = it.uTo then (false, it)
  else clip it (getNextRange ops map it.uBegin it.uEnd it.uState uMask it.pHint)

end Iterate

section ValueMap

variable {w : ℕ}

/-- `CValueMap::MakeState`. -/
def valueMakeState (uCur uState : BitVec w) : ESet → BitVec w
  | ESet.eAdd => uCur ||| uState
  | ESet.eClr => uCur &&& ~~~uState
  | ESet.eSet => uState

/-- `CValueMap::MergeState`. -/
def valueMergeState (uCur uState : BitVec w) : EMerge → BitVec w
  | EMerge.eUnion => uCur ||| uState
  | EMerge.eInter => uCur &&& uState

/-- The virtual functions of `CValueMap`, whose values are flags. -/
def valueMapOps (w : ℕ) : StateOps (BitVec w) where
  default := 0
  stateSet := fun uCur => uCur != 0
  matchState := fun uCur uState => uCur == uState
  makeState := valueMakeState
  mergeState := valueMergeState
  Stored := fun _ => True
  stateSet_default := bne_self_eq_false _
  stored_default := trivial
  stored_makeState := fun _ _ _ => trivial
  stored_mergeState := fun _ _ _ => trivial
  matchState_iff := fun _ _ => beq_iff_eq

end ValueMap

end NeoLoader.RangeMap
