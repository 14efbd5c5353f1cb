import Mathlib.Tactic.IntervalCases
import NeoLoader.HashTreeRanges
import NeoLoader.SharedRanges

/-!
# Received blocks

A received block is cut along the map of the file: what is neither available nor cached is queued for
writing and cached from now on. The map is a plain one or, for a file that consists of sub-files, a
joined one. A block that is too short, or a byte that the search in a joined map steps over, leads to
bytes that are cached and never written, or written again.
-/

namespace NeoLoader.ReceivedBlocks

open StepFunction Tiling RangeMap PartStates JoinedPartMap SharedRanges HashTreeRanges

section Model

/-- `CPartMap`: the map of a file. -/
inductive CPartMap where
  /-- The map of a single file. -/
  | single (map : CRangeMap SPartRange)
  /-- `CJoinedPartMap`: the map of a file that consists of sub-files. -/
  | joined (map : CJoinedPartMap)

/-- `IterateRanges`, for a file of the given size. -/
def CPartMap.iterateRanges (N : ℕ) (uMask : SPartRange) (it : SIterator SPartRange) :
    CPartMap → Option (Bool × SIterator SPartRange)
  | single map => some (map.iterateRanges partMapOps it uMask)
  | joined map => map.iterateRanges (map.joints.length + N + 3) uMask it

/-- `SetRange`, or `SetSharedRange` if the map is a joined one. -/
def CPartMap.setStates (uBegin uEnd : ℕ) (uStates : ℕ) (eMode : ESet) : CPartMap → CPartMap
  | single map => single (map.setRange partMapOps uBegin uEnd (SPartRange.ofStates (BitVec.ofNat 32 uStates)) eMode)
  | joined map => joined (setSharedRange (SPartRange.ofStates (BitVec.ofNat 32 uStates)) eMode map uBegin uEnd)

/-- The state of a byte. -/
def CPartMap.stateAt (x : ℕ) : CPartMap → SPartRange
  | single map => RangeMap.stateAt partMapOps map x
  | joined map => map.stateAt x

/-- `QByteArray`, whose size is an `int`. -/
structure QByteArray where
  /-- The bytes. -/
  bytes : List UInt8
  /-- Their number. -/
  size_lt : bytes.length < 2 ^ 31

def QByteArray.mid (Data : QByteArray) (pos len : ℤ) : List UInt8 :=
  if pos ≥ Data.bytes.length then []
  else
    let len := if len < 0 then Data.bytes.length - pos else len
    let len := if pos < 0 then len + pos else len
    let pos := if pos < 0 then 0 else pos
    let len := if len + pos > Data.bytes.length then Data.bytes.length - pos else len
    (Data.bytes.drop pos.toNat).take len.toNat

structure CWriteOperation where
  offset : ℕ
  data : List UInt8

/-- The flags that `CP2PTransfer::RangeReceived` looks at. -/
def uHad : ℕ := Part.Available ||| Part.Cached

/-- The body of the loop of `CP2PTransfer::RangeReceived`, with the writes queued so far. -/
def receiveBody (uBegin : ℕ) (Data : QByteArray) (FileIter : SIterator SPartRange)
    (file : CPartMap × List CWriteOperation) : CPartMap × List CWriteOperation :=
  if FileIter.uState.and uHad ≠ 0 then file
  else
    let uOffset := FileIter.uBegin - uBegin
    let uLength := FileIter.uEnd - FileIter.uBegin
    let pOperation : CWriteOperation :=
      if uOffset = 0 ∧ uLength = Data.bytes.length then ⟨uBegin, Data.bytes⟩
      else ⟨FileIter.uBegin, Data.mid (toInt uOffset) (toInt uLength)⟩
    (file.1.setStates FileIter.uBegin FileIter.uEnd Part.Cached ESet.eAdd, file.2 ++ [pOperation])

/-- The loop of `CP2PTransfer::RangeReceived`. Without fuel there is no result. -/
def receiveLoop (N uBegin : ℕ) (Data : QByteArray) : ℕ → CPartMap × List CWriteOperation → SIterator SPartRange →
      Option (CPartMap × List CWriteOperation)
  | 0, _, _ => none
  | fuel + 1, file, FileIter =>
    match file.1.iterateRanges N (SPartRange.ofStates (BitVec.ofNat 32 uHad)) FileIter with
    | none => none
    | some (false, _) => some file
    | some (true, FileIter) =>
      receiveLoop N uBegin Data fuel (receiveBody uBegin Data FileIter file) FileIter

/-- `CP2PTransfer::RangeReceived` up to the release of the range: the new map, and the writes that are
queued. -/
def rangeReceived (N uBegin uEnd : ℕ) (Data : QByteArray) (bComplete : Bool) (parts : CPartMap) :
    Option (CPartMap × List CWriteOperation) :=
  if bComplete then some (parts, [])
  else receiveLoop N uBegin Data (N + 1) (parts, []) (CRangeMap.iterator partMapOps uBegin uEnd true)

end Model

section Bytes

/-- Whether a byte is available. -/
def available (parts : CPartMap) (x : ℕ) : Bool := bit (parts.stateAt x) 0

/-- Whether a byte is cached. -/
def cached (parts : CPartMap) (x : ℕ) : Bool := bit (parts.stateAt x) 3

/-- Whether a byte is not to be written again. -/
def had (parts : CPartMap) (x : ℕ) : Bool := available parts x || cached parts x

theorem had_of_state {parts parts' : CPartMap} {x : ℕ} (h : parts'.stateAt x = parts.stateAt x) :
    had parts' x = had parts x := by
  unfold had available cached
  rw [h]

/-- What the queued writes write to an offset. -/
def queuedAt (writes : List CWriteOperation) (x : ℕ) : List UInt8 :=
  writes.filterMap fun w => if w.offset ≤ x then w.data[x - w.offset]? else none

/-- The write covers the byte. -/
def CWriteOperation.Covers (w : CWriteOperation) (x : ℕ) : Prop :=
  w.offset ≤ x ∧ x < w.offset + w.data.length

/-- The flags of a state under a mask of two flags. -/
theorem and_uHad (s : SPartRange) : s.and uHad ≠ 0 ↔ (bit s 0 || bit s 3) = true := by
  have hbits : ∀ k, (BitVec.ofNat 32 uHad).getLsbD k = true ↔ k = 0 ∨ k = 3 := by
    intro k
    by_cases hk : k < 4
    · interval_cases k <;> decide
    · have hfalse : (BitVec.ofNat 32 uHad).getLsbD k = false := by
        rw [BitVec.getLsbD_ofNat, Nat.testBit_lt_two_pow, Bool.and_false]
        exact lt_of_lt_of_le (show uHad < 2 ^ 4 by decide) (Nat.pow_le_pow_right (by omega) (by omega))
      rw [hfalse]
      exact ⟨fun h => Bool.noConfusion h, fun h => by omega⟩
  unfold SPartRange.and bit
  rw [Bool.or_eq_true]
  constructor
  · intro hne
    by_contra hno
    refine hne (BitVec.eq_of_getLsbD_eq fun k hk => ?_)
    rw [BitVec.getLsbD_and]
    by_cases hb : k = 0 ∨ k = 3
    · rcases hb with rfl | rfl
      · rw [Bool.eq_false_iff.mpr fun h => hno (Or.inl h), Bool.false_and]
        rfl
      · rw [Bool.eq_false_iff.mpr fun h => hno (Or.inr h), Bool.false_and]
        rfl
    · rw [Bool.eq_false_iff.mpr fun h => hb ((hbits k).mp h), Bool.and_false]
      exact BitVec.getLsbD_zero.symm
  · rintro hset hzero
    have hk : ∀ k, k = 0 ∨ k = 3 → s.uStates.getLsbD k = false := by
      intro k hk
      have hbit : (s.uStates &&& BitVec.ofNat 32 uHad).getLsbD k = (0 : BitVec 32).getLsbD k :=
        congrArg (fun w => BitVec.getLsbD w k) hzero
      rw [BitVec.getLsbD_and, (hbits k).mpr hk, Bool.and_true] at hbit
      exact hbit.trans BitVec.getLsbD_zero
    rcases hset with h | h
    · rw [hk 0 (Or.inl rfl)] at h
      cases h
    · rw [hk 3 (Or.inr rfl)] at h
      cases h

theorem bit_masked (s : SPartRange) {k : ℕ} (hk : k = 0 ∨ k = 3) :
    bit (CRangeMap.masked partMapOps (SPartRange.ofStates (BitVec.ofNat 32 uHad)) s) k = bit s k := by
  have hset : partMapOps.stateSet (SPartRange.ofStates (BitVec.ofNat 32 uHad)) = true := by decide
  have hmask : (SPartRange.ofStates (BitVec.ofNat 32 uHad)).uStates.getLsbD k = true := by
    rcases hk with rfl | rfl <;> decide
  have hplain : Plain k := by
    rcases hk with rfl | rfl <;> exact ⟨by omega, by omega, by omega⟩
  rw [CRangeMap.masked, if_pos hset]
  refine (bit_inter _ _ hplain).trans ?_
  rw [bit, bit, hmask, Bool.and_true]

end Bytes

section Maps

variable {N : ℕ} {parts : CPartMap}

/-- The map covers a file of the given size. -/
def CPartMap.Ok (N : ℕ) : CPartMap → Prop
  | single map => Canonical partMapOps N map ∧ N < 2 ^ 64
  | joined map => JoinedOk N map

/-- The flags of a byte can be set and cleared: in a joined map its sub-file has to be loaded, and no
joined map may have these flags of its own. -/
def CPartMap.Settable (x : ℕ) : CPartMap → Prop
  | single _ => True
  | joined map => ∀ joint ∈ map.joints, joint.2.span.Covers x → ∃ shared, joint.2.pMap = some shared ∧
      LinksClear shared (x - joint.2.uShareBegin) 0 ∧ LinksClear shared (x - joint.2.uShareBegin) 3

/-- The search of a joined map does not look at every byte: one that it steps over between two bytes of
the same state has to be had like these. -/
def CPartMap.Seen (N cur uTo : ℕ) : CPartMap → Prop
  | single _ => True
  | joined map => ∀ k, cur < k → k < uTo → Lone N (fun x =>
      CRangeMap.masked partMapOps (SPartRange.ofStates (BitVec.ofNat 32 uHad)) (map.stateAt x)) k →
      had (joined map) k = had (joined map) (k - 1)

/-- The iterator is one of the map. -/
def CPartMap.Hinted (it : SIterator SPartRange) : CPartMap → Prop
  | single map => HintOk map it.pHint
  | joined _ => True

/-- What setting or clearing flags does to a byte of its range. -/
def Changed (eMode : ESet) (uStates : ℕ) (was now : SPartRange) : Prop :=
  ∀ k, k = 0 ∨ k = 3 → bit now k = match eMode with
    | ESet.eClr => bit was k && !(BitVec.ofNat 32 uStates).getLsbD k
    | _ => bit was k || (BitVec.ofNat 32 uStates).getLsbD k

theorem changed_makeState {eMode : ESet} (hmode : eMode ≠ ESet.eSet) (uStates : ℕ) (was : SPartRange) :
    Changed eMode uStates was (SPartRange.makeState was (SPartRange.ofStates (BitVec.ofNat 32 uStates)) eMode) := by
  intro k hk
  have hplain : Plain k := by
    rcases hk with rfl | rfl <;> exact ⟨by omega, by omega, by omega⟩
  cases eMode with
  | eSet => exact absurd rfl hmode
  | eAdd => exact bit_add was _ hplain
  | eClr => exact bit_clr was _ hplain

/-- What an update of a range does to the map. -/
structure SetSpec (N uBegin uEnd uStates : ℕ) (eMode : ESet) (parts parts' : CPartMap) : Prop where
  /-- The map still covers the file. -/
  ok : parts'.Ok N
  /-- The other bytes are as they were. -/
  outside : ∀ x < N, ¬(uBegin ≤ x ∧ x < uEnd) → parts'.stateAt x = parts.stateAt x
  /-- The bytes of the range are changed. -/
  inside : ∀ x, uBegin ≤ x → x < uEnd → parts.Settable x → Changed eMode uStates (parts.stateAt x) (parts'.stateAt x)
  /-- What can be set and cleared stays so. -/
  settable : ∀ x, parts.Settable x → parts'.Settable x
  /-- Every change makes a hint outdated. -/
  hinted : ∀ it, parts.Hinted it → parts'.Hinted it

/-- An update of a range of a joined map. -/
theorem setSpec_joined {map : CJoinedPartMap} (h : JoinedOk N map) {uBegin uEnd : ℕ}
    (hlt : uBegin < uEnd) (hend : uEnd ≤ N) (uStates : ℕ) {eMode : ESet} (hmode : eMode ≠ ESet.eSet) :
    SetSpec N uBegin uEnd uStates eMode (CPartMap.joined map)
      ((CPartMap.joined map).setStates uBegin uEnd uStates eMode) := by
  generalize huState : SPartRange.ofStates (BitVec.ofNat 32 uStates) = uState
  have hset : (CPartMap.joined map).setStates uBegin uEnd uStates eMode =
      CPartMap.joined (setSharedRange uState eMode map uBegin uEnd) := by
    rw [← huState]
    rfl
  have hok : JoinedOk N (setSharedRange uState eMode map uBegin uEnd) :=
    joinedOk_setSharedRange h hlt hend
  have hjoints : setSharedRange uState eMode map uBegin uEnd =
      ⟨map.joints.map fun joint => (joint.1, setPart uState eMode uBegin uEnd joint.2)⟩ :=
    setSharedRange_eq h hlt hend
  have hstate : ∀ joint ∈ map.joints, ∀ x, joint.2.span.Covers x →
      (setSharedRange uState eMode map uBegin uEnd).stateAt x =
        (setPart uState eMode uBegin uEnd joint.2).stateAt x := by
    intro joint hm x hx
    obtain ⟨hb, he⟩ := span_setPart uState eMode uBegin uEnd joint.2
    have hnew : (joint.1, setPart uState eMode uBegin uEnd joint.2) ∈
        (setSharedRange uState eMode map uBegin uEnd).joints := by
      rw [hjoints]
      exact List.mem_map_of_mem hm
    exact hok.stateAt_eq hnew ⟨hb.trans_le hx.1, hx.2.trans_eq he.symm⟩
  rw [hset]
  refine ⟨hok, fun x hx hout => ?_, fun x h1 h2 hs => ?_, fun x hs => ?_, fun _ _ => trivial⟩
  · obtain ⟨joint, hm, hcovers⟩ := exists_covers h hx
    refine (hstate joint hm x hcovers).trans ?_
    rw [stateAt_setPart (h.joint joint hm) hcovers.1 hcovers.2, if_neg hout]
    exact (h.stateAt_eq hm hcovers).symm
  · obtain ⟨joint, hm, hcovers⟩ := exists_covers h (show x < N by omega)
    obtain ⟨shared, hp, hclear⟩ := hs joint hm hcovers
    have hnow := (hstate joint hm x hcovers).trans (stateAt_setPart (h.joint joint hm) hcovers.1 hcovers.2)
    rw [if_pos ⟨h1, h2⟩, hp] at hnow
    have hwas : map.stateAt x = shownState shared (x - joint.2.uShareBegin)
        (RangeMap.stateAt partMapOps shared.partMap (x - joint.2.uShareBegin)) := by
      rw [h.stateAt_eq hm hcovers, SPartMapLink.stateAt, hp]
      rfl
    intro k hk
    have hplain : Plain k := by
      rcases hk with rfl | rfl <;> exact ⟨by omega, by omega, by omega⟩
    have hclear' : LinksClear shared (x - joint.2.uShareBegin) k := by
      rcases hk with rfl | rfl
      exacts [hclear.1, hclear.2]
    have hchanged := changed_makeState hmode uStates
      (RangeMap.stateAt partMapOps shared.partMap (x - joint.2.uShareBegin)) k hk
    have hb : bit ((CPartMap.joined (setSharedRange uState eMode map uBegin uEnd)).stateAt x) k =
        bit (SPartRange.makeState (RangeMap.stateAt partMapOps shared.partMap
          (x - joint.2.uShareBegin)) uState eMode) k :=
      (congrArg (fun s => bit s k) hnow).trans (bit_shownState hplain hclear' _)
    have hb' : bit ((CPartMap.joined map).stateAt x) k =
        bit (RangeMap.stateAt partMapOps shared.partMap (x - joint.2.uShareBegin)) k :=
      (congrArg (fun s => bit s k) hwas).trans (bit_shownState hplain hclear' _)
    rw [hb, hb', ← huState]
    exact hchanged
  · intro joint hm hcovers
    rw [hjoints] at hm
    obtain ⟨old, hold, rfl⟩ := List.mem_map.mp hm
    obtain ⟨hb, he⟩ := span_setPart uState eMode uBegin uEnd old.2
    obtain ⟨shared, hp, hclear⟩ := hs old hold ⟨hb.symm.trans_le hcovers.1, hcovers.2.trans_eq he⟩
    dsimp only
    rw [hb]
    unfold setPart
    split_ifs
    · refine ⟨sharedSetRange uState eMode shared (max uBegin old.2.uShareBegin - old.2.uShareBegin)
        (min old.2.uShareEnd uEnd - old.2.uShareBegin), ?_, hclear⟩
      dsimp only [setSection]
      rw [hp, Option.map_some]
    · exact ⟨shared, hp, hclear⟩

/-- An update of a range of any map. -/
theorem setSpec (h : parts.Ok N) {uBegin uEnd : ℕ} (hlt : uBegin < uEnd) (hend : uEnd ≤ N)
    (uStates : ℕ) {eMode : ESet} (hmode : eMode ≠ ESet.eSet) :
    SetSpec N uBegin uEnd uStates eMode parts (parts.setStates uBegin uEnd uStates eMode) := by
  cases parts with
  | single map =>
    obtain ⟨hc, hN⟩ := h
    have hstate := stateAt_setRange hc hN hlt hend (SPartRange.ofStates (BitVec.ofNat 32 uStates)) eMode
    refine ⟨⟨setRange_canonical hc hN hlt hend _ _, hN⟩, fun x _ hout => ?_, fun x h1 h2 _ => ?_,
      fun _ _ => trivial, fun it hh => ?_⟩
    · exact (hstate x).trans (if_neg hout)
    · have hnow := (hstate x).trans (if_pos ⟨h1, h2⟩)
      have hchanged := changed_makeState hmode uStates (RangeMap.stateAt partMapOps map x)
      intro k hk
      exact (congrArg (fun s => bit s k) hnow).trans (hchanged k hk)
    · exact HintOk.setRange hh _ _ _ _
  | joined map => exact setSpec_joined h hlt hend uStates hmode

end Maps

section Iteration

variable {N : ℕ} {parts : CPartMap}

/-- A step of the iteration: the bytes from where it stands up to the end of the range have been had
alike, as the state of the range tells. -/
structure StepSpec (N cur uTo : ℕ) (parts : CPartMap) (it : SIterator SPartRange) : Prop where
  /-- The range starts where the iteration stands. -/
  uBegin : it.uBegin = cur
  /-- It is not empty. -/
  lt : cur < it.uEnd
  /-- It ends in the window. -/
  le_uTo : it.uEnd ≤ uTo
  /-- It ends in the file. -/
  le : it.uEnd ≤ N
  /-- The hint is one of the map. -/
  hinted : parts.Hinted it
  /-- The state of the range tells which bytes are had. -/
  same : parts.Seen N cur uTo → ∀ x, cur ≤ x → x < it.uEnd → (it.uState.and uHad ≠ 0 ↔ had parts x = true)

theorem had_congr {s t : SPartRange} (h : CRangeMap.masked partMapOps (SPartRange.ofStates (BitVec.ofNat 32 uHad)) s =
      CRangeMap.masked partMapOps (SPartRange.ofStates (BitVec.ofNat 32 uHad)) t) :
    (bit s 0 || bit s 3) = (bit t 0 || bit t 3) := by
  rw [← bit_masked s (Or.inl rfl), ← bit_masked s (Or.inr rfl), h, bit_masked t (Or.inl rfl), bit_masked t (Or.inr rfl)]

theorem had_masked (s : SPartRange) :
    (bit (CRangeMap.masked partMapOps (SPartRange.ofStates (BitVec.ofNat 32 uHad)) s) 0 ||
      bit (CRangeMap.masked partMapOps (SPartRange.ofStates (BitVec.ofNat 32 uHad)) s) 3) =
      (bit s 0 || bit s 3) := by
  rw [bit_masked s (Or.inl rfl), bit_masked s (Or.inr rfl)]

section

variable (h : parts.Ok N) {it : SIterator SPartRange} (hr : Ready it) (hh : parts.Hinted it)

include h hr hh

/-- In the file a step returns the next range. -/
theorem iterateRanges_step (hopen : it.uEnd ≠ it.uTo) (hin : max it.uEnd it.uFrom < N) :
    ∃ it', parts.iterateRanges N (SPartRange.ofStates (BitVec.ofNat 32 uHad)) it = some (true, it') ∧
      it'.uFrom = it.uFrom ∧ it'.uTo = it.uTo ∧ StepSpec N (max it.uEnd it.uFrom) it.uTo parts it' := by
  have hlt := hr.lt
  have hle := hr.uEnd_le
  cases parts with
  | single map =>
    obtain ⟨hc, hN⟩ := h
    obtain ⟨next, hf, hhint, he⟩ := iterateRanges_found hc hN hr hh hopen hin
      (SPartRange.ofStates (BitVec.ofNat 32 uHad))
    have hend := hf.lt_uEnd
    have hend' := hf.uEnd_le
    refine ⟨_, congrArg some he, rfl, rfl, rfl, ?_, Nat.min_le_right _ _, ?_, hhint, ?_⟩
    · dsimp only
      omega
    · dsimp only
      omega
    · intro _ x h1 h2
      dsimp only at h2
      have hseen := hf.same x (hf.uBegin_le.trans h1) (by omega)
      rw [seen, hc.valueAt_eq_stateAt (by omega), Option.map_some, Option.some.injEq] at hseen
      rw [and_uHad]
      dsimp only
      rw [← hseen, had_masked]
      exact Iff.rfl
  | joined map =>
    obtain ⟨next, hget, hf⟩ := JoinedOk.getNextRange_found h
      (show map.joints.length + N + 2 < map.joints.length + N + 3 by omega) hr.resume hin it.uState
      (SPartRange.ofStates (BitVec.ofNat 32 uHad))
    obtain ⟨first, hfirst, hfirst', hreach⟩ := hf.reached
    have hge := hreach.le
    have hend := hreach.last_le
    have hstep : (CPartMap.joined map).iterateRanges N (SPartRange.ofStates (BitVec.ofNat 32 uHad)) it =
        some (true, ⟨it.uFrom, it.uTo, max it.uEnd it.uFrom, min next.uEnd it.uTo, next.uState, next.pHint⟩) := by
      rw [CPartMap.iterateRanges, CJoinedPartMap.iterateRanges, if_neg hopen, hget, Option.map_some,
        clip_found hf.found hf.uBegin_le (by omega)]
    refine ⟨_, hstep, rfl, rfl, rfl, ?_, Nat.min_le_right _ _, ?_, trivial, ?_⟩
    · dsimp only
      omega
    · dsimp only
      omega
    · intro hseen x h1 h2
      dsimp only at h2
      have hhad : had (CPartMap.joined map) x = (bit next.uState 0 || bit next.uState 3) := by
        rcases Nat.lt_or_ge x first with hlow | hhigh
        · exact congrArg (fun s => bit s 0 || bit s 3) (hfirst' x h1 hlow)
        · rcases hreach.bytes x hhigh (by omega) with heq | ⟨hin', hbefore, hafter⟩
          · exact had_congr heq
          · by_cases heq : CRangeMap.masked partMapOps (SPartRange.ofStates (BitVec.ofNat 32 uHad))
                (map.stateAt x) = CRangeMap.masked partMapOps
                  (SPartRange.ofStates (BitVec.ofNat 32 uHad)) (map.stateAt (x - 1))
            · exact had_congr (heq.trans hbefore)
            · rw [hseen x (by omega) (by omega) ⟨by omega, by omega, hbefore.trans hafter.symm, heq⟩]
              exact had_congr hbefore
      rw [and_uHad]
      dsimp only
      rw [hhad]

/-- Past the file a step finds nothing. -/
theorem iterateRanges_end (hpast : it.uEnd = it.uTo ∨ N ≤ max it.uEnd it.uFrom) :
    ∃ it', parts.iterateRanges N (SPartRange.ofStates (BitVec.ofNat 32 uHad)) it = some (false, it') := by
  by_cases hopen : it.uEnd = it.uTo
  · cases parts with
    | single map => exact ⟨it, congrArg some (iterateRanges_done hopen _)⟩
    | joined map =>
      refine ⟨it, ?_⟩
      rw [CPartMap.iterateRanges, CJoinedPartMap.iterateRanges, if_pos hopen]
  · have hend := hpast.resolve_left hopen
    cases parts with
    | single map => exact ⟨_, congrArg some (iterateRanges_past h.1 h.2 hr hh hopen hend _)⟩
    | joined map =>
      have hnone := JoinedOk.getNextRange_not_found h
        (show 0 < map.joints.length + N + 3 by omega) hr.resume hend it.uState
        (SPartRange.ofStates (BitVec.ofNat 32 uHad))
      refine ⟨{ it with uEnd := max it.uEnd it.uFrom, pHint := none }, ?_⟩
      rw [CPartMap.iterateRanges, CJoinedPartMap.iterateRanges, if_neg hopen, hnone]
      rfl

end

/-- What is seen from an offset on only depends on the bytes from there on. -/
theorem seen_later {parts' : CPartMap} {b cur uTo : ℕ} (hkind : parts.Seen N b uTo)
    (hle : b ≤ cur) (hsame : ∀ x < N, cur ≤ x → parts'.stateAt x = parts.stateAt x)
    (hjoined : ∀ map', parts' = CPartMap.joined map' → ∃ map, parts = CPartMap.joined map) : parts'.Seen N cur uTo := by
  cases parts' with
  | single map' => trivial
  | joined map' =>
    obtain ⟨map, rfl⟩ := hjoined map' rfl
    intro k hk hk' hlone
    obtain ⟨h1, h2, h3, h4⟩ := hlone
    have hx : ∀ x < N, cur ≤ x → map'.stateAt x = map.stateAt x := hsame
    dsimp only at h3 h4
    rw [hx _ (by omega) (by omega), hx _ h2 (by omega)] at h3
    rw [hx _ (by omega) (by omega), hx _ (by omega) (by omega)] at h4
    rw [had_of_state (hsame k (by omega) (by omega)), had_of_state (hsame (k - 1) (by omega) (by omega))]
    exact hkind k (by omega) hk' ⟨h1, h2, h3, h4⟩

end Iteration

section Queue

theorem queuedAt_append (writes : List CWriteOperation) (w : CWriteOperation) (x : ℕ) :
    queuedAt (writes ++ [w]) x = queuedAt writes x ++
      (if w.offset ≤ x then w.data[x - w.offset]? else none).toList := by
  rw [queuedAt, List.filterMap_append, queuedAt]
  congr 1

theorem mid_eq (Data : QByteArray) {uOffset uLength : ℕ} (h : uOffset + uLength ≤ Data.bytes.length)
    (hpos : 0 < uLength) : Data.mid (toInt uOffset) (toInt uLength) = (Data.bytes.drop uOffset).take uLength := by
  have hsize := Data.size_lt
  rw [toInt_eq (by omega), toInt_eq (by omega)]
  unfold QByteArray.mid
  dsimp only
  rw [if_neg (by omega), if_neg (by omega), if_neg (by omega), if_neg (by omega), if_neg (by omega),
    Int.toNat_natCast, Int.toNat_natCast]

theorem getElem?_middle (bytes : List UInt8) {first count : ℕ} {i : ℕ} (hi : i < count) :
    ((bytes.drop first).take count)[i]? = bytes[first + i]? := by
  rw [List.getElem?_take_of_lt hi, List.getElem?_drop]

end Queue

section Loop

variable {N uBegin uEnd : ℕ} {Data : QByteArray} {parts₀ : CPartMap}

/-- The loop has come to an offset: the bytes before it that were not had are queued and cached, and
nothing else has changed. -/
structure Walked (N uBegin : ℕ) (Data : QByteArray) (parts₀ : CPartMap) (cur : ℕ)
    (file : CPartMap × List CWriteOperation) : Prop where
  /-- The map covers the file. -/
  ok : file.1.Ok N
  /-- What could be set and cleared still can be. -/
  settable : ∀ x, parts₀.Settable x → file.1.Settable x
  /-- A joined map stays one. -/
  joined : ∀ map', file.1 = CPartMap.joined map' → ∃ map, parts₀ = CPartMap.joined map
  /-- The bytes that were had, and those around the range, are as they were. -/
  kept : ∀ x < N, had parts₀ x = true ∨ x < uBegin ∨ cur ≤ x → file.1.stateAt x = parts₀.stateAt x
  /-- The others are cached, and not available. -/
  cached : ∀ x < N, had parts₀ x = false → uBegin ≤ x → x < cur → cached file.1 x = true ∧ available file.1 x = false
  /-- The bytes that were had, and those around the range, are not queued. -/
  unqueued : ∀ x, had parts₀ x = true ∨ x < uBegin ∨ cur ≤ x → queuedAt file.2 x = []
  /-- The others are queued once, each with its byte of the block. -/
  queued : ∀ x < N, had parts₀ x = false → uBegin ≤ x → x < cur →
    ∃ byte, Data.bytes[x - uBegin]? = some byte ∧ queuedAt file.2 x = [byte]
  /-- The writes lie in the part of the range that was walked. -/
  writes : ∀ w ∈ file.2, w.data ≠ [] ∧ uBegin ≤ w.offset ∧ w.offset + w.data.length ≤ cur ∧ w.offset + w.data.length ≤ N

/-- The bytes that are to be written can be: the block has them, and the map can mark them. -/
def Covered (N uBegin uEnd : ℕ) (Data : QByteArray) (parts : CPartMap) : Prop :=
  ∀ x < N, uBegin ≤ x → x < uEnd → had parts x = false → x - uBegin < Data.bytes.length ∧ parts.Settable x

/-- The body of the loop takes the invariant over a range. -/
theorem receiveBody_walked (hcovered : Covered N uBegin uEnd Data parts₀) {cur : ℕ}
    (hfrom : uBegin ≤ cur) {file : CPartMap × List CWriteOperation}
    (hw : Walked N uBegin Data parts₀ cur file) {it : SIterator SPartRange}
    (hseen : parts₀.Seen N uBegin uEnd) (hs : StepSpec N cur uEnd file.1 it) :
    Walked N uBegin Data parts₀ it.uEnd (receiveBody uBegin Data it file) ∧
      (receiveBody uBegin Data it file).1.Hinted it := by
  have hlt := hs.lt
  have hle := hs.le
  have hto := hs.le_uTo
  have hahead : ∀ x < N, cur ≤ x → file.1.stateAt x = parts₀.stateAt x := fun x hx hc =>
    hw.kept x hx (Or.inr (Or.inr hc))
  have hsame : ∀ x, cur ≤ x → x < it.uEnd → (it.uState.and uHad ≠ 0 ↔ had parts₀ x = true) := by
    intro x h1 h2
    rw [← had_of_state (hahead x (by omega) h1)]
    exact hs.same (seen_later hseen hfrom hahead hw.joined) x h1 h2
  unfold receiveBody
  by_cases hskip : it.uState.and uHad ≠ 0
  · rw [if_pos hskip]
    have hall : ∀ x, cur ≤ x → x < it.uEnd → had parts₀ x = true := fun x h1 h2 =>
      (hsame x h1 h2).mp hskip
    refine ⟨⟨hw.ok, hw.settable, hw.joined, fun x hx hor => ?_, fun x hx hno h1 h2 => ?_,
      fun x hor => ?_, fun x hx hno h1 h2 => ?_, fun w hm => ?_⟩, hs.hinted⟩
    · exact hw.kept x hx (hor.imp_right (Or.imp_right fun h => by omega))
    · refine hw.cached x hx hno h1 (not_le.mp fun hge => ?_)
      rw [hall x hge h2] at hno
      cases hno
    · exact hw.unqueued x (hor.imp_right (Or.imp_right fun h => by omega))
    · refine hw.queued x hx hno h1 (not_le.mp fun hge => ?_)
      rw [hall x hge h2] at hno
      cases hno
    · obtain ⟨h1, h2, h3, h4⟩ := hw.writes w hm
      exact ⟨h1, h2, by omega, h4⟩
  · rw [if_neg hskip]
    dsimp only
    rw [hs.uBegin]
    have hnone : ∀ x, cur ≤ x → x < it.uEnd → had parts₀ x = false := fun x h1 h2 =>
      Bool.eq_false_iff.mpr fun h => hskip ((hsame x h1 h2).mpr h)
    have hlast := (hcovered (it.uEnd - 1) (by omega) (by omega) (by omega) (hnone _ (by omega) (by omega))).1
    have hwrite : (if cur - uBegin = 0 ∧ it.uEnd - cur = Data.bytes.length then
        (⟨uBegin, Data.bytes⟩ : CWriteOperation)
        else ⟨cur, Data.mid (toInt (cur - uBegin)) (toInt (it.uEnd - cur))⟩) =
        ⟨cur, (Data.bytes.drop (cur - uBegin)).take (it.uEnd - cur)⟩ := by
      split_ifs with hwhole
      · rw [hwhole.1, List.drop_zero, hwhole.2, List.take_length, show uBegin = cur by omega]
      · rw [mid_eq Data (by omega) (by omega)]
    have hlen : ((Data.bytes.drop (cur - uBegin)).take (it.uEnd - cur)).length = it.uEnd - cur := by
      rw [List.length_take, List.length_drop]
      omega
    rw [hwrite]
    have hset := setSpec hw.ok hlt hle Part.Cached (show ESet.eAdd ≠ ESet.eSet by decide)
    have hqueued : ∀ x, queuedAt (file.2 ++
        [⟨cur, (Data.bytes.drop (cur - uBegin)).take (it.uEnd - cur)⟩]) x = queuedAt file.2 x ++
          (if cur ≤ x ∧ x < it.uEnd then Data.bytes[x - uBegin]? else none).toList := by
      intro x
      rw [queuedAt_append]
      dsimp only
      by_cases hx : cur ≤ x
      · rw [if_pos hx]
        by_cases hx' : x < it.uEnd
        · rw [if_pos ⟨hx, hx'⟩, getElem?_middle _ (by omega)]
          congr 3
          omega
        · rw [if_neg fun h => hx' h.2, List.getElem?_eq_none (by omega)]
      · rw [if_neg hx, if_neg fun h => hx h.1]
    refine ⟨⟨hset.ok, fun x hs => hset.settable x (hw.settable x hs), ?_, fun x hx hor => ?_,
      fun x hx hno h1 h2 => ?_, fun x hor => ?_, fun x hx hno h1 h2 => ?_, fun w hm => ?_⟩,
      hset.hinted it hs.hinted⟩
    · intro map' hmap'
      cases hf : file.1 with
      | single map =>
        rw [hf] at hmap'
        cases hmap'
      | joined map => exact hw.joined map hf
    · have hout : ¬(cur ≤ x ∧ x < it.uEnd) := by
        rintro ⟨h1, h2⟩
        rw [hnone x h1 h2] at hor
        rcases hor with h | h | h
        · cases h
        · omega
        · omega
      rw [hset.outside x hx hout]
      exact hw.kept x hx (hor.imp_right (Or.imp_right fun h => by omega))
    · by_cases hc : x < cur
      · have hstate := hset.outside x hx (by omega)
        unfold ReceivedBlocks.cached available
        rw [hstate]
        exact hw.cached x hx hno h1 hc
      · have hchanged := hset.inside x (by omega) h2 (hw.settable x (hcovered x hx h1 (by omega) hno).2)
        have h0 := hchanged 0 (Or.inl rfl)
        have h3 := hchanged 3 (Or.inr rfl)
        dsimp only at h0 h3
        rw [hahead x hx (by omega)] at h0 h3
        have hbits : (BitVec.ofNat 32 Part.Cached).getLsbD 3 = true ∧
            (BitVec.ofNat 32 Part.Cached).getLsbD 0 = false := by decide
        unfold had at hno
        rw [Bool.or_eq_false_iff] at hno
        unfold ReceivedBlocks.cached available
        rw [h3, h0, hbits.1, hbits.2, Bool.or_true, Bool.or_false]
        exact ⟨rfl, hno.1⟩
    · have hout : ¬(cur ≤ x ∧ x < it.uEnd) := by
        rintro ⟨h1, h2⟩
        rw [hnone x h1 h2] at hor
        rcases hor with h | h | h
        · cases h
        · omega
        · omega
      rw [hqueued, if_neg hout, hw.unqueued x (hor.imp_right (Or.imp_right fun h => by omega))]
      rfl
    · by_cases hc : x < cur
      · rw [hqueued, if_neg (by omega)]
        obtain ⟨byte, hbyte, hq⟩ := hw.queued x hx hno h1 hc
        exact ⟨byte, hbyte, by rw [hq]; rfl⟩
      · have hin : x - uBegin < Data.bytes.length := (hcovered x hx h1 (by omega) hno).1
        refine ⟨Data.bytes[x - uBegin], List.getElem?_eq_getElem hin, ?_⟩
        rw [hqueued, hw.unqueued x (Or.inr (Or.inr (by omega))), if_pos ⟨by omega, h2⟩, List.getElem?_eq_getElem hin]
        rfl
    · rcases List.mem_append.mp hm with hm | hm
      · obtain ⟨h1, h2, h3, h4⟩ := hw.writes w hm
        exact ⟨h1, h2, by omega, h4⟩
      · rw [List.mem_singleton.mp hm]
        dsimp only
        refine ⟨fun hnil => ?_, hfrom, by omega, by omega⟩
        rw [hnil, List.length_nil] at hlen
        omega

/-- The loop ends, and has then come to the end of the range or of the file. -/
theorem receiveLoop_walked (hcovered : Covered N uBegin uEnd Data parts₀)
    (hseen : parts₀.Seen N uBegin uEnd) {fuel : ℕ} {file : CPartMap × List CWriteOperation}
    {it : SIterator SPartRange} (hr : Ready it) (hfrom : it.uFrom = uBegin) (hto : it.uTo = uEnd)
    (hh : file.1.Hinted it) (hfuel : N - max it.uEnd it.uFrom < fuel)
    (hw : Walked N uBegin Data parts₀ (max it.uEnd it.uFrom) file) :
    ∃ file' cur, receiveLoop N uBegin Data fuel file it = some file' ∧
      Walked N uBegin Data parts₀ cur file' ∧ min uEnd N ≤ cur ∧ cur ≤ uEnd := by
  induction fuel generalizing file it with
  | zero => omega
  | succ fuel ih =>
    have hlt := hr.lt
    have hle := hr.uEnd_le
    rw [receiveLoop]
    by_cases hdone : it.uEnd = it.uTo ∨ N ≤ max it.uEnd it.uFrom
    · obtain ⟨it', hstop⟩ := iterateRanges_end hw.ok hr hh hdone
      rw [hstop]
      exact ⟨file, _, rfl, hw, by omega, by omega⟩
    · obtain ⟨hopen, hin⟩ := not_or.mp hdone
      obtain ⟨it', hstep, hfrom', hto', hs⟩ := iterateRanges_step hw.ok hr hh hopen (not_le.mp hin)
      rw [hto] at hs
      obtain ⟨hbody, hhint⟩ := receiveBody_walked hcovered (by omega) hw hseen hs
      have hb := hs.uBegin
      have hlt' := hs.lt
      have hle' := hs.le_uTo
      have hready : Ready it' := by
        refine ⟨by omega, by rw [hto']; exact hr.uTo_lt, by omega, ?_⟩
        rw [if_neg (by omega)]
        omega
      rw [hstep]
      dsimp only
      have hmax : max it'.uEnd it'.uFrom = it'.uEnd := by omega
      exact ih hready (by omega) (by omega) hhint (by omega) (by rwa [hmax])

end Loop

section Received

variable {N uBegin uEnd : ℕ} {Data : QByteArray} {parts : CPartMap}

/-- What a received block does: the bytes that were had, and those around the range, stay as they are
and are not written; every other byte of the range is queued for writing once, with its byte of the
block, and is cached from now on. -/
structure Received (N uBegin uEnd : ℕ) (Data : QByteArray) (parts parts' : CPartMap)
    (writes : List CWriteOperation) : Prop where
  /-- The map still covers the file. -/
  ok : parts'.Ok N
  /-- The bytes around the range stay as they are. -/
  outside : ∀ x < N, ¬(uBegin ≤ x ∧ x < uEnd) → parts'.stateAt x = parts.stateAt x
  /-- So do the flags of the bytes that were had. -/
  kept : ∀ x < N, had parts x = true → available parts' x = available parts x ∧ cached parts' x = cached parts x
  /-- Neither is written. -/
  unqueued : ∀ x, had parts x = true ∨ ¬(uBegin ≤ x ∧ x < uEnd) ∨ N ≤ x → queuedAt writes x = []
  /-- The other bytes are written once. -/
  queued : ∀ x < N, had parts x = false → uBegin ≤ x → x < uEnd →
    ∃ byte, Data.bytes[x - uBegin]? = some byte ∧ queuedAt writes x = [byte]
  /-- They are cached, and not available. -/
  cached : ∀ x < N, had parts x = false → uBegin ≤ x → x < uEnd → cached parts' x = true ∧ available parts' x = false
  /-- A write has bytes, and ends in the file. -/
  writes : ∀ w ∈ writes, w.data ≠ [] ∧ w.offset + w.data.length ≤ N

theorem queuedAt_eq_nil {writes : List CWriteOperation} {x : ℕ} (h : ∀ w ∈ writes, ¬w.Covers x) :
    queuedAt writes x = [] := by
  refine List.filterMap_eq_nil_iff.mpr fun w hm => ?_
  by_cases hx : w.offset ≤ x
  · rw [if_pos hx, List.getElem?_eq_none (not_lt.mp fun hin => h w hm ⟨hx, by omega⟩)]
  · rw [if_neg hx]

/-- A block is received as it should be if it covers the bytes that were not had and the search looks at
them all. -/
theorem rangeReceived_spec (h : parts.Ok N) (hlt : uBegin < uEnd) (hto : uEnd < 2 ^ 64) (bComplete : Bool)
    (hcomplete : bComplete = true → ∀ x < N, uBegin ≤ x → x < uEnd → had parts x = true)
    (hopen : bComplete = false → parts.Seen N uBegin uEnd ∧ Covered N uBegin uEnd Data parts) :
    ∃ parts' writes, rangeReceived N uBegin uEnd Data bComplete parts = some (parts', writes) ∧
      Received N uBegin uEnd Data parts parts' writes := by
  unfold rangeReceived
  cases bComplete with
  | true =>
    refine ⟨parts, [], rfl, h, fun _ _ _ => rfl, fun _ _ _ => ⟨rfl, rfl⟩, fun _ _ => rfl,
      fun x hx hno h1 h2 => ?_, fun x hx hno h1 h2 => ?_, fun w hm => by cases hm⟩
    · rw [hcomplete rfl x hx h1 h2] at hno
      cases hno
    · rw [hcomplete rfl x hx h1 h2] at hno
      cases hno
  | false =>
    obtain ⟨hseen, hcovered⟩ := hopen rfl
    have hcur : max (CRangeMap.iterator partMapOps uBegin uEnd true).uEnd
        (CRangeMap.iterator partMapOps uBegin uEnd true).uFrom = uBegin := Nat.zero_max uBegin
    have hhint : parts.Hinted (CRangeMap.iterator partMapOps uBegin uEnd true) := by
      cases parts with
      | single map => exact hintOk_iterator h.1 uBegin uEnd true
      | joined map => trivial
    have hstart : Walked N uBegin Data parts uBegin (parts, []) :=
      ⟨h, fun _ hs => hs, fun map' hm => ⟨map', hm⟩, fun _ _ _ => rfl, fun x _ _ h1 h2 => by omega,
        fun _ _ => rfl, fun x _ _ h1 h2 => by omega, fun w hm => by cases hm⟩
    obtain ⟨file, cur, hloop, hw, hge, hle⟩ := receiveLoop_walked hcovered hseen
      (ready_iterator partMapOps hlt hto true) rfl rfl hhint
      (show N - max (CRangeMap.iterator partMapOps uBegin uEnd true).uEnd
        (CRangeMap.iterator partMapOps uBegin uEnd true).uFrom < N + 1 by omega) (by rwa [hcur])
    refine ⟨file.1, file.2, hloop, hw.ok, fun x hx hout => ?_, fun x hx hhad => ?_, fun x hor => ?_,
      fun x hx hno h1 h2 => ?_, fun x hx hno h1 h2 => ?_, fun w hm => ?_⟩
    · exact hw.kept x hx (Or.inr (by omega))
    · have hstate := hw.kept x hx (Or.inl hhad)
      unfold available ReceivedBlocks.cached
      rw [hstate]
      exact ⟨rfl, rfl⟩
    · by_cases hx : x < N
      · exact hw.unqueued x (hor.imp_right fun h => by omega)
      · refine queuedAt_eq_nil fun w hm hin => ?_
        have hend := (hw.writes w hm).2.2.2
        have hlast := hin.2
        omega
    · exact hw.queued x hx hno h1 (by omega)
    · exact hw.cached x hx hno h1 (by omega)
    · exact ⟨(hw.writes w hm).1, (hw.writes w hm).2.2.2⟩

end Received

end NeoLoader.ReceivedBlocks
