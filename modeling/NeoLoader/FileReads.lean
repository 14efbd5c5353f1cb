import NeoLoader.PartStates
import NeoLoader.RangeMapIteration

/-!
# Reads of shared files

A file that peers request blocks of is complete, or has a map of the states of its bytes. Blocks
are read from disk some time after they were requested, and as much is read as there is.
-/

namespace NeoLoader.FileReads

open StepFunction RangeMap PartStates

/-- A file that is shared. An incomplete file must have a part map. -/
structure CFile where
  /-- `GetFileSize`. -/
  uFileSize : ℕ
  isIncomplete : Bool
  /-- `GetPartMap`. -/
  partMap : Option (CRangeMap SPartRange)
  /-- Offsets are numbers of 64 bits with a sign. -/
  size_lt : uFileSize < 2 ^ 63
  /-- There is a map while the file is incomplete. -/
  has_map : isIncomplete = true → partMap.isSome
  /-- The map was made for the file. -/
  canonical : ∀ pMap ∈ partMap, Canonical partMapOps uFileSize pMap

/-- A byte is inside the file, and available in the part map if the file is incomplete. -/
def CFile.Available (pFile : CFile) (x : ℕ) : Prop :=
  x < pFile.uFileSize ∧ (pFile.isIncomplete = true → ∀ pMap ∈ pFile.partMap,
    (stateAt partMapOps pMap x).and Part.Available ≠ 0)

/-- The map that a requested block is looked up in. -/
def CFile.pMap (pFile : CFile) : Option (CRangeMap SPartRange) :=
  if pFile.isIncomplete then pFile.partMap else none

/-- A block that is requested of an incomplete part. -/
def CFile.isMissing (pFile : CFile) (uBegin uEnd : ℕ) : Bool :=
  match pFile.pMap with
  | none => false
  | some pMap => (pMap.getRange partMapOps uBegin uEnd EMerge.eInter partMapOps.default).and Part.Available = 0

/-- A file on disk, unless it cannot be opened. -/
abbrev Disk := Option (List UInt8)

/-- `QByteArray::resize`, the number of bytes is an `int`. -/
def resizeLength (uLength : ℕ) : ℕ := if uLength % 2 ^ 32 < 2 ^ 31 then uLength % 2 ^ 32 else 0

/-- `CFileIO::Read`, there is no data when the offset cannot be sought. -/
def read (disk : Disk) (offset maxSize : ℕ) : Option (List UInt8) :=
  match disk with
  | none => none
  | some content => if 2 ^ 63 ≤ offset then none else some ((content.drop offset).take maxSize)

/-- `CReadOperation::Execute`, the data and whether all was read. -/
def execute (disk : Disk) (uOffset uLength : ℕ) : List UInt8 × Bool :=
  match read disk uOffset (resizeLength uLength) with
  | none => ([], false)
  | some data => (data, data.length = resizeLength uLength)

/-- A block can be read as a whole. -/
def Readable (disk : Disk) (uOffset uLength : ℕ) : Prop :=
  uOffset < 2 ^ 63 ∧ uLength < 2 ^ 31 ∧ ∃ content, disk = some content ∧ uOffset + uLength ≤ content.length

/-- A file on disk is no longer than the file. -/
def DiskFits (disk : Disk) (uFileSize : ℕ) : Prop := ∀ content ∈ disk, content.length ≤ uFileSize

section States

theorem getLsbD_statFlag (uStates : BitVec 32) (count : BitVec 16) {flag : ℕ} {i : ℕ} (hi : i < 32)
    (hflag : (BitVec.ofNat 32 flag).getLsbD i = false) :
    (SPartRange.statFlag uStates count flag).getLsbD i = uStates.getLsbD i := by
  unfold SPartRange.statFlag
  split_ifs
  · rw [BitVec.getLsbD_or, hflag, Bool.or_false]
  · rw [BitVec.getLsbD_and, BitVec.getLsbD_not, hflag]
    simp [hi]

/-- The flag of a state is its lowest bit. -/
theorem and_available_ne_zero (s : SPartRange) : s.and Part.Available ≠ 0 ↔ s.uStates.getLsbD 0 = true := by
  have hone : ∀ i, (BitVec.ofNat 32 Part.Available).getLsbD i = decide (i = 0) := by
    intro i
    change (1#32).getLsbD i = _
    rw [BitVec.getLsbD_one]
    simp
  unfold SPartRange.and
  constructor
  · intro hne
    by_contra hbit
    refine hne (BitVec.eq_of_getLsbD_eq fun i hi => ?_)
    rw [BitVec.getLsbD_and, hone]
    by_cases hzero : i = 0
    · rw [hzero, Bool.eq_false_iff.mpr hbit, Bool.false_and]
      rfl
    · rw [decide_eq_false hzero, Bool.and_false]
      exact BitVec.getLsbD_zero.symm
  · intro hbit hzero
    have hand := congrArg (fun b => BitVec.getLsbD b 0) hzero
    simp only [BitVec.getLsbD_and, hone, hbit, decide_true, Bool.and_self] at hand
    exact Bool.false_ne_true hand.symm

theorem available_inter (u v : SPartRange) : (partMapOps.mergeState u v EMerge.eInter).and Part.Available ≠ 0 ↔
      u.and Part.Available ≠ 0 ∧ v.and Part.Available ≠ 0 := by
  rw [and_available_ne_zero, and_available_ne_zero, and_available_ne_zero]
  change (SPartRange.statFlag (SPartRange.statFlag (SPartRange.statFlag (u.uStates &&& v.uStates) _ _) _ _)
    _ _).getLsbD 0 = true ↔ _
  rw [getLsbD_statFlag _ _ (by decide) (by decide), getLsbD_statFlag _ _ (by decide) (by decide),
    getLsbD_statFlag _ _ (by decide) (by decide), BitVec.getLsbD_and, Bool.and_eq_true]

/-- A block inside the file is missing unless all of its bytes are available. -/
theorem isMissing_eq_false_iff (pFile : CFile) {uBegin uEnd : ℕ} (hlt : uBegin < uEnd) (hend : uEnd ≤ pFile.uFileSize) :
    pFile.isMissing uBegin uEnd = false ↔ ∀ x, uBegin ≤ x → x < uEnd → pFile.Available x := by
  have hin : ∀ x, x < uEnd → x < pFile.uFileSize := fun x hx => hx.trans_le hend
  unfold CFile.isMissing CFile.pMap
  by_cases hincomplete : pFile.isIncomplete = true
  · obtain ⟨pMap, hmap⟩ := Option.isSome_iff_exists.mp (pFile.has_map hincomplete)
    have hrange := @getRange_forall _ partMapOps pFile.uFileSize pMap (pFile.canonical pMap hmap)
      (pFile.size_lt.trans (by decide)) EMerge.eInter (fun v => v.and Part.Available ≠ 0) available_inter
      uBegin uEnd hlt hend partMapOps.default
    have hmask : ∀ v, CRangeMap.masked partMapOps partMapOps.default v = v := fun v => if_neg (by decide)
    rw [if_pos hincomplete, hmap]
    dsimp only at hrange ⊢
    rw [decide_eq_false_iff_not]
    refine hrange.trans (forall₃_congr fun x _ hx => ?_)
    rw [hmask]
    constructor
    · intro hset
      refine ⟨hin x hx, fun _ pMap' hmap' => ?_⟩
      rw [hmap] at hmap'
      cases hmap'
      exact hset
    · exact fun havailable => havailable.2 hincomplete pMap hmap
  · rw [if_neg hincomplete]
    exact iff_of_true rfl fun x _ hx => ⟨hin x hx, fun h => absurd h hincomplete⟩

end States

section Data

theorem execute_eq (content : List UInt8) {uOffset : ℕ} (hoffset : uOffset < 2 ^ 63) (uLength : ℕ) :
    (execute (some content) uOffset uLength).1 = (content.drop uOffset).take (resizeLength uLength) := by
  have hread : read (some content) uOffset (resizeLength uLength) =
      some ((content.drop uOffset).take (resizeLength uLength)) := if_neg (not_le.mpr hoffset)
  rw [execute, hread]

/-- No more is read than is asked for, and nothing after the end. -/
theorem length_execute_le (disk : Disk) (uOffset uLength : ℕ) : (execute disk uOffset uLength).1.length ≤ uLength ∧
      ∀ content ∈ disk, (execute disk uOffset uLength).1 ≠ [] →
        uOffset + (execute disk uOffset uLength).1.length ≤ content.length := by
  have hresize : resizeLength uLength ≤ uLength := by
    unfold resizeLength
    split_ifs
    · exact Nat.mod_le _ _
    · exact Nat.zero_le _
  cases disk with
  | none => exact ⟨Nat.zero_le _, fun content hcontent => by cases hcontent⟩
  | some content =>
    by_cases hoffset : uOffset < 2 ^ 63
    · rw [execute_eq content hoffset]
      refine ⟨?_, fun content' hcontent hne => ?_⟩
      · rw [List.length_take]
        omega
      · cases hcontent
        have hpos := List.length_pos_of_ne_nil hne
        rw [List.length_take, List.length_drop] at hpos ⊢
        omega
    · have hread : read (some content) uOffset (resizeLength uLength) = none := if_pos (not_lt.mp hoffset)
      have hnone : execute (some content) uOffset uLength = ([], false) := by rw [execute, hread]
      rw [hnone]
      exact ⟨Nat.zero_le _, fun _ _ hne => absurd rfl hne⟩

variable {uOffset uLength : ℕ}

/-- What is read has bytes. -/
theorem execute_ne_nil {disk : Disk} (h : (execute disk uOffset uLength).1 ≠ []) :
    0 < resizeLength uLength ∧ ∃ content ∈ disk, uOffset < content.length := by
  have hend := (length_execute_le disk uOffset uLength).2
  have hpos := List.length_pos_of_ne_nil h
  cases disk with
  | none => exact absurd rfl h
  | some content =>
    have hle := hend content rfl h
    refine ⟨Nat.pos_of_ne_zero fun hzero => h ?_, content, rfl, by omega⟩
    by_cases hoffset : uOffset < 2 ^ 63
    · rw [execute_eq content hoffset, hzero, List.take_zero]
    · have hread : read (some content) uOffset (resizeLength uLength) = none := if_pos (not_lt.mp hoffset)
      rw [execute, hread]

/-- A block that can be read is read. -/
theorem Readable.execute_spec {disk : Disk} (h : Readable disk uOffset uLength) :
    ∃ content, disk = some content ∧ uOffset + uLength ≤ content.length ∧
      execute disk uOffset uLength = ((content.drop uOffset).take uLength, true) ∧
      (execute disk uOffset uLength).1.length = uLength := by
  obtain ⟨hoffset, hlength, content, rfl, hend⟩ := h
  have hresize : resizeLength uLength = uLength := by
    rw [resizeLength, Nat.mod_eq_of_lt (by omega), if_pos hlength]
  have hread : read (some content) uOffset uLength = some ((content.drop uOffset).take uLength) :=
    if_neg (not_le.mpr hoffset)
  have hcount : ((content.drop uOffset).take uLength).length = uLength := by
    rw [List.length_take, List.length_drop]
    omega
  have hexecute : execute (some content) uOffset uLength = ((content.drop uOffset).take uLength, true) := by
    rw [execute, hresize, hread]
    dsimp only
    rw [decide_eq_true hcount]
  exact ⟨content, rfl, hend, hexecute, by rw [hexecute]; exact hcount⟩

/-- A block with data was readable, if all of it was read. -/
theorem readable_of_execute {disk : Disk} (hlength : uLength < 2 ^ 32)
    (hok : (execute disk uOffset uLength).2 = true) (hdata : (execute disk uOffset uLength).1 ≠ []) :
    Readable disk uOffset uLength ∧ 0 < uLength := by
  cases hread : read disk uOffset (resizeLength uLength) with
  | none =>
    rw [execute, hread] at hok
    cases hok
  | some data =>
    have hexecute : execute disk uOffset uLength = (data, decide (data.length = resizeLength uLength)) := by
      rw [execute, hread]
    rw [hexecute] at hok hdata
    dsimp only at hok hdata
    have hcount := of_decide_eq_true hok
    have hpos := List.length_pos_of_ne_nil hdata
    have hsmall : uLength < 2 ^ 31 ∧ resizeLength uLength = uLength := by
      unfold resizeLength at hcount ⊢
      rw [Nat.mod_eq_of_lt hlength] at hcount ⊢
      split_ifs at hcount ⊢ with hlt
      · exact ⟨hlt, rfl⟩
      · omega
    have hend := (length_execute_le disk uOffset uLength).2
    rw [hexecute] at hend
    cases disk with
    | none => cases hread
    | some content =>
      have hle := hend content rfl hdata
      refine ⟨⟨?_, hsmall.1, content, rfl, by dsimp only at hle; omega⟩, by omega⟩
      by_contra hlarge
      have hnone : read (some content) uOffset (resizeLength uLength) = none := if_pos (not_lt.mp hlarge)
      rw [hnone] at hread
      cases hread

end Data

end NeoLoader.FileReads
