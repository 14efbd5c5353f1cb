import NeoLoader.BlockWrites
import NeoLoader.CorruptionLogger

/-!
# The parts of a file are validated

The results of a hash are brought into the map of a file, block by block. The file may lie at an offset in what the hash
covers. Ranges that are verified or have nothing are passed over, unless the file is recovered, and a block without an
available byte does not become corrupt.
-/

namespace NeoLoader.PartValidation

open StepFunction RangeMap PartStates SharedRanges BlockIndex CorruptionLogger
open TransferReservation (CFile cancelRequests lengthOf)
open BlockWrites (FileOk Freed)

/-- What `ValidateParts` goes by. -/
structure Validation where
  /-- The sizes of `pMasterHash`. -/
  hash : CFileHashEx
  /-- Its results. -/
  results : Status
  /-- Where the file begins in what the hash covers. -/
  Offset : ℕ
  uFileSize : ℕ
  bRecovery : Bool
  /-- The transfers that are active downloads. -/
  active : ℕ → Bool
  /-- Whether a map that the file is shared with has some of a range scheduled. -/
  sharedScheduled : ℕ → ℕ → Bool

/-- `SetRange` with flags. -/
def setFlags (uBegin uEnd uStates : ℕ) (eMode : ESet) (parts : CRangeMap SPartRange) : CRangeMap SPartRange :=
  parts.setRange partMapOps uBegin uEnd (SPartRange.ofStates (BitVec.ofNat 32 uStates)) eMode

/-- A block that is verified. -/
def markVerified (uBegin uEnd : ℕ) (parts : CRangeMap SPartRange) : CRangeMap SPartRange :=
  let parts := setFlags uBegin uEnd Part.Corrupt ESet.eClr parts
  let parts :=
    if (parts.getRange partMapOps uBegin uEnd EMerge.eInter partMapOps.default).and Part.Available = 0 then
      setFlags uBegin uEnd Part.Available ESet.eAdd parts
    else parts
  setFlags uBegin uEnd Part.Verified ESet.eAdd parts

/-- A block that is corrupt. -/
def markCorrupt (uBegin uEnd : ℕ) (parts : CRangeMap SPartRange) : CRangeMap SPartRange :=
  setFlags uBegin uEnd Part.Corrupt ESet.eAdd (setFlags uBegin uEnd (Part.Available ||| Part.Verified) ESet.eClr parts)

variable (v : Validation)

/-- `GetRange` with the flags of any byte. -/
def union (uBegin uEnd : ℕ) (parts : CRangeMap SPartRange) : SPartRange :=
  parts.getRange partMapOps uBegin uEnd EMerge.eUnion partMapOps.default

/-- `uBegin` and `uEnd` of an index. -/
def indexBounds (Index : ℕ) : ℕ × ℕ :=
  let uCurBegin := indexOffset v.hash Index
  let uEnd := lengthOf v.Offset (indexOffset v.hash (Index + 1))
  (if uCurBegin < v.Offset then 0 else uCurBegin - v.Offset, if uEnd > v.uFileSize then v.uFileSize else uEnd)

/-- The loop of `ValidateParts` over the indices of a range, for one of them. -/
def validateBlock (acc : CFile × SIterator SPartRange) (Index : ℕ) : Option (CFile × SIterator SPartRange) :=
  let uBegin := (indexBounds v Index).1
  let uEnd := (indexBounds v Index).2
  let any := union uBegin uEnd acc.1.fileParts
  (testBit (resized v.hash v.results) Index).bind fun bVerified =>
    (if bVerified then
      (if any.and Part.Scheduled ≠ 0 ∨ v.sharedScheduled uBegin uEnd = true then
        cancelRequests v.active uBegin uEnd (List.range acc.1.transfers.length) acc.1
      else some acc.1).map fun file => { file with fileParts := markVerified uBegin uEnd file.fileParts }
    else if testRange v.results.corruptionSet (indexOffset v.hash Index, indexOffset v.hash (Index + 1)) then
      if any.and Part.Available = 0 then some acc.1
      else some { acc.1 with fileParts := markCorrupt uBegin uEnd acc.1.fileParts }
    else some acc.1).map fun file => (file, { acc.2 with uBegin := uBegin, uEnd := uEnd })

/-- The loop of `ValidateParts`, for one range. -/
def validateBody (file : CFile) (FileIter : SIterator SPartRange) : Option (CFile × SIterator SPartRange) :=
  if v.bRecovery = false ∧ ¬(FileIter.uState.and (Part.Available ||| Part.Corrupt) ≠ 0 ∧
      FileIter.uState.and Part.Verified = 0) then some (file, FileIter)
  else (indices (indexRange v.hash (FileIter.uBegin + v.Offset) (FileIter.uEnd + v.Offset) true)).foldlM
    (validateBlock v) (file, FileIter)

/-- The flags that tell the ranges apart. -/
def uPayload : ℕ := Part.Available ||| Part.Corrupt ||| Part.Verified

/-- The loop of `CHashInspector::ValidateParts` over the map of the file. -/
def validateParts (file : CFile) : Option CFile :=
  forRanges partMapOps CFile.fileParts (SPartRange.ofStates (BitVec.ofNat 32 uPayload)) (fun _ => true)
    (validateBody v) 0 minusOne file

section Results

/-- The block of a byte. -/
def Validation.block (x : ℕ) : ℕ := floorIndex v.hash (v.Offset + x)

/-- A failed block. -/
def failed (i : ℕ) : Bool :=
  !bitOf v.results i && testRange v.results.corruptionSet (blockBegin v.hash i, blockEnd v.hash i)

/-- A range with this state is looked at. -/
def Open (s : SPartRange) : Prop :=
  v.bRecovery = true ∨ (bit s 0 = true ∨ bit s 2 = true) ∧ bit s 1 = false

/-- A byte of the block is looked at. -/
def Touched (parts : CRangeMap SPartRange) (i : ℕ) : Prop :=
  ∃ x < v.uFileSize, v.block x = i ∧ Open v (stateAt partMapOps parts x)

/-- A byte of the block is available. -/
def HasBytes (parts : CRangeMap SPartRange) (i : ℕ) : Prop :=
  ∃ x < v.uFileSize, v.block x = i ∧ bit (stateAt partMapOps parts x) 0 = true

/-- What becomes of the state of a byte of a block. -/
structure Shown (parts : CRangeMap SPartRange) (i : ℕ) (was now : SPartRange) : Prop where
  /-- The bytes of a verified block that is looked at are available and verified. -/
  verified : Touched v parts i → bitOf v.results i = true → ∀ k < 3, bit now k = decide (k ≠ 2)
  /-- Those of a failed one with available bytes are corrupt. -/
  corrupt : Touched v parts i → failed v i = true → HasBytes v parts i → ∀ k < 3, bit now k = decide (k = 2)
  /-- All other ones stay as they are. -/
  kept : ¬(Touched v parts i ∧ (bitOf v.results i = true ∨ failed v i = true ∧ HasBytes v parts i)) → now = was

/-- A byte behind the validation. -/
def Validated (parts parts' : CRangeMap SPartRange) (x : ℕ) : Prop :=
  Shown v parts (v.block x) (stateAt partMapOps parts x) (stateAt partMapOps parts' x)

/-- The file lies in what the hash covers. -/
structure Fits (file : CFile) : Prop where
  /-- The sizes fit in their types. -/
  sizes : SizesOk v.hash
  /-- There is a result for each block. -/
  sized : Sized v.hash v.results
  /-- The file is not empty. -/
  pos : 0 < v.uFileSize
  /-- It lies in what the hash covers. -/
  inside : v.Offset + v.uFileSize ≤ v.hash.totalSize
  /-- The maps cover the file. -/
  maps : FileOk v.uFileSize file

end Results

section Flags

theorem getLsbD_flags (n : ℕ) {k : ℕ} (hk : k < 32) : (BitVec.ofNat 32 n).getLsbD k = n.testBit k := by
  rw [BitVec.getLsbD_ofNat, decide_eq_true hk, Bool.true_and]

variable (s : SPartRange)

theorem and_eq_zero_iff (n : ℕ) : s.and n = 0 ↔ ∀ k < 32, n.testBit k = true → bit s k = false := by
  constructor
  · intro h k hk hn
    have hbit : (s.uStates &&& BitVec.ofNat 32 n).getLsbD k = (0 : BitVec 32).getLsbD k :=
      congrArg (fun b => b.getLsbD k) h
    rw [BitVec.getLsbD_and, getLsbD_flags n hk, hn, Bool.and_true] at hbit
    exact hbit.trans BitVec.getLsbD_zero
  · intro h
    refine BitVec.eq_of_getLsbD_eq fun k hk => ?_
    rw [SPartRange.and, BitVec.getLsbD_and, getLsbD_flags n hk]
    refine Eq.trans ?_ BitVec.getLsbD_zero.symm
    cases hn : n.testBit k with
    | true => exact (Bool.and_true _).trans (h k hk hn)
    | false => exact Bool.and_false _

theorem and_available : s.and Part.Available = 0 ↔ bit s 0 = false := by
  rw [and_eq_zero_iff]
  have hbits : ∀ k < 32, Nat.testBit Part.Available k = true ↔ k = 0 := by decide
  exact ⟨fun h => h 0 (by decide) (by decide), fun h k hk hn => (hbits k hk).mp hn ▸ h⟩

theorem open_iff : Open v s ↔ ¬(v.bRecovery = false ∧
    ¬(s.and (Part.Available ||| Part.Corrupt) ≠ 0 ∧ s.and Part.Verified = 0)) := by
  have hpayload : s.and (Part.Available ||| Part.Corrupt) = 0 ↔ bit s 0 = false ∧ bit s 2 = false := by
    have hbits : ∀ k < 32, Nat.testBit (Part.Available ||| Part.Corrupt) k = true ↔ k = 0 ∨ k = 2 := by decide
    rw [and_eq_zero_iff]
    refine ⟨fun h => ⟨h 0 (by decide) (by decide), h 2 (by decide) (by decide)⟩, fun h k hk hn => ?_⟩
    rcases (hbits k hk).mp hn with rfl | rfl
    · exact h.1
    · exact h.2
  have hverified : s.and Part.Verified = 0 ↔ bit s 1 = false := by
    have hbits : ∀ k < 32, Nat.testBit Part.Verified k = true ↔ k = 1 := by decide
    rw [and_eq_zero_iff]
    exact ⟨fun h => h 1 (by decide) (by decide), fun h k hk hn => (hbits k hk).mp hn ▸ h⟩
  rw [Open, ne_eq, hpayload, hverified]
  cases v.bRecovery <;> cases bit s 0 <;> cases bit s 1 <;> cases bit s 2 <;> simp

theorem plain_of_lt {k : ℕ} (hk : k < 3) : Plain k := ⟨by omega, by omega, by omega⟩

/-- The mask shows the flags of the payload. -/
theorem bit_payload {k : ℕ} (hk : k < 3) :
    bit (CRangeMap.masked partMapOps (SPartRange.ofStates (BitVec.ofNat 32 uPayload)) s) k = bit s k := by
  have hset : partMapOps.stateSet (SPartRange.ofStates (BitVec.ofNat 32 uPayload)) = true := by decide
  have hmask : ∀ k < 3, (BitVec.ofNat 32 uPayload).getLsbD k = true := by decide
  rw [CRangeMap.masked, if_pos hset]
  exact (bit_inter _ _ (plain_of_lt hk)).trans ((congrArg (bit s k && ·) (hmask k hk)).trans (Bool.and_true _))

theorem open_masked :
    Open v (CRangeMap.masked partMapOps (SPartRange.ofStates (BitVec.ofNat 32 uPayload)) s) ↔ Open v s := by
  simp [Open, bit_payload]

end Flags

section Changes

variable {N uBegin uEnd : ℕ} {parts parts' parts'' : CRangeMap SPartRange}

/-- The flags of the payload change in a range, and nothing around it. -/
structure Changes (N uBegin uEnd : ℕ) (f : ℕ → Bool → Bool) (parts parts' : CRangeMap SPartRange) : Prop where
  /-- The map covers the file. -/
  canonical : Canonical partMapOps N parts'
  /-- It is a later map. -/
  later : Later parts parts'
  /-- Nothing changes around the range. -/
  outside : ∀ x, ¬(uBegin ≤ x ∧ x < uEnd) → stateAt partMapOps parts' x = stateAt partMapOps parts x
  /-- The flags change in it. -/
  inside : ∀ x, uBegin ≤ x → x < uEnd → ∀ k < 3,
    bit (stateAt partMapOps parts' x) k = f k (bit (stateAt partMapOps parts x) k)

theorem Changes.trans {f g : ℕ → Bool → Bool} (h : Changes N uBegin uEnd f parts parts')
    (h' : Changes N uBegin uEnd g parts' parts'') : Changes N uBegin uEnd (fun k b => g k (f k b)) parts parts'' :=
  ⟨h'.canonical, h.later.trans h'.later, fun x hx => (h'.outside x hx).trans (h.outside x hx),
    fun x h1 h2 k hk => by rw [h'.inside x h1 h2 k hk, h.inside x h1 h2 k hk]⟩

theorem changes_freed (h : Freed N uBegin uEnd parts parts') : Changes N uBegin uEnd (fun _ b => b) parts parts' :=
  ⟨h.canonical, h.later, h.outside, fun x _ _ k hk => h.plain x k (plain_of_lt hk)⟩

section Range

variable (h : Canonical partMapOps N parts) (hN : N < 2 ^ 64) (hlt : uBegin < uEnd) (hend : uEnd ≤ N)

include h hN hlt hend

theorem changes_set (n : ℕ) {eMode : ESet} {f : ℕ → Bool → Bool} (hf : ∀ s k, k < 3 →
    bit (SPartRange.makeState s (SPartRange.ofStates (BitVec.ofNat 32 n)) eMode) k = f k (bit s k)) :
    Changes N uBegin uEnd f parts (setFlags uBegin uEnd n eMode parts) := by
  have hstate := stateAt_setRange h hN hlt hend (SPartRange.ofStates (BitVec.ofNat 32 n)) eMode
  refine ⟨setRange_canonical h hN hlt hend _ _, later_setRange _ _ _ _ _, fun x hx => (hstate x).trans (if_neg hx),
    fun x h1 h2 k hk => ?_⟩
  rw [setFlags, hstate, if_pos ⟨h1, h2⟩]
  exact hf _ k hk

theorem changes_add (n : ℕ) : Changes N uBegin uEnd (fun k b => b || n.testBit k) parts
    (setFlags uBegin uEnd n ESet.eAdd parts) :=
  changes_set h hN hlt hend n fun s k hk => by
    rw [bit_add s _ (plain_of_lt hk), getLsbD_flags n (by omega)]

theorem changes_clr (n : ℕ) : Changes N uBegin uEnd (fun k b => b && !n.testBit k) parts
    (setFlags uBegin uEnd n ESet.eClr parts) :=
  changes_set h hN hlt hend n fun s k hk => by
    rw [bit_clr s _ (plain_of_lt hk), getLsbD_flags n (by omega)]

omit h hN hlt hend in
theorem masked_default (s : SPartRange) : CRangeMap.masked partMapOps partMapOps.default s = s := if_neg (by decide)

theorem union_available : (union uBegin uEnd parts).and Part.Available = 0 ↔
    ∀ x, uBegin ≤ x → x < uEnd → bit (stateAt partMapOps parts x) 0 = false := by
  have hmerge : ∀ s t : SPartRange, bit (partMapOps.mergeState s t EMerge.eUnion) 0 = false ↔
      bit s 0 = false ∧ bit t 0 = false := fun s t => by
    rw [show bit (partMapOps.mergeState s t EMerge.eUnion) 0 = (bit s 0 || bit t 0) from
      bit_union s t (plain_of_lt (by decide)), Bool.or_eq_false_iff]
  have hall := @getRange_forall SPartRange partMapOps N parts h hN EMerge.eUnion (fun s => bit s 0 = false) hmerge
    _ _ hlt hend partMapOps.default
  rw [and_available, union, hall]
  simp only [masked_default]

theorem inter_available : ¬(parts.getRange partMapOps uBegin uEnd EMerge.eInter partMapOps.default).and
    Part.Available = 0 ↔ ∀ x, uBegin ≤ x → x < uEnd → bit (stateAt partMapOps parts x) 0 = true := by
  have hmerge : ∀ s t : SPartRange, bit (partMapOps.mergeState s t EMerge.eInter) 0 = true ↔
      bit s 0 = true ∧ bit t 0 = true := fun s t => by
    rw [show bit (partMapOps.mergeState s t EMerge.eInter) 0 = (bit s 0 && bit t 0) from
      bit_inter s t (plain_of_lt (by decide)), Bool.and_eq_true]
  have hall := @getRange_forall SPartRange partMapOps N parts h hN EMerge.eInter (fun s => bit s 0 = true) hmerge
    _ _ hlt hend partMapOps.default
  rw [and_available, Bool.not_eq_false, hall]
  simp only [masked_default]

theorem changes_verified : Changes N uBegin uEnd (fun k _ => decide (k ≠ 2)) parts
    (markVerified uBegin uEnd parts) := by
  have hclear := changes_clr h hN hlt hend Part.Corrupt
  unfold markVerified
  dsimp only
  split_ifs with hinter
  · have hall := (hclear.trans (changes_add hclear.canonical hN hlt hend Part.Available))
    have hmarked := hall.trans (changes_add hall.canonical hN hlt hend Part.Verified)
    refine ⟨hmarked.canonical, hmarked.later, hmarked.outside, fun x h1 h2 k hk => ?_⟩
    rw [hmarked.inside x h1 h2 k hk]
    obtain rfl | rfl | rfl : k = 0 ∨ k = 1 ∨ k = 2 := by omega
    all_goals simp [Part.Corrupt, Part.Available, Part.Verified, Nat.testBit]
  · have hmarked := hclear.trans (changes_add hclear.canonical hN hlt hend Part.Verified)
    have havailable := (inter_available hclear.canonical hN hlt hend).mp hinter
    refine ⟨hmarked.canonical, hmarked.later, hmarked.outside, fun x h1 h2 k hk => ?_⟩
    have hzero := havailable x h1 h2
    rw [hclear.inside x h1 h2 0 (by decide)] at hzero
    rw [hmarked.inside x h1 h2 k hk]
    obtain rfl | rfl | rfl : k = 0 ∨ k = 1 ∨ k = 2 := by omega
    all_goals simp_all [Part.Corrupt, Part.Verified, Nat.testBit]

theorem changes_corrupt : Changes N uBegin uEnd (fun k _ => decide (k = 2)) parts (markCorrupt uBegin uEnd parts) := by
  have hclear := changes_clr h hN hlt hend (Part.Available ||| Part.Verified)
  have hmarked := hclear.trans (changes_add hclear.canonical hN hlt hend Part.Corrupt)
  refine ⟨hmarked.canonical, hmarked.later, hmarked.outside, fun x h1 h2 k hk => ?_⟩
  unfold markCorrupt
  rw [hmarked.inside x h1 h2 k hk]
  obtain rfl | rfl | rfl : k = 0 ∨ k = 1 ∨ k = 2 := by omega
  all_goals simp [Part.Corrupt, Part.Available, Part.Verified, Nat.testBit]

end Range

end Changes

section Bounds

/-- Where a block begins in the file. -/
def fileBegin (i : ℕ) : ℕ := blockBegin v.hash i - v.Offset

/-- Where it ends. -/
def fileEnd (i : ℕ) : ℕ := min (blockBegin v.hash (i + 1) - v.Offset) v.uFileSize

variable {v} {file : CFile} (h : Fits v file)

include h

theorem total_pos : 0 < v.hash.totalSize := by
  have hpos := h.pos
  have hinside := h.inside
  omega

theorem uFileSize_lt : v.uFileSize < 2 ^ 64 := by
  have htotal := totalSize_lt h.sizes
  have hinside := h.inside
  omega

theorem block_le_iff (i x : ℕ) : i ≤ v.block x ↔ blockBegin v.hash i ≤ v.Offset + x :=
  le_floorIndex_iff h.sizes (total_pos h) (v.Offset + x) i

/-- The bytes of a block. -/
theorem block_eq_iff {x : ℕ} (hx : x < v.uFileSize) (i : ℕ) : v.block x = i ↔ fileBegin v i ≤ x ∧ x < fileEnd v i := by
  have hle := block_le_iff h i x
  have hlt := block_le_iff h (i + 1) x
  unfold fileBegin fileEnd
  omega

theorem fileEnd_le_iff {y : ℕ} (hy : y < v.uFileSize) (i : ℕ) : fileEnd v i ≤ y ↔ i < v.block y := by
  have hlt := block_le_iff h (i + 1) y
  unfold fileEnd
  omega

theorem indexBounds_eq {x : ℕ} (hx : x < v.uFileSize) : v.block x < getStatusCount v.hash ∧
      indexBounds v (v.block x) = (fileBegin v (v.block x), fileEnd v (v.block x)) := by
  have hinside := h.inside
  have htotal := totalSize_lt h.sizes
  have hcount := floorIndex_lt_count h.sizes (total_pos h) (show v.Offset + x < v.hash.totalSize by omega)
  obtain ⟨hbegin, hend⟩ := indexOffset_own h.sizes (total_pos h) hcount
  have hnext := (block_eq_iff h hx _).mp rfl
  refine ⟨hcount, ?_⟩
  rw [blockEnd_eq h.sizes (total_pos h)] at hend
  unfold fileBegin fileEnd at hnext ⊢
  unfold indexBounds lengthOf
  rw [Validation.block] at hnext ⊢
  rw [hbegin, hend]
  refine Prod.ext ?_ ?_
  · dsimp only
    split_ifs <;> omega
  · dsimp only
    split_ifs <;> omega

/-- The indices of a range are those from the block of its first byte to that of its last one. -/
theorem indexRange_eq {uBegin uEnd : ℕ} (hlt : uBegin < uEnd) (hend : uEnd ≤ v.uFileSize) :
    indexRange v.hash (uBegin + v.Offset) (uEnd + v.Offset) true = (v.block uBegin, v.block (uEnd - 1) + 1) := by
  have hinside := h.inside
  have hfirst := block_le_iff h
  refine range_eq_of_mem ?_ fun i => ?_
  · have hself := (hfirst (v.block uBegin) uBegin).mp le_rfl
    have hlast := hfirst (v.block uBegin) (uEnd - 1)
    omega
  · rw [mem_covering_iff h.sizes (total_pos h) (by omega) (by omega)]
    have hlast := hfirst i (uEnd - 1)
    have hnext := hfirst (i + 1) uBegin
    omega

/-- The blocks of some bytes are done, and the other ones are as they were. -/
def Progress (v : Validation) (parts : CRangeMap SPartRange) (P : ℕ → Prop) (file : CFile) : Prop :=
  FileOk v.uFileSize file ∧ ∀ x < v.uFileSize, (P x → Validated v parts file.fileParts x) ∧
    (¬P x → stateAt partMapOps file.fileParts x = stateAt partMapOps parts x)

omit h in
theorem Progress.congr {parts : CRangeMap SPartRange} {P Q : ℕ → Prop} {file : CFile}
    (hprogress : Progress v parts P file) (hiff : ∀ x < v.uFileSize, P x ↔ Q x) : Progress v parts Q file :=
  ⟨hprogress.1, fun x hx => ⟨fun hq => (hprogress.2 x hx).1 ((hiff x hx).mpr hq),
    fun hq => (hprogress.2 x hx).2 ((hiff x hx).not.mpr hq)⟩⟩

omit h in
/-- One more block. -/
theorem Progress.step {parts : CRangeMap SPartRange} {i : ℕ} {file file' : CFile}
    (hprogress : Progress v parts (fun x => v.block x < i) file) (hmaps : FileOk v.uFileSize file')
    (houtside : ∀ x < v.uFileSize, v.block x ≠ i →
      stateAt partMapOps file'.fileParts x = stateAt partMapOps file.fileParts x)
    (hinside : ∀ x < v.uFileSize, v.block x = i →
      Shown v parts i (stateAt partMapOps parts x) (stateAt partMapOps file'.fileParts x)) :
    Progress v parts (fun x => v.block x < i + 1) file' := by
  refine ⟨hmaps, fun x hx => ⟨fun hlt => ?_, fun hge => ?_⟩⟩
  · by_cases hblock : v.block x = i
    · rw [Validated, hblock]
      exact hinside x hx hblock
    · rw [Validated, houtside x hx hblock]
      exact (hprogress.2 x hx).1 (by omega)
  · rw [houtside x hx (by omega)]
    exact (hprogress.2 x hx).2 (by omega)

section

variable {parts : CRangeMap SPartRange} {i : ℕ} {file : CFile}
  (hprogress : Progress v parts (fun x => v.block x < i) file)

include hprogress

/-- A block has an available byte if the flags of any of its bytes have it. -/
theorem hasBytes_iff (hlt : fileBegin v i < fileEnd v i) :
    HasBytes v parts i ↔ ¬(union (fileBegin v i) (fileEnd v i) file.fileParts).and Part.Available = 0 := by
  have hsame : ∀ y < v.uFileSize, v.block y = i →
      stateAt partMapOps file.fileParts y = stateAt partMapOps parts y := fun y hy hblock =>
    (hprogress.2 y hy).2 (by omega)
  have hend : fileEnd v i ≤ v.uFileSize := Nat.min_le_right _ _
  rw [union_available hprogress.1.fileParts (uFileSize_lt h) hlt hend]
  constructor
  · rintro ⟨y, hy, hblock, havailable⟩ hall
    have hin := (block_eq_iff h hy i).mp hblock
    rw [← hsame y hy hblock, hall y hin.1 hin.2] at havailable
    cases havailable
  · intro hall
    push Not at hall
    obtain ⟨y, h1, h2, havailable⟩ := hall
    have hblock := (block_eq_iff h (by omega) i).mpr ⟨h1, h2⟩
    exact ⟨y, by omega, hblock, by simpa [hsame y (by omega) hblock] using havailable⟩

theorem validateBlock_step (htouched : Touched v parts i)
    (it : SIterator SPartRange) : ∃ file', validateBlock v (file, it) i =
      some (file', { it with uBegin := fileBegin v i, uEnd := fileEnd v i }) ∧ Later file.fileParts file'.fileParts ∧
      Progress v parts (fun x => v.block x < i + 1) file' := by
  have ⟨x, hx, hi, _⟩ := htouched
  obtain ⟨hcount, hbounds⟩ := indexBounds_eq h hx
  rw [hi] at hcount hbounds
  obtain ⟨hfirst, hsecond⟩ := indexOffset_own h.sizes (total_pos h) hcount
  have hbit : testBit (resized v.hash v.results) i = some (bitOf v.results i) := by
    have hlength := resized_length h.sized
    rw [testBit, ← resized_getD v.hash v.results, List.getD_eq_getElem?_getD, List.getElem?_eq_getElem (by omega),
      Option.getD_some]
  have hN := uFileSize_lt h
  have hmaps := hprogress.1
  have hself := (block_eq_iff h hx _).mp hi
  have hlt : fileBegin v i < fileEnd v i := hself.1.trans_lt hself.2
  have hend : fileEnd v i ≤ v.uFileSize := Nat.min_le_right _ _
  have hin : ∀ y < v.uFileSize, v.block y = i ↔ fileBegin v i ≤ y ∧ y < fileEnd v i := fun y hy => block_eq_iff h hy i
  have hsame : ∀ y < v.uFileSize, v.block y = i →
      stateAt partMapOps file.fileParts y = stateAt partMapOps parts y := fun y hy hblock =>
    (hprogress.2 y hy).2 (by omega)
  have hbytes := hasBytes_iff h hprogress hlt
  have hkept : bitOf v.results i = false → ¬(failed v i = true ∧ HasBytes v parts i) →
      Progress v parts (fun x => v.block x < i + 1) file := fun hverified hcorrupt =>
    hprogress.step hmaps (fun _ _ _ => rfl) fun y hy hblock =>
      ⟨fun _ hbit => absurd hbit (by simp [hverified]), fun _ hfailed hhas => absurd ⟨hfailed, hhas⟩ hcorrupt,
        fun _ => hsame y hy hblock⟩
  unfold validateBlock
  rw [hbit, hbounds, hfirst, hsecond]
  dsimp only [Option.bind_some]
  cases hverified : bitOf v.results i with
  | true =>
    have hcancel : ∀ p : Bool, ∃ file', (if p then cancelRequests v.active (fileBegin v i) (fileEnd v i)
        (List.range file.transfers.length) file else some file) = some file' ∧ FileOk v.uFileSize file' ∧
        Freed v.uFileSize (fileBegin v i) (fileEnd v i) file.fileParts file'.fileParts := fun p => by
      split_ifs
      · exact BlockWrites.cancelRequests_freed hN hlt (by omega) v.active _ hmaps
      · exact ⟨file, rfl, hmaps, BlockWrites.freed_refl hmaps.fileParts⟩
    obtain ⟨file', hrun, hmaps', hfreed⟩ := hcancel (decide ((union (fileBegin v i) (fileEnd v i) file.fileParts).and
      Part.Scheduled ≠ 0 ∨ v.sharedScheduled (fileBegin v i) (fileEnd v i) = true))
    simp only [decide_eq_true_eq] at hrun
    have hmarked := (changes_freed hfreed).trans (changes_verified hmaps'.fileParts hN hlt hend)
    refine ⟨{ file' with fileParts := markVerified (fileBegin v i) (fileEnd v i) file'.fileParts }, ?_, hmarked.later,
      hprogress.step ⟨hmaps'.parts, hmarked.canonical⟩
        (fun y hy hne => hmarked.outside y fun hc => hne ((hin y hy).mpr hc)) fun y hy hblock => ?_⟩
    · rw [if_pos rfl, hrun]
      rfl
    · exact ⟨fun _ _ => hmarked.inside y ((hin y hy).mp hblock).1 ((hin y hy).mp hblock).2,
        fun _ hfailed => absurd hfailed (by simp [failed, hverified]),
        fun hkept => absurd ⟨htouched, Or.inl hverified⟩ hkept⟩
  | false =>
    rw [if_neg Bool.false_ne_true]
    cases htest : testRange v.results.corruptionSet (blockBegin v.hash i, blockEnd v.hash i) with
    | false => exact ⟨file, rfl, later_refl _, hkept hverified (by simp [failed, htest])⟩
    | true =>
      rw [if_pos rfl]
      by_cases hany : (union (fileBegin v i) (fileEnd v i) file.fileParts).and Part.Available = 0
      · rw [if_pos hany]
        exact ⟨file, rfl, later_refl _, hkept hverified fun hc => hbytes.mp hc.2 hany⟩
      · have hmarked := changes_corrupt hmaps.fileParts hN hlt hend
        have hfailed : failed v i = true := by simp [failed, hverified, htest]
        rw [if_neg hany]
        refine ⟨_, rfl, hmarked.later, hprogress.step ⟨hmaps.parts, hmarked.canonical⟩
          (fun y hy hne => hmarked.outside y fun hc => hne ((hin y hy).mpr hc)) fun y hy hblock => ?_⟩
        exact ⟨fun _ hbit => absurd hbit (by simp [hverified]),
          fun _ _ _ => hmarked.inside y ((hin y hy).mp hblock).1 ((hin y hy).mp hblock).2,
          fun hkept => absurd ⟨htouched, Or.inr ⟨hfailed, hbytes.mpr hany⟩⟩ hkept⟩

end

/-- The blocks of a range, one after the other. -/
theorem validateBlocks {parts : CRangeMap SPartRange} {first : ℕ} (n : ℕ) {file : CFile}
    (hprogress : Progress v parts (fun x => v.block x < first) file)
    (htouched : ∀ i, first ≤ i → i < first + n → Touched v parts i) (it : SIterator SPartRange) :
    ∃ file' uBegin uEnd, (List.range' first n).foldlM (validateBlock v) (file, it) =
      some (file', { it with uBegin := uBegin, uEnd := uEnd }) ∧ Later file.fileParts file'.fileParts ∧
      Progress v parts (fun x => v.block x < first + n) file' ∧
      (n ≠ 0 → uBegin = fileBegin v (first + n - 1) ∧ uEnd = fileEnd v (first + n - 1)) := by
  induction n with
  | zero => exact ⟨file, it.uBegin, it.uEnd, rfl, later_refl _, hprogress, fun hne => absurd rfl hne⟩
  | succ n ih =>
    obtain ⟨file', uBegin, uEnd, hrun, hlater, hmid, -⟩ := ih fun i h1 h2 => htouched i h1 (by omega)
    obtain ⟨file'', hstep, hlater', hnext⟩ :=
      validateBlock_step h hmid (htouched _ (by omega) (by omega)) { it with uBegin := uBegin, uEnd := uEnd }
    refine ⟨file'', fileBegin v (first + n), fileEnd v (first + n), ?_, hlater.trans hlater', hnext,
      fun _ => ⟨rfl, rfl⟩⟩
    rw [List.range'_concat, Nat.one_mul, List.foldlM_append, hrun]
    simp only [Option.bind_eq_bind, Option.bind_some, List.foldlM_cons, List.foldlM_nil, hstep]
    rfl

/-- The invariant of the loop: the blocks that end before an offset are done, and of the other ones no byte before the
offset is looked at. -/
def Upto (v : Validation) (parts : CRangeMap SPartRange) (cur : ℕ) (file : CFile) : Prop :=
  Progress v parts (fun x => fileEnd v (v.block x) ≤ cur) file ∧
    ∀ x < v.uFileSize, x < cur → cur < fileEnd v (v.block x) → ¬Open v (stateAt partMapOps parts x)

/-- A range that is not looked at is passed over. -/
theorem upto_skip {parts : CRangeMap SPartRange} {cur cur' : ℕ} {file : CFile} (hle : cur ≤ cur')
    (hupto : Upto v parts cur file)
    (hclosed : ∀ x < v.uFileSize, cur ≤ x → x < cur' → ¬Open v (stateAt partMapOps file.fileParts x)) :
    Upto v parts cur' file := by
  obtain ⟨⟨hmaps, hprogress⟩, hbefore⟩ := hupto
  have hclosed' : ∀ y < v.uFileSize, y < cur' → cur < fileEnd v (v.block y) → ¬Open v (stateAt partMapOps parts y) := by
    intro y hy hlt hlate
    rcases Nat.lt_or_ge y cur with hyc | hyc
    · exact hbefore y hy hyc hlate
    · exact (hprogress y hy).2 (not_le.mpr hlate) ▸ hclosed y hy hyc hlt
  refine ⟨⟨hmaps, fun x hx => ⟨fun hend => ?_, fun hend => (hprogress x hx).2 (by omega)⟩⟩,
    fun x hx hlt hend => hclosed' x hx hlt (by omega)⟩
  by_cases hearly : fileEnd v (v.block x) ≤ cur
  · exact (hprogress x hx).1 hearly
  · have huntouched : ¬Touched v parts (v.block x) := by
      rintro ⟨y, hy, hblock, hopen⟩
      have hin := ((block_eq_iff h hy _).mp hblock).2
      exact hclosed' y hy (by omega) (hblock ▸ not_le.mp hearly) hopen
    exact ⟨fun ht => absurd ht huntouched, fun ht => absurd ht huntouched, fun _ => (hprogress x hx).2 hearly⟩

theorem validateBody_ok (parts : CRangeMap SPartRange) : BodyOkMoved partMapOps v.uFileSize CFile.fileParts
    (SPartRange.ofStates (BitVec.ofNat 32 uPayload)) (fun _ => true) (validateBody v) 0 minusOne (Upto v parts) := by
  intro file it hupto _ hat
  have hlt := hat.lt
  have hend := hat.uEnd_le
  have hopen : ∀ x, it.uBegin ≤ x → x < it.uEnd →
      (Open v (stateAt partMapOps file.fileParts x) ↔ Open v it.uState) := fun x h1 h2 => by
    rw [← hat.same x h1 h2, open_masked]
  unfold validateBody
  split_ifs with hskip
  · have hclosed : ¬Open v it.uState := by
      rw [open_iff]
      exact not_not.mpr hskip
    exact ⟨file, it.uBegin, it.uEnd, rfl, hlt.le, hlt, hat.le_uTo, later_refl _,
      upto_skip h hlt.le hupto fun x _ h1 h2 => (hopen x h1 h2).not.mpr hclosed⟩
  · have hlooked : Open v it.uState := (open_iff v _).mpr hskip
    have hself := (block_eq_iff h (show it.uEnd - 1 < v.uFileSize by omega) _).mp rfl
    have hle : v.block it.uBegin ≤ v.block (it.uEnd - 1) :=
      (block_le_iff h _ _).mpr (((block_le_iff h _ it.uBegin).mp le_rfl).trans (by omega))
    obtain ⟨n, hn⟩ : ∃ n, v.block (it.uEnd - 1) = v.block it.uBegin + n := ⟨_, (Nat.add_sub_of_le hle).symm⟩
    have hprogress := hupto.1.congr fun x _ => fileEnd_le_iff h (show it.uBegin < v.uFileSize by omega) (v.block x)
    have htouched : ∀ i, v.block it.uBegin ≤ i → i < v.block it.uBegin + (n + 1) → Touched v parts i := by
      intro i h1 h2
      have hlate := (fileEnd_le_iff h (show it.uBegin < v.uFileSize by omega) i).not.mpr (by omega)
      have hbegin := (block_le_iff h i (it.uEnd - 1)).mp (by omega)
      have hnext := blockBegin_lt_succ h.sizes (total_pos h) i
      have hin : fileBegin v i ≤ max it.uBegin (fileBegin v i) ∧ max it.uBegin (fileBegin v i) < fileEnd v i ∧
          max it.uBegin (fileBegin v i) < it.uEnd := by
        unfold fileBegin fileEnd at *
        omega
      have hx : max it.uBegin (fileBegin v i) < v.uFileSize := by omega
      have hblock := (block_eq_iff h hx i).mpr ⟨hin.1, hin.2.1⟩
      refine ⟨_, hx, hblock, ?_⟩
      rw [← (hprogress.2 _ hx).2 (by omega)]
      exact (hopen _ (le_max_left _ _) hin.2.2).mpr hlooked
    obtain ⟨file', uBegin, uEnd, hrun, hlater, hmid, hbounds⟩ := validateBlocks h (n + 1) hprogress htouched it
    obtain ⟨rfl, rfl⟩ := hbounds (Nat.succ_ne_zero n)
    simp only [← Nat.add_assoc, Nat.add_sub_cancel, ← hn] at hrun hmid
    have hlast : fileEnd v (v.block (it.uEnd - 1)) ≤ v.uFileSize := Nat.min_le_right _ _
    have hcount : v.block (it.uEnd - 1) + 1 - v.block it.uBegin = n + 1 := by omega
    have hiff : ∀ x < v.uFileSize, v.block x < v.block (it.uEnd - 1) + 1 ↔
        fileEnd v (v.block x) ≤ fileEnd v (v.block (it.uEnd - 1)) := by
      intro x hx
      have hx' := (block_eq_iff h hx _).mp rfl
      have hpast := fileEnd_le_iff h hx (v.block (it.uEnd - 1))
      have hmono := blockBegin_lt_iff h.sizes (total_pos h) (v.block (it.uEnd - 1) + 1) (v.block x + 1)
      unfold fileEnd at *
      omega
    have hN := uFileSize_lt h
    refine ⟨file', fileBegin v (v.block (it.uEnd - 1)), fileEnd v (v.block (it.uEnd - 1)), ?_, by omega, by omega, ?_,
      hlater, hmid.congr hiff, fun x hx hxb hlate => ?_⟩
    · rw [indexRange_eq h hlt hend, indices, hcount]
      exact hrun
    · rw [minusOne]
      omega
    · have hpast := fileEnd_le_iff h hx (v.block (it.uEnd - 1))
      have hless := (hiff x hx).not.mpr (by omega)
      omega

/-- The loop ends, and exactly the blocks that are looked at and have a result are changed. -/
theorem validateParts_spec : ∃ file', validateParts v file = some file' ∧
    ∀ x < v.uFileSize, Validated v file.fileParts file'.fileParts x := by
  have hN := uFileSize_lt h
  have hstart : Upto v file.fileParts 0 file := by
    refine ⟨⟨h.maps, fun x hx => ⟨fun hend => ?_, fun _ => rfl⟩⟩, fun x _ hx0 => absurd hx0 (Nat.not_lt_zero x)⟩
    have hin := (block_eq_iff h hx _).mp rfl
    omega
  obtain ⟨file', cur, hrun, hupto, hdone⟩ := forRanges_moved hN
    (show 0 < minusOne by decide) (show minusOne < 2 ^ 64 by decide) (fun _ _ hw => hw.1.1.fileParts)
    (validateBody_ok h file.fileParts) hstart
  have hall : v.uFileSize ≤ cur := by
    have hmin := hdone rfl
    rw [minusOne] at hmin
    omega
  exact ⟨file', hrun, fun x hx => (hupto.1.2 x hx).1 ((Nat.min_le_right _ _).trans hall)⟩

end Bounds

/-- A hash of two blocks of two bytes. -/
def twoBlocks : CFileHashEx := ⟨4, 0, 2⟩

/-- The results of two blocks, for a file of four bytes. -/
def twoResults (statusMap : List Bool) (corruptionSet : List (ℕ × ℕ)) : Validation :=
  ⟨twoBlocks, ⟨statusMap, corruptionSet⟩, 0, 4, false, fun _ => false, fun _ _ => false⟩

/-- A file of four bytes with the same flags. -/
def fourBytes (uStates : ℕ) : CFile := ⟨[], setFlags 0 4 uStates ESet.eSet (CRangeMap.create partMapOps 4)⟩

theorem fits_fourBytes (a b : Bool) (corruptionSet : List (ℕ × ℕ)) (uStates : ℕ) :
    Fits (twoResults [a, b] corruptionSet) (fourBytes uStates) where
  sizes := @SizesOk.of_lt twoBlocks (by decide) (by decide) (by decide) (by decide) (by decide)
  sized := Or.inr (show 2 = getStatusCount twoBlocks by decide)
  pos := show 0 < 4 by decide
  inside := show 0 + 4 ≤ 4 by decide
  maps := ⟨fun _ ht => absurd ht List.not_mem_nil, setRange_canonical
    (canonical_create partMapOps (show 0 < 4 by decide)) (by decide) (show 0 < 4 by decide) le_rfl _ _⟩

/-- Of two available blocks one is verified and the other one has failed. -/
theorem validateParts_two : ∃ file', validateParts (twoResults [true, false] [(2, 4)]) (fourBytes Part.Available) =
    some file' ∧ ∀ x < 4, Validated (twoResults [true, false] [(2, 4)]) (fourBytes Part.Available).fileParts
      file'.fileParts x :=
  validateParts_spec (fits_fourBytes true false [(2, 4)] Part.Available)

/-- The bytes of every block with a result are changed. -/
def ValidatedAlways (parts parts' : CRangeMap SPartRange) (x : ℕ) : Prop :=
  (bitOf v.results (v.block x) = true →
    bit (stateAt partMapOps parts' x) 1 = true ∧ bit (stateAt partMapOps parts' x) 2 = false) ∧
  (failed v (v.block x) = true → ∀ k < 3, bit (stateAt partMapOps parts' x) k = decide (k = 2)) ∧
  (bitOf v.results (v.block x) = false → failed v (v.block x) = false →
    stateAt partMapOps parts' x = stateAt partMapOps parts x)

/-- A failed block whose bytes are verified already is passed over. -/
theorem validateParts_skips : ¬∃ file', validateParts (twoResults [false, false] [(0, 2)])
    (fourBytes (Part.Available ||| Part.Verified)) = some file' ∧ ∀ x < 4,
      ValidatedAlways (twoResults [false, false] [(0, 2)]) (fourBytes (Part.Available ||| Part.Verified)).fileParts
        file'.fileParts x := by
  rintro ⟨file', hrun, hall⟩
  have hsame : validateParts (twoResults [false, false] [(0, 2)]) (fourBytes (Part.Available ||| Part.Verified)) =
      some (fourBytes (Part.Available ||| Part.Verified)) := rfl
  obtain rfl := Option.some.inj (hsame.symm.trans hrun)
  have hbit := (hall 0 (by decide)).2.1 (by decide) 0 (by decide)
  exact absurd hbit (by decide)

end NeoLoader.PartValidation
