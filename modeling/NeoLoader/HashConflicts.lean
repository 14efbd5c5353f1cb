import NeoLoader.BlockIndex

/-!
# Conflicts of two hashes

Two hashes cover a common file, each at an offset of its own. A range that one of them found corrupt
is moved to the offsets of the other one; if all its blocks are correct there, the hashes do not
belong together. Ranges across the bounds of the common file are cut at them.
-/

namespace NeoLoader.HashConflicts

open BlockIndex

section Code

/-- `AdjustIndexRange`: the range at the offsets of the other hash. -/
def adjustIndexRange (uFileSize Offset SubOffset : ℕ) (range : ℕ × ℕ) : Option (ℕ × ℕ) :=
  let uFrom := if range.1 < Offset then 0 else if Offset ≠ 0 then range.1 - Offset else range.1
  if uFrom > uFileSize then none
  else if range.2 < Offset then none
  else
    let uTo := if Offset ≠ 0 then range.2 - Offset else range.2
    let uTo := if uTo > uFileSize then uFileSize else uTo
    some ((uFrom + SubOffset) % 2 ^ 64, (uTo + SubOffset) % 2 ^ 64)

/-- One of the two hashes. -/
structure Side where
  /-- Its sizes. -/
  hash : CFileHashEx
  /-- Its results. -/
  status : Status
  /-- Where the common file begins in its file. -/
  offset : ℕ

/-- A loop of `FindHashConflicts`: the corruptions of a hash, looked up in the bits of another one.
The bits are those of `GetStatusMap`, which makes them when they are not there yet. -/
def findConflicts (uFileSize : ℕ) (corrupt correct : Side) : List (ℕ × ℕ) → Option Bool
  | [] => some false
  | Corruption :: rest =>
    match adjustIndexRange uFileSize corrupt.offset correct.offset Corruption with
    | none => findConflicts uFileSize corrupt correct rest
    | some (uFrom, uTo) =>
      (testBits (resized correct.hash correct.status) (indexRange correct.hash uFrom uTo true)).bind fun bResult =>
          if bResult then some true else findConflicts uFileSize corrupt correct rest

/-- `CHashInspector::FindHashConflicts`. -/
def findHashConflicts (uFileSize : ℕ) (pMasterHash pFileHash : Side) : Option Bool :=
  (findConflicts uFileSize pFileHash pMasterHash pFileHash.status.corruptionSet).bind fun bResult =>
    if bResult then some true
    else findConflicts uFileSize pMasterHash pFileHash pMasterHash.status.corruptionSet

end Code

section Meaning

variable (uFileSize : ℕ) (corrupt correct : Side)

/-- A range of a hash lies in the common file. -/
def InFile (side : Side) (range : ℕ × ℕ) : Prop :=
  side.offset ≤ range.1 ∧ range.2 ≤ side.offset + uFileSize

/-- All blocks that cover a range were found correct. -/
def AllCorrect (side : Side) (uBegin uEnd : ℕ) : Prop :=
  ∀ i, Meets side.hash uBegin uEnd i → bitOf side.status i = true

/-- A corrupt range in the common file is covered by blocks of the other hash that are correct. -/
def Conflict : Prop :=
  ∃ r ∈ corrupt.status.corruptionSet, InFile uFileSize corrupt r ∧
    AllCorrect correct (r.1 - corrupt.offset + correct.offset) (r.2 - corrupt.offset + correct.offset)

/-- A corrupt range outside the common file, or across its bounds, touches the file, and where it
does all blocks of the other hash are correct, or the bound that it touches is one of blocks. -/
def FalseAlarm : Prop :=
  ∃ r ∈ corrupt.status.corruptionSet, ¬InFile uFileSize corrupt r ∧
    r.1 ≤ corrupt.offset + uFileSize ∧ corrupt.offset ≤ r.2 ∧ 0 < correct.hash.totalSize ∧
    ∀ i, blockBegin correct.hash i < min (r.2 - corrupt.offset) uFileSize + correct.offset →
      r.1 - corrupt.offset + correct.offset < blockBegin correct.hash (i + 1) →
      bitOf correct.status i = true

/-- The results of a hash whose file has the common one in it. -/
structure SideOk (side : Side) : Prop where
  /-- The sizes fit in their types. -/
  sizes : SizesOk side.hash
  /-- There is a bit for each block. -/
  sized : Sized side.hash side.status
  /-- The common file ends in the file. -/
  fits : side.offset + uFileSize ≤ side.hash.totalSize
  /-- Corrupt ranges are in the file and not empty. -/
  ranges : ∀ r ∈ side.status.corruptionSet, r.1 < r.2 ∧ r.2 ≤ side.hash.totalSize

end Meaning

section Loop

variable {uFileSize : ℕ} {corrupt correct : Side}

/-- A range is moved and cut, unless it ends before the common file or begins behind it. -/
theorem adjustIndexRange_eq (hfits : correct.offset + uFileSize < 2 ^ 64) (r : ℕ × ℕ) :
    adjustIndexRange uFileSize corrupt.offset correct.offset r =
      if r.1 ≤ corrupt.offset + uFileSize ∧ corrupt.offset ≤ r.2 then
        some (r.1 - corrupt.offset + correct.offset, min (r.2 - corrupt.offset) uFileSize + correct.offset)
      else none := by
  have hfrom : (if r.1 < corrupt.offset then 0
      else if corrupt.offset ≠ 0 then r.1 - corrupt.offset else r.1) = r.1 - corrupt.offset := by
    split_ifs <;> omega
  have hto : (if corrupt.offset ≠ 0 then r.2 - corrupt.offset else r.2) = r.2 - corrupt.offset := by
    split_ifs <;> omega
  have hcut : (if r.2 - corrupt.offset > uFileSize then uFileSize else r.2 - corrupt.offset) =
      min (r.2 - corrupt.offset) uFileSize := by
    split_ifs <;> omega
  dsimp only [adjustIndexRange]
  rw [hfrom, hto, hcut]
  by_cases hbegin : r.1 - corrupt.offset > uFileSize
  · rw [if_pos hbegin, if_neg (by omega)]
  · by_cases hend : r.2 < corrupt.offset
    · rw [if_neg hbegin, if_pos hend, if_neg (by omega)]
    · rw [if_neg hbegin, if_neg hend, if_pos (by omega), Nat.mod_eq_of_lt (by omega), Nat.mod_eq_of_lt (by omega)]

/-- The bits of the blocks around a range, also of an empty one, are tested. -/
theorem testBits_covering (hok : SideOk uFileSize correct) {uBegin uEnd : ℕ} (hle : uBegin ≤ uEnd)
    (hend : uEnd ≤ correct.hash.totalSize) : ∃ bResult, testBits (resized correct.hash correct.status)
      (indexRange correct.hash uBegin uEnd true) = some bResult ∧
      (bResult = true ↔ 0 < correct.hash.totalSize ∧ ∀ i, blockBegin correct.hash i < uEnd →
        uBegin < blockBegin correct.hash (i + 1) → bitOf correct.status i = true) := by
  have hlength := resized_length hok.sized
  rcases Nat.eq_zero_or_pos correct.hash.totalSize with hzero | hpos
  · rw [getStatusCount_of_empty hzero] at hlength
    rw [List.length_eq_zero_iff.mp hlength]
    exact ⟨false, rfl, iff_of_false Bool.false_ne_true fun hc => by omega⟩
  · have hbits : ∀ i, i < (resized correct.hash correct.status).length ↔
        blockBegin correct.hash i < correct.hash.totalSize := by
      intro i
      rw [hlength, lt_getStatusCount_iff hok.sizes hpos]
    have hmem : ∀ i, i ∈ indices (indexRange correct.hash uBegin uEnd true) ↔
        blockBegin correct.hash i < uEnd ∧ uBegin < blockBegin correct.hash (i + 1) := by
      intro i
      rw [mem_indices_iff, mem_covering_iff hok.sizes hpos (by omega) hend]
    obtain ⟨bResult, htest, hiff⟩ := testBits_eq fun i hi => by
        have hblock := (hmem i).mp hi
        rw [hbits]
        omega
    refine ⟨bResult, htest, hiff.trans (and_congr ?_ (forall_congr' fun i => ?_))⟩
    · refine iff_of_true (fun hnil => ?_) hpos
      have hfirst := (hbits 0).mpr (by rw [blockBegin, Nat.zero_div, Nat.zero_mod]; omega)
      rw [hnil] at hfirst
      exact absurd hfirst (Nat.not_lt_zero 0)
    · rw [hmem, resized_getD, and_imp]

/-- A loop finds a range whose blocks are all correct at the other offset, cut at the bounds. -/
theorem findConflicts_spec (corrupt : Side) (hok : SideOk uFileSize correct) (rs : List (ℕ × ℕ))
    (hranges : ∀ r ∈ rs, r.1 < r.2) : ∃ bResult, findConflicts uFileSize corrupt correct rs = some bResult ∧
      (bResult = true ↔ ∃ r ∈ rs, (r.1 ≤ corrupt.offset + uFileSize ∧ corrupt.offset ≤ r.2) ∧
        0 < correct.hash.totalSize ∧
        ∀ i, blockBegin correct.hash i < min (r.2 - corrupt.offset) uFileSize + correct.offset →
          r.1 - corrupt.offset + correct.offset < blockBegin correct.hash (i + 1) →
          bitOf correct.status i = true) := by
  have hfits := hok.fits
  have hsum := hok.sizes.sum
  have hpart := uPartSize_pos hok.sizes
  induction rs with
  | nil => exact ⟨false, rfl, iff_of_false Bool.false_ne_true fun hc => List.not_mem_nil hc.choose_spec.1⟩
  | cons r rest ih =>
    obtain ⟨bRest, hrest, hiff⟩ := ih fun r hr => hranges r (List.mem_cons_of_mem _ hr)
    have hr := hranges r List.mem_cons_self
    rw [findConflicts, adjustIndexRange_eq (by omega)]
    by_cases hpass : r.1 ≤ corrupt.offset + uFileSize ∧ corrupt.offset ≤ r.2
    · rw [if_pos hpass]
      obtain ⟨bResult, htest, hbits⟩ := testBits_covering hok (show r.1 - corrupt.offset + correct.offset ≤
          min (r.2 - corrupt.offset) uFileSize + correct.offset by omega) (by omega)
      dsimp only
      rw [htest, Option.bind_some, List.exists_mem_cons_iff, ← hbits, ← hiff]
      cases bResult with
      | true => exact ⟨true, if_pos rfl, iff_of_true rfl (Or.inl ⟨hpass, rfl⟩)⟩
      | false =>
        refine ⟨bRest, (if_neg Bool.false_ne_true).trans hrest, ?_⟩
        rw [or_iff_right fun hc => Bool.false_ne_true hc.2]
    · rw [if_neg hpass]
      refine ⟨bRest, hrest, ?_⟩
      rw [List.exists_mem_cons_iff, or_iff_right fun hc => hpass hc.1, hiff]

/-- A loop reports the conflicts and the false alarms. -/
theorem findConflicts_iff (hcorrupt : SideOk uFileSize corrupt) (hcorrect : SideOk uFileSize correct) :
    ∃ bResult, findConflicts uFileSize corrupt correct corrupt.status.corruptionSet = some bResult ∧
      (bResult = true ↔ Conflict uFileSize corrupt correct ∨ FalseAlarm uFileSize corrupt correct) := by
  obtain ⟨bResult, hfind, hiff⟩ := findConflicts_spec corrupt hcorrect
    corrupt.status.corruptionSet fun r hr => (hcorrupt.ranges r hr).1
  have hfits := hcorrect.fits
  refine ⟨bResult, hfind, hiff.trans ?_⟩
  have hinside : ∀ r ∈ corrupt.status.corruptionSet, InFile uFileSize corrupt r →
      r.1 - corrupt.offset + correct.offset < r.2 - corrupt.offset + correct.offset ∧
      r.2 - corrupt.offset + correct.offset ≤ correct.hash.totalSize ∧
      min (r.2 - corrupt.offset) uFileSize = r.2 - corrupt.offset := by
    rintro r hr ⟨hbegin, hend⟩
    have hrange := hcorrupt.ranges r hr
    omega
  constructor
  · rintro ⟨r, hr, hpass, hpos, hall⟩
    by_cases hin : InFile uFileSize corrupt r
    · obtain ⟨hlt, hend, hmin⟩ := hinside r hr hin
      refine Or.inl ⟨r, hr, hin, fun i hi => ?_⟩
      rw [meets_iff hcorrect.sizes hpos hlt hend] at hi
      exact hall i (by rw [hmin]; exact hi.1) hi.2
    · exact Or.inr ⟨r, hr, hin, hpass.1, hpass.2, hpos, hall⟩
  · rintro (⟨r, hr, hin, hall⟩ | ⟨r, hr, hin, hbegin, hend, hpos, hall⟩)
    · obtain ⟨hlt, hend, hmin⟩ := hinside r hr hin
      have hpos : 0 < correct.hash.totalSize := by omega
      have hrange := hcorrupt.ranges r hr
      refine ⟨r, hr, ⟨by have := hin.2; omega, by have := hin.1; omega⟩, hpos, fun i hi hnext => ?_⟩
      refine hall i ((meets_iff hcorrect.sizes hpos hlt hend i).mpr ⟨?_, hnext⟩)
      rw [hmin] at hi
      exact hi
    · exact ⟨r, hr, ⟨hbegin, hend⟩, hpos, hall⟩

end Loop

section Claim

variable {uFileSize : ℕ} {pMasterHash pFileHash : Side}

/-- The report is exact: there is one if and only if there is a conflict. -/
def Exact (uFileSize : ℕ) (pMasterHash pFileHash : Side) : Prop :=
  ∃ bResult, findHashConflicts uFileSize pMasterHash pFileHash = some bResult ∧ (bResult = true ↔
      Conflict uFileSize pFileHash pMasterHash ∨ Conflict uFileSize pMasterHash pFileHash)

section

variable (hmaster : SideOk uFileSize pMasterHash) (hfile : SideOk uFileSize pFileHash)

include hmaster hfile

/-- What is reported: the conflicts and the false alarms. -/
theorem findHashConflicts_spec :
    ∃ bResult, findHashConflicts uFileSize pMasterHash pFileHash = some bResult ∧ (bResult = true ↔
        (Conflict uFileSize pFileHash pMasterHash ∨ Conflict uFileSize pMasterHash pFileHash) ∨
        FalseAlarm uFileSize pFileHash pMasterHash ∨ FalseAlarm uFileSize pMasterHash pFileHash) := by
  obtain ⟨bFirst, hfirst, hfirstIff⟩ := findConflicts_iff hfile hmaster
  obtain ⟨bSecond, hsecond, hsecondIff⟩ := findConflicts_iff hmaster hfile
  rw [findHashConflicts, hfirst, hsecond, Option.bind_some]
  cases bFirst with
  | true =>
    refine ⟨true, if_pos rfl, iff_of_true rfl ?_⟩
    rcases hfirstIff.mp rfl with hconflict | halarm
    · exact Or.inl (Or.inl hconflict)
    · exact Or.inr (Or.inl halarm)
  | false =>
    have hnone := mt hfirstIff.mpr Bool.false_ne_true
    refine ⟨bSecond, if_neg Bool.false_ne_true, ?_⟩
    rw [hsecondIff]
    tauto

theorem findHashConflicts_exact_of
    (h : (Conflict uFileSize pFileHash pMasterHash ∨ Conflict uFileSize pMasterHash pFileHash) ∨
      ¬(FalseAlarm uFileSize pFileHash pMasterHash ∨ FalseAlarm uFileSize pMasterHash pFileHash)) :
    Exact uFileSize pMasterHash pFileHash := by
  obtain ⟨bResult, hfind, hiff⟩ := findHashConflicts_spec hmaster hfile
  refine ⟨bResult, hfind, hiff.trans ?_⟩
  tauto

/-- The report is exact if and only if there is a conflict, or no false alarm. -/
theorem findHashConflicts_exact_iff : Exact uFileSize pMasterHash pFileHash ↔
      (Conflict uFileSize pFileHash pMasterHash ∨ Conflict uFileSize pMasterHash pFileHash) ∨
      ¬(FalseAlarm uFileSize pFileHash pMasterHash ∨ FalseAlarm uFileSize pMasterHash pFileHash) := by
  refine ⟨?_, findHashConflicts_exact_of hmaster hfile⟩
  rintro ⟨bExact, hexact, hsame⟩
  obtain ⟨bResult, hfind, hiff⟩ := findHashConflicts_spec hmaster hfile
  have hbool : bResult = bExact := Option.some.inj (hfind.symm.trans hexact)
  rw [hbool] at hiff
  tauto

end

/-- The second half of a file, in blocks of five bytes. -/
def subSide (bits : List Bool) : Side := ⟨⟨10, 0, 5⟩, ⟨bits, []⟩, 0⟩

/-- The file, in parts of some length, the first of which is corrupt. -/
def masterSide (uPartSize : ℕ) (bits : List Bool) : Side :=
  ⟨⟨20, uPartSize, 0⟩, ⟨bits, [(0, uPartSize)]⟩, 10⟩

theorem subSide_ok : SideOk 10 (subSide [true, true]) where
  sizes := SizesOk.of_lt (Or.inr (by decide)) (by decide) (by decide) (by decide) (by decide)
  sized := Or.inr (by decide)
  fits := le_rfl
  ranges := fun _ hr => absurd hr List.not_mem_nil

theorem masterSide_ok : SideOk 10 (masterSide 10 [false, false]) where
  sizes := SizesOk.of_lt (Or.inl (by decide)) (by decide) (by decide) (by decide) (by decide)
  sized := Or.inr (by decide)
  fits := le_rfl
  ranges := by
    intro r hr
    rw [List.mem_singleton.mp hr]
    exact ⟨by decide, by decide⟩

/-- The corrupt first half of a file, and the hash of its second half. -/
theorem findHashConflicts_exact_iff_half : Exact 10 (masterSide 10 [false, false]) (subSide [true, true]) ↔
      (Conflict 10 (subSide [true, true]) (masterSide 10 [false, false]) ∨
        Conflict 10 (masterSide 10 [false, false]) (subSide [true, true])) ∨
      ¬(FalseAlarm 10 (subSide [true, true]) (masterSide 10 [false, false]) ∨
        FalseAlarm 10 (masterSide 10 [false, false]) (subSide [true, true])) :=
  findHashConflicts_exact_iff masterSide_ok subSide_ok

theorem masterSide_no_conflict {uPartSize : ℕ} {bits other : List Bool} :
    ¬(Conflict 10 (subSide other) (masterSide uPartSize bits) ∨
      Conflict 10 (masterSide uPartSize bits) (subSide other)) := by
  rintro (⟨r, hr, -⟩ | ⟨r, hr, ⟨hbegin, -⟩, -⟩)
  · exact absurd hr List.not_mem_nil
  · rw [List.mem_singleton.mp hr] at hbegin
    exact absurd hbegin (by decide : ¬10 ≤ 0)

/-- The hash of the second half conflicts with a corrupt first half that only touches it, though no
block was found correct, and with a corrupt part that has both halves. -/
theorem findHashConflicts_touching : ¬Exact 10 (masterSide 10 [false, false]) (subSide [false, false]) ∧
      ¬Exact 10 (masterSide 20 [false]) (subSide [true, true]) := by
  constructor
  · rintro ⟨bResult, hfind, hiff⟩
    have htrue : findHashConflicts 10 (masterSide 10 [false, false]) (subSide [false, false]) =
        some true := by decide
    exact masterSide_no_conflict (hiff.mp (Option.some.inj (hfind.symm.trans htrue)))
  · rintro ⟨bResult, hfind, hiff⟩
    have htrue : findHashConflicts 10 (masterSide 20 [false]) (subSide [true, true]) =
        some true := by decide
    exact masterSide_no_conflict (hiff.mp (Option.some.inj (hfind.symm.trans htrue)))

end Claim

end NeoLoader.HashConflicts
