import NeoLoader.HashSetVerify

/-!
# Importing parts of another file

Parts that another file has, by the hashes of its data, are copied in chunks. The position goes on before a
chunk is read, and when it has reached the end of the part, the part is marked. Only reading nothing
ends a part early.
-/

namespace NeoLoader.ImportParts

open HashSetRoot HashSetVerify PartStates RangeMap SharedRanges StepFunction

section Code

/-- Bytes that were read from a place of the source and written to a place of the target. -/
structure Chunk where
  /-- The position in the source. -/
  source : ℕ
  /-- The position in the target. -/
  target : ℕ
  /-- The number of bytes that were written. -/
  count : ℕ
  deriving DecidableEq

def BuffSize : ℕ := 16 * 1024

/-- The loop over the chunks of a part, with what each read and each write gives: nothing if it fails. -/
def copyLoop (reads writes : ℕ → Option ℕ) (uSize : ℕ) : ℕ → ℕ → ℕ → ℕ → ℕ → List Chunk → ℕ × List Chunk
  | 0, uPos, _, _, _, copied => (uPos, copied)
  | fuel + 1, uPos, chunk, source, target, copied =>
    if uPos < uSize then
      let uToGo := if uPos + BuffSize > uSize then uSize - uPos else BuffSize
      let uRead := min ((reads chunk).getD 0) uToGo
      if uRead < 1 then (uPos + uToGo, copied)
      else
        let uWritten := min ((writes chunk).getD 0) uRead
        copyLoop reads writes uSize fuel (uPos + uToGo) (chunk + 1) (source + uRead) (target + uWritten)
          (copied ++ [⟨source, target, uWritten⟩])
    else (uPos, copied)

/-- What the loop does with a part. -/
def copyPart (reads writes : ℕ → Option ℕ) (uBegin uSize : ℕ) : ℕ × List Chunk :=
  copyLoop reads writes uSize uSize 0 0 uBegin uBegin []

/-- What a job changes. -/
structure Job where
  /-- The results of the hash. -/
  hash : BlockIndex.Status
  parts : CRangeMap SPartRange
  /-- What was copied. -/
  copied : List Chunk
  /-- The parts that were marked as available. -/
  marked : List ℕ
  deriving DecidableEq

/-- No byte of a part is verified. -/
def unverified (parts : CRangeMap SPartRange) (uBegin uEnd : ℕ) : Bool :=
  (parts.getRange partMapOps uBegin uEnd EMerge.eUnion (SPartRange.ofStates 0)).and Part.Verified = 0

variable (set : CFileHashSet) (reads writes : ℕ → ℕ → Option ℕ)

/-- `uEnd` of the loop of `Execute`. -/
def importEnd (i : ℕ) : ℕ := min ((partBegin set i + set.partSize) % 2 ^ 64) set.totalSize

/-- The loop of `Execute`, for one part. -/
def importPart (StatusMap : List Bool) (job : Job) (i : ℕ) : Option Job :=
  let uBegin := partBegin set i
  let uEnd := importEnd set i
  if StatusMap[i]?.getD false && unverified job.parts uBegin uEnd then
    let uSize := uEnd - uBegin
    let copy := copyPart (reads i) (writes i) uBegin uSize
    if copy.1 = uSize then
      (BlockIndex.setResult (sizesOf set) job.hash true uBegin uEnd).map fun hash =>
        ⟨hash, job.parts.setRange partMapOps uBegin uEnd
          (SPartRange.ofStates (BitVec.ofNat 32 Part.Available)) ESet.eAdd,
          job.copied ++ copy.2, job.marked ++ [i]⟩
    else some { job with copied := job.copied ++ copy.2 }
  else some job

/-- `CImportPartsJob::Execute`, with the results of the verification of the source. -/
def execute (aux : BlockIndex.Status) (hash : BlockIndex.Status) (parts : CRangeMap SPartRange) :
    Option Job :=
  let StatusMap := BlockIndex.resized (sizesOf set) aux
  (List.range StatusMap.length).foldlM (importPart set reads writes StatusMap) ⟨hash, parts, [], []⟩

end Code

section Loop

variable {reads writes : ℕ → Option ℕ} {uSize : ℕ}

/-- A byte was read from the source and written to its place in the target. -/
def Copied (copied : List Chunk) (x : ℕ) : Prop :=
  ∃ c ∈ copied, c.source = c.target ∧ c.source ≤ x ∧ x < c.source + c.count

/-- The length of a chunk. -/
def chunkSize (uSize chunk : ℕ) : ℕ := min BuffSize (uSize - chunk * BuffSize)

/-- A chunk other than the last one gives nothing. -/
def EndsEarly (reads : ℕ → Option ℕ) (uSize first : ℕ) : Prop :=
  ∃ chunk ≥ first, (chunk + 1) * BuffSize < uSize ∧ (reads chunk).getD 0 = 0

/-- Every chunk is read and written as a whole. -/
def CopiesAll (reads writes : ℕ → Option ℕ) (uSize first : ℕ) : Prop :=
  ∀ chunk ≥ first, chunk * BuffSize < uSize →
    chunkSize uSize chunk ≤ (reads chunk).getD 0 ∧ chunkSize uSize chunk ≤ (writes chunk).getD 0

theorem buffSize_pos : 0 < BuffSize := by decide

/-- The position behind a chunk. -/
def behind (uSize chunk : ℕ) : ℕ := min (chunk * BuffSize) uSize

theorem behind_succ (uSize chunk : ℕ) : behind uSize chunk + chunkSize uSize chunk = behind uSize (chunk + 1) := by
  simp only [behind, chunkSize, Nat.add_mul, Nat.one_mul]
  omega

variable {chunk : ℕ}

theorem uToGo_eq (hlt : behind uSize chunk < uSize) :
    (if behind uSize chunk + BuffSize > uSize then uSize - behind uSize chunk else BuffSize) =
      chunkSize uSize chunk := by
  unfold behind at hlt ⊢
  rw [chunkSize]
  split_ifs <;> omega

theorem chunkSize_pos (hlt : behind uSize chunk < uSize) : 0 < chunkSize uSize chunk := by
  have hbuff := buffSize_pos
  unfold behind at hlt
  rw [chunkSize]
  omega

theorem copyLoop_done (h : ¬behind uSize chunk < uSize) (fuel source target : ℕ) (copied : List Chunk) :
    copyLoop reads writes uSize fuel (behind uSize chunk) chunk source target copied = (uSize, copied) := by
  have hend : behind uSize chunk = uSize := (Nat.min_le_right _ _).antisymm (not_lt.mp h)
  cases fuel <;> simp [copyLoop, hend]

theorem copyLoop_stop (h : behind uSize chunk < uSize) (hread : (reads chunk).getD 0 = 0)
    (fuel source target : ℕ) (copied : List Chunk) :
    copyLoop reads writes uSize (fuel + 1) (behind uSize chunk) chunk source target copied =
      (behind uSize (chunk + 1), copied) := by
  simp only [copyLoop, h, if_true, uToGo_eq h, hread, behind_succ]
  simp

/-- The loop goes on when something is read. -/
theorem copyLoop_next (writes : ℕ → Option ℕ) (h : behind uSize chunk < uSize) (hread : (reads chunk).getD 0 ≠ 0)
    (fuel source target : ℕ) (copied : List Chunk) :
    ∃ uRead uWritten, uRead = min ((reads chunk).getD 0) (chunkSize uSize chunk) ∧
      uWritten = min ((writes chunk).getD 0) uRead ∧
      copyLoop reads writes uSize (fuel + 1) (behind uSize chunk) chunk source target copied =
        copyLoop reads writes uSize fuel (behind uSize (chunk + 1)) (chunk + 1) (source + uRead)
          (target + uWritten) (copied ++ [⟨source, target, uWritten⟩]) := by
  have hpos := chunkSize_pos h
  refine ⟨_, _, rfl, rfl, ?_⟩
  have hsome : ¬min ((reads chunk).getD 0) (chunkSize uSize chunk) < 1 := by omega
  simp only [copyLoop, h, if_true, uToGo_eq h, hsome, if_false, behind_succ]

theorem fuel_next {chunk fuel : ℕ} (h : behind uSize chunk < uSize)
    (hfuel : uSize - behind uSize chunk ≤ fuel + 1) : uSize - behind uSize (chunk + 1) ≤ fuel := by
  have hpos := chunkSize_pos h
  have hnext := behind_succ uSize chunk
  omega

theorem not_endsEarly {first : ℕ} (h : uSize ≤ first * BuffSize) : ¬EndsEarly reads uSize first := by
  rintro ⟨chunk, hchunk, hlt, -⟩
  have hmono := Nat.mul_le_mul_right BuffSize (hchunk.trans (Nat.le_succ chunk))
  rw [Nat.succ_eq_add_one] at hmono
  omega

/-- The loop gets to the end of the part unless a chunk other than the last one gives nothing. -/
theorem copyLoop_end_iff (fuel chunk source target : ℕ) (copied : List Chunk)
    (hfuel : uSize - behind uSize chunk ≤ fuel) :
    (copyLoop reads writes uSize fuel (behind uSize chunk) chunk source target copied).1 = uSize ↔
      ¬EndsEarly reads uSize chunk := by
  induction fuel generalizing chunk source target copied with
  | zero =>
    have hend : ¬behind uSize chunk < uSize := by omega
    have hpast : uSize ≤ chunk * BuffSize := by
      unfold behind at hend
      omega
    rw [copyLoop_done hend]
    exact iff_of_true rfl (not_endsEarly hpast)
  | succ fuel ih =>
    by_cases hlt : behind uSize chunk < uSize
    · have hnext : (chunk + 1) * BuffSize = chunk * BuffSize + BuffSize := by
        rw [Nat.add_mul, Nat.one_mul]
      by_cases hread : (reads chunk).getD 0 = 0
      · rw [copyLoop_stop hlt hread]
        by_cases hlast : (chunk + 1) * BuffSize < uSize
        · have hnot : behind uSize (chunk + 1) ≠ uSize := by
            unfold behind
            omega
          exact iff_of_false hnot (not_not.mpr ⟨chunk, le_rfl, hlast, hread⟩)
        · have hend : behind uSize (chunk + 1) = uSize := Nat.min_eq_right (not_lt.mp hlast)
          refine iff_of_true hend ?_
          rintro ⟨other, hother, hbefore, -⟩
          have hmono := Nat.mul_le_mul_right BuffSize (Nat.succ_le_succ hother)
          simp only [Nat.succ_eq_add_one] at hmono
          omega
      · obtain ⟨uRead, uWritten, -, -, hloop⟩ :=
          copyLoop_next writes hlt hread fuel source target copied
        rw [hloop, ih (chunk + 1) _ _ _ (fuel_next hlt hfuel)]
        refine not_congr ⟨fun ⟨other, hother, hrest⟩ => ⟨other, by omega, hrest⟩, ?_⟩
        rintro ⟨other, hother, hbefore, hnone⟩
        refine ⟨other, ?_, hbefore, hnone⟩
        rcases Nat.eq_or_lt_of_le hother with rfl | hlater
        · exact absurd hnone hread
        · exact hlater
    · have hpast : uSize ≤ chunk * BuffSize := by
        unfold behind at hlt
        omega
      rw [copyLoop_done hlt]
      exact iff_of_true rfl (not_endsEarly hpast)

/-- The chunks that the loop adds lie behind those before, and not behind the end of the part. -/
theorem copyLoop_bounds (fuel chunk source target : ℕ) (copied : List Chunk) :
    ∀ c ∈ (copyLoop reads writes uSize fuel (behind uSize chunk) chunk source target copied).2,
      c ∈ copied ∨ source ≤ c.source ∧ c.source + c.count ≤ source + (uSize - behind uSize chunk) := by
  induction fuel generalizing chunk source target copied with
  | zero => simp +contextual [copyLoop]
  | succ fuel ih =>
    by_cases hlt : behind uSize chunk < uSize
    · by_cases hread : (reads chunk).getD 0 = 0
      · rw [copyLoop_stop hlt hread]
        exact fun c hc => Or.inl hc
      · obtain ⟨uRead, uWritten, hRead, hWritten, hloop⟩ :=
          copyLoop_next writes hlt hread fuel source target copied
        have hnext := behind_succ uSize chunk
        have hle : behind uSize (chunk + 1) ≤ uSize := Nat.min_le_right _ _
        rw [hloop]
        intro c hc
        rcases ih (chunk + 1) _ _ _ c hc with hc | hc
        · rcases List.mem_append.mp hc with hc | hc
          · exact Or.inl hc
          · refine Or.inr ?_
            rw [List.mem_singleton.mp hc]
            dsimp only
            omega
        · exact Or.inr (by omega)
    · rw [copyLoop_done hlt]
      exact fun c hc => Or.inl hc

/-- No chunk is lost. -/
theorem mem_copyLoop (fuel uPos chunk source target : ℕ) {copied : List Chunk} {c : Chunk}
    (h : c ∈ copied) : c ∈ (copyLoop reads writes uSize fuel uPos chunk source target copied).2 := by
  induction fuel generalizing uPos chunk source target copied with
  | zero => simpa [copyLoop] using h
  | succ fuel ih =>
    by_cases hlt : uPos < uSize
    · by_cases hread : min ((reads chunk).getD 0) (if uPos + BuffSize > uSize then uSize - uPos else BuffSize) < 1
      · simpa only [copyLoop, hlt, if_true, hread] using h
      · simp only [copyLoop, hlt, if_true, hread, if_false]
        exact ih _ _ _ _ (List.mem_append_left _ h)
    · simpa only [copyLoop, hlt, if_false] using h

/-- All bytes from a chunk on are copied if and only if every chunk is read and written as a whole. -/
theorem copyLoop_covers_iff (fuel chunk source : ℕ) (copied : List Chunk)
    (hfuel : uSize - behind uSize chunk ≤ fuel) (hbefore : ∀ c ∈ copied, c.source + c.count ≤ source) :
    (∀ x, source ≤ x → x < source + (uSize - behind uSize chunk) →
      Copied (copyLoop reads writes uSize fuel (behind uSize chunk) chunk source source copied).2 x) ↔
      CopiesAll reads writes uSize chunk := by
  induction fuel generalizing chunk source copied with
  | zero =>
    have hend : uSize ≤ chunk * BuffSize := by
      unfold behind at hfuel
      omega
    refine iff_of_true (fun x hx hx' => by omega) fun other hother hlt => ?_
    have hmono := Nat.mul_le_mul_right BuffSize hother
    omega
  | succ fuel ih =>
    by_cases hlt : behind uSize chunk < uSize
    · have hfirst : chunk * BuffSize < uSize := by
        unfold behind at hlt
        omega
      have hpos := chunkSize_pos hlt
      have hnext := behind_succ uSize chunk
      have hle : behind uSize (chunk + 1) ≤ uSize := Nat.min_le_right _ _
      by_cases hread : (reads chunk).getD 0 = 0
      · rw [copyLoop_stop hlt hread]
        refine iff_of_false (fun hall => ?_) fun hall => ?_
        · obtain ⟨c, hc, -, -, hend⟩ := hall source le_rfl (by omega)
          exact absurd (hbefore c hc) (by omega)
        · have hwhole := (hall chunk le_rfl hfirst).1
          omega
      · obtain ⟨uRead, uWritten, hRead, hWritten, hloop⟩ :=
          copyLoop_next writes hlt hread fuel source source copied
        have hbounds := @copyLoop_bounds reads writes uSize fuel
          (chunk + 1) (source + uRead) (source + uWritten) (copied ++ [⟨source, source, uWritten⟩])
        by_cases hfull : uWritten = chunkSize uSize chunk
        · have hReadFull : uRead = chunkSize uSize chunk := by omega
          rw [hloop, hReadFull, hfull]
          have hnew : ∀ c ∈ copied ++ [⟨source, source, chunkSize uSize chunk⟩],
              c.source + c.count ≤ source + chunkSize uSize chunk := by
            intro c hc
            rcases List.mem_append.mp hc with hc | hc
            · have hend := hbefore c hc
              omega
            · simp [List.mem_singleton.mp hc]
          have hrest := ih (chunk + 1) (source + chunkSize uSize chunk)
            (copied ++ [⟨source, source, chunkSize uSize chunk⟩]) (fuel_next hlt hfuel) hnew
          constructor
          · intro hall other hother hbytes
            rcases Nat.eq_or_lt_of_le hother with rfl | hlater
            · omega
            · exact hrest.mp (fun x hx hx' => hall x (by omega) (by omega)) other hlater hbytes
          · intro hall x hx hx'
            by_cases hin : x < source + chunkSize uSize chunk
            · exact ⟨⟨source, source, chunkSize uSize chunk⟩, mem_copyLoop _ _ _ _ _ (by simp), rfl, hx, hin⟩
            · exact hrest.mpr (fun other hother => hall other (by omega)) x (by omega) (by omega)
        · refine iff_of_false (fun hall => ?_) fun hall => ?_
          · rw [hloop] at hall
            by_cases hshort : uRead = chunkSize uSize chunk
            · -- The last byte that was read is not written to its place.
              obtain ⟨c, hc, -, hbegin, hend⟩ := hall (source + uRead - 1) (by omega) (by omega)
              rcases hbounds c hc with hc | hc
              · rcases List.mem_append.mp hc with hc | hc
                · have hless := hbefore c hc
                  omega
                · rw [List.mem_singleton.mp hc] at hend
                  dsimp only at hend
                  omega
              · omega
            · -- The last byte of the part is not read.
              obtain ⟨c, hc, -, hbegin, hend⟩ :=
                hall (source + (uSize - behind uSize chunk) - 1) (by omega) (by omega)
              rcases hbounds c hc with hc | hc
              · rcases List.mem_append.mp hc with hc | hc
                · have hless := hbefore c hc
                  omega
                · rw [List.mem_singleton.mp hc] at hend
                  dsimp only at hend
                  omega
              · omega
          · have hwhole := hall chunk le_rfl hfirst
            omega
    · have hend : uSize ≤ chunk * BuffSize := by
        unfold behind at hlt
        omega
      refine iff_of_true (fun x hx hx' => by omega) fun other hother hbytes => ?_
      have hmono := Nat.mul_le_mul_right BuffSize hother
      omega

theorem copyPart_end_iff (reads writes : ℕ → Option ℕ) (uBegin uSize : ℕ) :
    (copyPart reads writes uBegin uSize).1 = uSize ↔ ¬EndsEarly reads uSize 0 := by
  simpa [copyPart, behind] using @copyLoop_end_iff reads writes uSize uSize 0 uBegin uBegin [] (by simp [behind])

theorem copyPart_bounds (reads writes : ℕ → Option ℕ) (uBegin uSize : ℕ) : ∀ c ∈ (copyPart reads writes uBegin uSize).2,
      uBegin ≤ c.source ∧ c.source + c.count ≤ uBegin + uSize := by
  have hbounds := @copyLoop_bounds reads writes uSize uSize 0 uBegin uBegin []
  simpa [copyPart, behind] using hbounds

theorem copyPart_covers_iff (reads writes : ℕ → Option ℕ) (uBegin uSize : ℕ) :
    (∀ x, uBegin ≤ x → x < uBegin + uSize → Copied (copyPart reads writes uBegin uSize).2 x) ↔
      CopiesAll reads writes uSize 0 := by
  have hcovers := @copyLoop_covers_iff reads writes uSize uSize 0 uBegin [] (by simp [behind]) (by simp)
  simpa [copyPart, behind] using hcovers

end Loop

section Run

variable {set : CFileHashSet} {reads writes : ℕ → ℕ → Option ℕ} {aux hash : BlockIndex.Status}
variable {parts : CRangeMap SPartRange}

/-- The length of a part. -/
def partLength (set : CFileHashSet) (i : ℕ) : ℕ :=
  min ((i + 1) * set.partSize) set.totalSize - i * set.partSize

/-- The bytes of a part. -/
def InPart (set : CFileHashSet) (i x : ℕ) : Prop :=
  i * set.partSize ≤ x ∧ x < i * set.partSize + partLength set i

instance (set : CFileHashSet) (i x : ℕ) : Decidable (InPart set i x) := instDecidableAnd

/-- A part is copied: the source has it, and no byte of it is verified. -/
def Due (set : CFileHashSet) (aux : BlockIndex.Status) (parts : CRangeMap SPartRange) (i : ℕ) : Prop :=
  BlockIndex.bitOf aux i = true ∧ ∀ x, InPart set i x → bit (stateAt partMapOps parts x) 1 = false

/-- The flag of a state that is verified. -/
theorem and_verified_eq_zero_iff (s : SPartRange) : s.and Part.Verified = 0 ↔ bit s 1 = false := by
  have hflag : ∀ k, k ≠ 1 → (BitVec.ofNat 32 Part.Verified).getLsbD k = false := fun k hk =>
    getLsbD_flag (j := 1) (by omega) hk
  constructor
  · intro hzero
    have hbit := congrArg (fun b => b.getLsbD 1) hzero
    simp only [SPartRange.and, BitVec.getLsbD_and] at hbit
    simpa [Part.Verified, bit] using hbit
  · intro hbit
    refine BitVec.eq_of_getLsbD_eq fun k hk => ?_
    rw [SPartRange.and, BitVec.getLsbD_and]
    by_cases hone : k = 1
    · have hclear : s.uStates.getLsbD 1 = false := hbit
      rw [hone, hclear]
      simp
    · rw [hflag k hone]
      simp

/-- No byte of a part is verified. -/
theorem unverified_iff {size : ℕ} (hp : Canonical partMapOps size parts) (hsize : size < 2 ^ 63)
    {uBegin uEnd : ℕ} (hlt : uBegin < uEnd) (hend : uEnd ≤ size) :
    unverified parts uBegin uEnd = true ↔ ∀ x, uBegin ≤ x → x < uEnd → bit (stateAt partMapOps parts x) 1 = false := by
  have hmask : ∀ v, CRangeMap.masked partMapOps (SPartRange.ofStates 0) v = v := fun v =>
    if_neg (by decide)
  have hplain : Plain 1 := ⟨by omega, by omega, by omega⟩
  have hmerge : ∀ u v : SPartRange, bit (partMapOps.mergeState u v EMerge.eUnion) 1 = false ↔
      bit u 1 = false ∧ bit v 1 = false := by
    intro u v
    change bit (SPartRange.mergeState u v EMerge.eUnion) 1 = false ↔ _
    simp [bit_union u v hplain]
  have hrange := @getRange_forall _ partMapOps size parts hp (by omega) EMerge.eUnion
    (fun v => bit v 1 = false) hmerge uBegin uEnd hlt hend (SPartRange.ofStates 0)
  simp only [hmask] at hrange
  rw [unverified, decide_eq_true_eq, and_verified_eq_zero_iff, hrange]

/-- What a job has done after some parts. -/
structure Imported (set : CFileHashSet) (reads writes : ℕ → ℕ → Option ℕ) (aux : BlockIndex.Status)
    (parts : CRangeMap SPartRange) (n : ℕ) (job : Job) : Prop where
  /-- The hash has a bit for each part. -/
  sized : BlockIndex.Sized (sizesOf set) job.hash
  /-- The map stays one. -/
  canonical : Canonical partMapOps set.totalSize job.parts
  /-- The bytes of the parts that were marked became available, and no others. -/
  available : ∀ x, bit (stateAt partMapOps job.parts x) 0 = true ↔
    bit (stateAt partMapOps parts x) 0 = true ∨ ∃ i ∈ job.marked, InPart set i x
  /-- No byte was verified or lost its verification. -/
  verified : ∀ x, bit (stateAt partMapOps job.parts x) 1 = bit (stateAt partMapOps parts x) 1
  /-- The parts that were marked. -/
  marked : ∀ i, i ∈ job.marked ↔ i < n ∧ Due set aux parts i ∧ ¬EndsEarly (reads i) (partLength set i) 0
  /-- What was copied. -/
  copied : ∀ c, c ∈ job.copied ↔ ∃ i < n, Due set aux parts i ∧
    c ∈ (copyPart (reads i) (writes i) (i * set.partSize) (partLength set i)).2

theorem part_range (hok : SetOk set) {i : ℕ} (hi : i * set.partSize < set.totalSize) :
    partBegin set i = i * set.partSize ∧ importEnd set i = i * set.partSize + partLength set i ∧ 0 < partLength set i ∧
      i * set.partSize + partLength set i = min ((i + 1) * set.partSize) set.totalSize := by
  have hsum := hok.sum
  have hpart := hok.part
  have hnext : (i + 1) * set.partSize = i * set.partSize + set.partSize := by
    rw [Nat.add_mul, Nat.one_mul]
  have hbegin : partBegin set i = i * set.partSize := Nat.mod_eq_of_lt (by omega)
  have hwrap : (i * set.partSize + set.partSize) % 2 ^ 64 = i * set.partSize + set.partSize :=
    Nat.mod_eq_of_lt (by omega)
  rw [importEnd, hbegin, hwrap, partLength, hnext]
  omega

section

variable {n : ℕ} {job : Job} (h : Imported set reads writes aux parts n job)

include h

theorem Imported.skip (hdue : ¬Due set aux parts n) : Imported set reads writes aux parts (n + 1) job := by
  refine ⟨h.sized, h.canonical, h.available, h.verified, fun i => ?_, fun c => ?_⟩
  · rw [h.marked, Nat.lt_succ_iff_lt_or_eq]
    constructor
    · exact fun ⟨hi, hrest⟩ => ⟨Or.inl hi, hrest⟩
    · rintro ⟨hi | rfl, hrest⟩
      · exact ⟨hi, hrest⟩
      · exact absurd hrest.1 hdue
  · simp only [h.copied, Nat.exists_lt_succ_right, hdue, false_and, or_false]

theorem Imported.mem_copied (hdue : Due set aux parts n) (c : Chunk) :
    c ∈ job.copied ++ (copyPart (reads n) (writes n) (n * set.partSize) (partLength set n)).2 ↔
      ∃ i < n + 1, Due set aux parts i ∧
        c ∈ (copyPart (reads i) (writes i) (i * set.partSize) (partLength set i)).2 := by
  rw [List.mem_append, h.copied, Nat.exists_lt_succ_right, and_iff_right hdue]

/-- A part that is copied until nothing is read. -/
theorem Imported.early (hdue : Due set aux parts n) (hearly : EndsEarly (reads n) (partLength set n) 0) :
    Imported set reads writes aux parts (n + 1) { job with copied := job.copied ++
      (copyPart (reads n) (writes n) (n * set.partSize) (partLength set n)).2 } := by
  refine ⟨h.sized, h.canonical, h.available, h.verified, fun i => ?_, h.mem_copied hdue⟩
  rw [h.marked, Nat.lt_succ_iff_lt_or_eq]
  constructor
  · exact fun ⟨hi, hrest⟩ => ⟨Or.inl hi, hrest⟩
  · rintro ⟨hi | rfl, hduei, hnone⟩
    · exact ⟨hi, hduei, hnone⟩
    · exact absurd hearly hnone

end

theorem Imported.mark (hok : SetOk set) {n : ℕ} {job : Job}
    (h : Imported set reads writes aux parts n job) (hdue : Due set aux parts n)
    (hearly : ¬EndsEarly (reads n) (partLength set n) 0) (hlength : 0 < partLength set n)
    (hbound : n * set.partSize + partLength set n ≤ set.totalSize) {hash' : BlockIndex.Status}
    (hsized : BlockIndex.Sized (sizesOf set) hash') :
    Imported set reads writes aux parts (n + 1)
      ⟨hash', job.parts.setRange partMapOps (n * set.partSize) (n * set.partSize + partLength set n)
        (SPartRange.ofStates (BitVec.ofNat 32 Part.Available)) ESet.eAdd,
        job.copied ++ (copyPart (reads n) (writes n) (n * set.partSize) (partLength set n)).2,
        job.marked ++ [n]⟩ := by
  have hsize : set.totalSize < 2 ^ 64 := hok.size.trans (by decide)
  have hlt : n * set.partSize < n * set.partSize + partLength set n := by omega
  have hstate : ∀ x, stateAt partMapOps (job.parts.setRange partMapOps (n * set.partSize)
      (n * set.partSize + partLength set n) (SPartRange.ofStates (BitVec.ofNat 32 Part.Available))
      ESet.eAdd) x = if InPart set n x then partMapOps.makeState (stateAt partMapOps job.parts x)
        (SPartRange.ofStates (BitVec.ofNat 32 Part.Available)) ESet.eAdd
      else stateAt partMapOps job.parts x := stateAt_setRange h.canonical hsize hlt hbound _ _
  have hadd : ∀ v k, Plain k → bit (partMapOps.makeState v
      (SPartRange.ofStates (BitVec.ofNat 32 Part.Available)) ESet.eAdd) k =
        (bit v k || (BitVec.ofNat 32 Part.Available).getLsbD k) := fun v k hk => bit_add v _ hk
  refine ⟨hsized, setRange_canonical h.canonical hsize hlt hbound _ _, fun x => ?_, fun x => ?_,
    fun i => ?_, h.mem_copied hdue⟩
  · have hmore : (∃ i ∈ job.marked ++ [n], InPart set i x) ↔ (∃ i ∈ job.marked, InPart set i x) ∨ InPart set n x := by
      simp [or_and_right, exists_or]
    rw [hmore, ← or_assoc, ← h.available, hstate]
    by_cases hin : InPart set n x
    · rw [if_pos hin, hadd _ 0 ⟨by omega, by omega, by omega⟩]
      exact iff_of_true (by simp [Part.Available]) (Or.inr hin)
    · rw [if_neg hin, or_iff_left hin]
  · rw [hstate]
    split_ifs
    · rw [hadd _ 1 ⟨by omega, by omega, by omega⟩, h.verified]
      simp [Part.Available]
    · exact h.verified x
  · rw [List.mem_append, List.mem_singleton, h.marked, Nat.lt_succ_iff_lt_or_eq]
    constructor
    · rintro (⟨hi, hrest⟩ | rfl)
      · exact ⟨Or.inl hi, hrest⟩
      · exact ⟨Or.inr rfl, hdue, hearly⟩
    · rintro ⟨hi | rfl, hrest⟩
      · exact Or.inl ⟨hi, hrest⟩
      · exact Or.inr rfl

/-- One part. -/
theorem Imported.next (hok : SetOk set) (haux : BlockIndex.Sized (sizesOf set) aux) {n : ℕ} {job : Job}
    (hn : n < (BlockIndex.resized (sizesOf set) aux).length)
    (h : Imported set reads writes aux parts n job) :
    ∃ job', importPart set reads writes (BlockIndex.resized (sizesOf set) aux) job n = some job' ∧
      Imported set reads writes aux parts (n + 1) job' := by
  have hpos : 0 < set.totalSize := by
    obtain ⟨part, hpart, hkey⟩ := h.canonical.exists_last
    exact hkey ▸ h.canonical.positive part hpart
  have hbytes : n * set.partSize < set.totalSize := by
    rw [BlockIndex.resized_length haux] at hn
    exact (lt_count_iff hok hpos n).mp hn
  obtain ⟨hbegin, hend, hlength, hlast⟩ := part_range hok hbytes
  have hbound : n * set.partSize + partLength set n ≤ set.totalSize := by omega
  have hlt : n * set.partSize < n * set.partSize + partLength set n := by omega
  have hdue : ((BlockIndex.resized (sizesOf set) aux)[n]?.getD false &&
      unverified job.parts (partBegin set n) (importEnd set n)) = true ↔ Due set aux parts n := by
    rw [← List.getD_eq_getElem?_getD, BlockIndex.resized_getD, hbegin, hend, Bool.and_eq_true,
      unverified_iff h.canonical hok.size hlt hbound]
    simp only [Due, h.verified, InPart, and_imp]
  have hsize : importEnd set n - partBegin set n = partLength set n := by omega
  have hdone := copyPart_end_iff (reads n) (writes n) (n * set.partSize) (partLength set n)
  by_cases hcopy : Due set aux parts n
  · by_cases hearly : EndsEarly (reads n) (partLength set n) 0
    · have hnot : (copyPart (reads n) (writes n) (n * set.partSize) (partLength set n)).1 ≠
          partLength set n := fun heq => hdone.mp heq hearly
      refine ⟨_, ?_, h.early hcopy hearly⟩
      simp only [importPart, hdue.mpr hcopy, if_true, hsize]
      rw [hbegin, if_neg hnot]
    · obtain ⟨hash', hset, hsized, -, -⟩ := setResult_part hok hbytes h.sized true
      rw [← hlast] at hset
      refine ⟨_, ?_, h.mark hok hcopy hearly hlength hbound hsized⟩
      simp only [importPart, hdue.mpr hcopy, if_true, hsize]
      rw [hbegin, hend, if_pos (hdone.mpr hearly), hset, Option.map_some]
  · have hskip : ((BlockIndex.resized (sizesOf set) aux)[n]?.getD false &&
        unverified job.parts (partBegin set n) (importEnd set n)) = false :=
      Bool.eq_false_of_not_eq_true fun heq => hcopy (hdue.mp heq)
    exact ⟨job, by simp [importPart, hskip], h.skip hcopy⟩

/-- Some parts, one after the other. -/
theorem imported_range (hok : SetOk set) (haux : BlockIndex.Sized (sizesOf set) aux)
    (hhash : BlockIndex.Sized (sizesOf set) hash) (hp : Canonical partMapOps set.totalSize parts)
    (reads writes : ℕ → ℕ → Option ℕ) {n : ℕ} (hn : n ≤ (BlockIndex.resized (sizesOf set) aux).length) :
    ∃ job, (List.range n).foldlM
        (importPart set reads writes (BlockIndex.resized (sizesOf set) aux)) ⟨hash, parts, [], []⟩ =
          some job ∧ Imported set reads writes aux parts n job := by
  induction n with
  | zero => exact ⟨_, rfl, hhash, hp, by simp, by simp, by simp, by simp⟩
  | succ n ih =>
    obtain ⟨job, hrun, himported⟩ := ih (Nat.le_of_succ_le hn)
    obtain ⟨job', hnext, himported'⟩ := himported.next hok haux hn
    refine ⟨job', ?_, himported'⟩
    rw [List.range_succ, List.foldlM_append, hrun]
    simpa using hnext

/-- A byte is in one part only. -/
theorem InPart.unique {i k x : ℕ} (hi : InPart set i x) (hk : InPart set k x) : i = k := by
  have hlength : ∀ j, j * set.partSize + partLength set j ≤ (j + 1) * set.partSize := fun j => by
    rw [partLength, Nat.add_mul, Nat.one_mul]
    omega
  have hin := hi.2.trans_le (hlength i)
  have hin' := hk.2.trans_le (hlength k)
  by_contra hne
  rcases Nat.lt_or_gt_of_ne hne with hlt | hlt
  · have hmono := Nat.mul_le_mul_right set.partSize (Nat.succ_le_of_lt hlt)
    exact absurd (hin.trans_le (hmono.trans hk.1)) (lt_irrefl x)
  · have hmono := Nat.mul_le_mul_right set.partSize (Nat.succ_le_of_lt hlt)
    exact absurd (hin'.trans_le (hmono.trans hi.1)) (lt_irrefl x)

/-- What is copied of a byte is copied with its part. -/
theorem Imported.copied_iff {n : ℕ} {job : Job} (h : Imported set reads writes aux parts n job) {i x : ℕ}
    (hi : i < n) (hdue : Due set aux parts i) (hx : InPart set i x) :
    Copied job.copied x ↔ Copied (copyPart (reads i) (writes i) (i * set.partSize) (partLength set i)).2 x := by
  constructor
  · rintro ⟨c, hc, hplace, hbegin, hend⟩
    obtain ⟨k, -, -, hcopy⟩ := (h.copied c).mp hc
    have hbounds := copyPart_bounds _ _ _ _ c hcopy
    have hin : InPart set k x := ⟨by omega, by omega⟩
    have hsame : i = k := hx.unique hin
    exact ⟨c, hsame ▸ hcopy, hplace, hbegin, hend⟩
  · rintro ⟨c, hc, hrest⟩
    exact ⟨c, (h.copied c).mpr ⟨i, hi, hdue, hc⟩, hrest⟩

theorem Due.lt {i : ℕ} (hdue : Due set aux parts i) : i < (BlockIndex.resized (sizesOf set) aux).length := by
  by_contra hge
  have hbit := hdue.1
  rw [← BlockIndex.resized_getD (sizesOf set), List.getD_eq_getElem?_getD,
    List.getElem?_eq_none (not_lt.mp hge)] at hbit
  exact Bool.false_ne_true hbit

/-- Exactly the bytes of the parts that are marked become available. All bytes of every part that is
marked were copied if and only if, of each part that is copied, a chunk other than the last one gave
nothing, or all chunks were read and written as a whole. -/
theorem execute_complete_iff (hok : SetOk set) (hp : Canonical partMapOps set.totalSize parts)
    (haux : BlockIndex.Sized (sizesOf set) aux) (hhash : BlockIndex.Sized (sizesOf set) hash)
    (reads writes : ℕ → ℕ → Option ℕ) :
    ∃ job, execute set reads writes aux hash parts = some job ∧ (∀ x, bit (stateAt partMapOps job.parts x) 0 = true ↔
        bit (stateAt partMapOps parts x) 0 = true ∨ ∃ i ∈ job.marked, InPart set i x) ∧
      ((∀ i ∈ job.marked, ∀ x, InPart set i x → Copied job.copied x) ↔
        ∀ i, Due set aux parts i → EndsEarly (reads i) (partLength set i) 0 ∨
          CopiesAll (reads i) (writes i) (partLength set i) 0) := by
  obtain ⟨job, hrun, himported⟩ := imported_range hok haux hhash hp reads writes le_rfl
  have hcovers : ∀ i, Due set aux parts i → ((∀ x, InPart set i x → Copied job.copied x) ↔
        CopiesAll (reads i) (writes i) (partLength set i) 0) := by
    intro i hdue
    rw [← copyPart_covers_iff (reads i) (writes i) (i * set.partSize) (partLength set i)]
    constructor
    · intro hall x hx hx'
      exact (himported.copied_iff (hdue.lt) hdue ⟨hx, hx'⟩).mp (hall x ⟨hx, hx'⟩)
    · intro hall x hx
      exact (himported.copied_iff (hdue.lt) hdue hx).mpr (hall x hx.1 hx.2)
  refine ⟨job, hrun, himported.available, ?_⟩
  constructor
  · intro hall i hdue
    by_cases hearly : EndsEarly (reads i) (partLength set i) 0
    · exact Or.inl hearly
    · have hmarked := (himported.marked i).mpr ⟨hdue.lt, hdue, hearly⟩
      exact Or.inr ((hcovers i hdue).mp (hall i hmarked))
  · intro hall i hi
    obtain ⟨-, hdue, hearly⟩ := (himported.marked i).mp hi
    exact (hcovers i hdue).mpr ((hall i hdue).resolve_left hearly)

/-- A file of three bytes in two parts, of which the source has the second one. -/
theorem execute_complete_iff_smallSet :
    ∃ job, execute (smallSet 3 [[1], [2]]) (fun _ _ => some 1) (fun _ _ => some 1) ⟨[false, true], []⟩
        ⟨[], []⟩ (emptyMap 3) = some job ∧
      (∀ x, bit (stateAt partMapOps job.parts x) 0 = true ↔ bit (stateAt partMapOps (emptyMap 3) x) 0 = true ∨
          ∃ i ∈ job.marked, InPart (smallSet 3 [[1], [2]]) i x) ∧
      ((∀ i ∈ job.marked, ∀ x, InPart (smallSet 3 [[1], [2]]) i x → Copied job.copied x) ↔
        ∀ i, Due (smallSet 3 [[1], [2]]) ⟨[false, true], []⟩ (emptyMap 3) i →
          EndsEarly (fun _ => some 1) (partLength (smallSet 3 [[1], [2]]) i) 0 ∨
            CopiesAll (fun _ => some 1) (fun _ => some 1) (partLength (smallSet 3 [[1], [2]]) i) 0) :=
  execute_complete_iff setOk_smallSet canonical_emptyMap (Or.inr rfl) (Or.inl rfl) _ _

/-- The second part is marked, although reading its only chunk failed. -/
theorem execute_incomplete : ¬ ∀ job, execute (smallSet 3 [[1], [2]]) (fun _ _ => none)
      (fun _ _ => none) ⟨[false, true], []⟩ ⟨[], []⟩ (emptyMap 3) = some job →
    ∀ i ∈ job.marked, ∀ x, InPart (smallSet 3 [[1], [2]]) i x → Copied job.copied x := by
  intro h
  have hrun : execute (smallSet 3 [[1], [2]]) (fun _ _ => none) (fun _ _ => none)
      ⟨[false, true], []⟩ ⟨[], []⟩ (emptyMap 3) = some ⟨⟨[false, true], []⟩,
        (emptyMap 3).setRange partMapOps 2 3 (SPartRange.ofStates 1) ESet.eAdd, [], [1]⟩ := by
    decide
  obtain ⟨c, hc, -⟩ := h _ hrun 1 (by decide) 2 (by decide)
  cases hc

end Run

end NeoLoader.ImportParts
