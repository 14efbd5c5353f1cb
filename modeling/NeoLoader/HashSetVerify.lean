import NeoLoader.BlockIndex
import NeoLoader.HashSetRoot
import NeoLoader.HashTreeVerify

/-!
# Verifying a file with its part hashes

The verification walks the part hashes and compares each of them with the data of its part. An ed2k
set of a file of whole parts has one hash more than the file has parts; it stands for no bytes and
has no bit.
-/

namespace NeoLoader.HashSetVerify

open BlockIndex HashSetRoot HashTreeVerify PartStates RangeMap SharedRanges StepFunction

section Code

variable (H : List UInt8 → List UInt8) (set : CFileHashSet) (file : List UInt8)
variable (parts : CRangeMap SPartRange) (memory : ℕ → Bool)
variable (uFrom uTo : ℕ) (Mode : EHashingMode)

/-- The sizes of a hash set: it has parts and no blocks. -/
def sizesOf (set : CFileHashSet) : BlockIndex.CFileHashEx := ⟨set.totalSize, set.partSize, 0⟩

/-- `CFileHashSet::CalculatePart`: the hash of the bytes, if all of them can be read. -/
def calculatePart (uBegin uEnd : ℕ) : Option (List UInt8) :=
  if uEnd > file.length then none
  else if ((file.drop uBegin).take ((uEnd + 2 ^ 64 - uBegin) % 2 ^ 64)).length = (uEnd + 2 ^ 64 - uBegin) % 2 ^ 64 then
    some (H ((file.drop uBegin).take ((uEnd + 2 ^ 64 - uBegin) % 2 ^ 64)))
  else none

/-- A part is marked already: a bit of the status map, with what lies behind the bits. -/
def isVerified (bits : List Bool) (i : ℕ) : Bool :=
  if bits.isEmpty then false else bits[i]?.getD (memory i)

/-- The begin of a part. -/
def partBegin (i : ℕ) : ℕ := i * set.partSize % 2 ^ 64

/-- The end of a part, the last one ends with the file. -/
def partEnd (i : ℕ) : ℕ :=
  if (partBegin set i + set.partSize) % 2 ^ 64 > set.totalSize then set.totalSize
  else (partBegin set i + set.partSize) % 2 ^ 64

/-- The end of the loop of `Verify`: a part hash is compared with the data. -/
def comparePart (i : ℕ) (pHash : List UInt8) (s : BlockIndex.Status) : Option BlockIndex.Status :=
  let bResult := decide (calculatePart H file (partBegin set i) (partEnd set i) = some pHash)
  if Mode ≠ EHashingMode.eRecoverParts ∨ bResult then
    BlockIndex.setResult (sizesOf set) s bResult (partBegin set i) (partEnd set i)
  else some s

/-- The loop of `Verify`, for one part hash. -/
def verifyPart (i : ℕ) (pHash : List UInt8) (s : BlockIndex.Status) : Option BlockIndex.Status :=
  if ¬(uFrom < partEnd set i ∧ uTo > partBegin set i) then some s
  else if Mode = EHashingMode.eVerifyParts ∧ (isVerified memory s.statusMap i = true ∨
      (parts.getRange partMapOps (partBegin set i) (partEnd set i) EMerge.eInter
        (SPartRange.ofStates 0)).and Part.Available = 0) then some s
  else comparePart H set file Mode i pHash s

/-- The loop of `Verify`, from a part on. -/
def verifyFrom : ℕ → List (List UInt8) → BlockIndex.Status → Option BlockIndex.Status
  | _, [], s => some s
  | i, pHash :: rest, s =>
    (verifyPart H set file parts memory uFrom uTo Mode i pHash s).bind (verifyFrom (i + 1) rest)

/-- `CFileHashSet::Verify`. -/
def verify (s : BlockIndex.Status) : Option (Bool × BlockIndex.Status) :=
  if set.hashSet = [] then some (false, ⟨s.statusMap, []⟩)
  else (verifyFrom H set file parts memory uFrom uTo Mode 0 set.hashSet ⟨s.statusMap, []⟩).map fun s => (true, s)

end Code

/-- The sizes of a loaded hash set fit in the types that hold them. -/
structure SetOk (set : CFileHashSet) : Prop where
  /-- Parts have bytes. -/
  part : set.partSize ≠ 0
  /-- The size of the file is a `qint64`. -/
  size : set.totalSize < 2 ^ 63
  /-- The end of the last part is an `uint64`. -/
  sum : set.totalSize + set.partSize ≤ 2 ^ 64
  /-- The parts are counted in an `uint32`. -/
  count : ShareMapBits.divUp set.totalSize set.partSize < 2 ^ 32
  /-- The hashes are counted in an `int`. -/
  hashes : set.hashSet.length < 2 ^ 31
  /-- The ends of their parts are `uint64`. -/
  ends : set.hashSet.length * set.partSize < 2 ^ 64

section Parts

variable {set : CFileHashSet}

theorem not_both (set : CFileHashSet) : ¬((sizesOf set).blockSize ≠ 0 ∧ (sizesOf set).partSize ≠ 0) := fun h => h.1 rfl

theorem uPartSize_sizesOf (hok : SetOk set) : BlockIndex.uPartSize (sizesOf set) = set.partSize := if_neg hok.part

/-- The sizes of the parts are in order. -/
theorem sizesOk (hok : SetOk set) : BlockIndex.SizesOk (sizesOf set) := by
  have hpart := hok.part
  have hsum := hok.sum
  have hunit := uPartSize_sizesOf hok
  have hone : blocksPerPart (sizesOf set) = 1 := by
    rw [blocksPerPart, blockLength, if_neg (not_both set), hunit, ShareMapBits.divUp,
      Nat.add_sub_assoc (by omega), Nat.add_div_left _ (by omega), Nat.div_eq_of_lt (by omega)]
  refine ⟨Or.inl hpart, by rw [hunit]; exact hsum, ?_, by rw [hone]; decide, fun i hi => ?_⟩
  · change set.partSize + 0 ≤ 2 ^ 64
    omega
  · rw [blockBegin, hone, Nat.div_one, Nat.mod_one, Nat.zero_mul, Nat.add_zero, hunit] at hi
    have hreach := ShareMapBits.le_divUp_mul set.totalSize (Nat.pos_of_ne_zero hpart)
    have hlt := Nat.lt_of_mul_lt_mul_right (Nat.lt_of_lt_of_le hi hreach)
    have hcount := hok.count
    omega

variable (hok : SetOk set)

include hok

section

variable (hpos : 0 < set.totalSize) (i : ℕ)

include hpos i

theorem blockBegin_part : blockBegin (sizesOf set) i = i * set.partSize := by
  rw [blockBegin_single (sizesOk hok) hpos (not_both set), uPartSize_sizesOf hok]

theorem blockEnd_part : blockEnd (sizesOf set) i = min ((i + 1) * set.partSize) set.totalSize := by
  rw [blockEnd_eq (sizesOk hok) hpos, blockBegin_part hok hpos]
  rfl

theorem lt_count_iff : i < BlockIndex.getStatusCount (sizesOf set) ↔ i * set.partSize < set.totalSize := by
  rw [lt_getStatusCount_iff (sizesOk hok) hpos, blockBegin_part hok hpos]
  rfl

end

theorem part_bounds {i : ℕ} (hi : i < set.hashSet.length) : partBegin set i = i * set.partSize ∧
    partEnd set i = min ((i + 1) * set.partSize) set.totalSize := by
  have hends := hok.ends
  have hmul := Nat.mul_le_mul_right set.partSize (Nat.succ_le_of_lt hi)
  rw [Nat.succ_eq_add_one] at hmul
  have hnext : (i + 1) * set.partSize = i * set.partSize + set.partSize := by
    rw [Nat.add_mul, Nat.one_mul]
  have hbegin : partBegin set i = i * set.partSize := Nat.mod_eq_of_lt (by omega)
  refine ⟨hbegin, ?_⟩
  rw [partEnd, hbegin, Nat.mod_eq_of_lt (by omega), hnext]
  split_ifs <;> omega

end Parts

section Meaning

variable (H : List UInt8 → List UInt8) (set : CFileHashSet) (file : List UInt8)
variable (parts : CRangeMap SPartRange) (uFrom uTo : ℕ) (Mode : EHashingMode)

/-- The data of a part is all there, and has a hash. -/
def Matches (i : ℕ) (pHash : List UInt8) : Prop :=
  min ((i + 1) * set.partSize) set.totalSize ≤ file.length ∧ H ((file.drop (i * set.partSize)).take
      (min ((i + 1) * set.partSize) set.totalSize - i * set.partSize)) = pHash

/-- All bytes of a part are available. -/
def AllAvailable (i : ℕ) : Prop :=
  ∀ x, i * set.partSize ≤ x → x < (i + 1) * set.partSize → x < set.totalSize →
    bit (RangeMap.stateAt partMapOps parts x) 0 = true

/-- A part is compared: it has bytes, some of them in the window, and in part mode it is not marked yet
and all of it is available. -/
structure Due (i : ℕ) (marked : Bool) : Prop where
  /-- The part has bytes. -/
  bytes : i * set.partSize < set.totalSize
  /-- The window begins before the end of the part. -/
  before : uFrom < min ((i + 1) * set.partSize) set.totalSize
  /-- The window ends behind the begin of the part. -/
  behind : i * set.partSize < uTo
  /-- In part mode it is new and available. -/
  fresh : Mode = EHashingMode.eVerifyParts → marked = false ∧ AllAvailable set parts i

/-- What a verification does to the bit of a part. -/
structure Checked (i : ℕ) (pHash : List UInt8) (marked result : Bool) : Prop where
  /-- A part that is not compared keeps its bit. -/
  kept : ¬Due set parts uFrom uTo Mode i marked → result = marked
  /-- A part with the right data is marked. -/
  right : Due set parts uFrom uTo Mode i marked → Matches H set file i pHash → result = true
  /-- A part with wrong data is not, unless lost parts are looked for. -/
  wrong : Due set parts uFrom uTo Mode i marked → ¬Matches H set file i pHash →
    result = if Mode = EHashingMode.eRecoverParts then marked else false

end Meaning

section Step

variable {H : List UInt8 → List UInt8} {set : CFileHashSet} {file : List UInt8}
variable {parts : CRangeMap SPartRange} {memory : ℕ → Bool}
variable {uFrom uTo : ℕ} {Mode : EHashingMode} (hok : SetOk set) {i : ℕ}

include hok

/-- The hash of a part is computed if all of its data is there. -/
theorem calculatePart_eq_some_iff (hbytes : i * set.partSize < set.totalSize) (pHash : List UInt8) :
    calculatePart H file (i * set.partSize) (min ((i + 1) * set.partSize) set.totalSize) = some pHash ↔
      Matches H set file i pHash := by
  have hpart := hok.part
  have hsize := hok.size
  have hnext : (i + 1) * set.partSize = i * set.partSize + set.partSize := by
    rw [Nat.add_mul, Nat.one_mul]
  have hlength : (min ((i + 1) * set.partSize) set.totalSize + 2 ^ 64 - i * set.partSize) % 2 ^ 64 =
      min ((i + 1) * set.partSize) set.totalSize - i * set.partSize := by
    omega
  rw [calculatePart, hlength, Matches]
  by_cases hshort : min ((i + 1) * set.partSize) set.totalSize > file.length
  · rw [if_pos hshort]
    exact iff_of_false nofun fun hc => absurd hc.1 (by omega)
  · rw [if_neg hshort, if_pos (by rw [List.length_take, List.length_drop]; omega), Option.some_inj]
    exact (and_iff_right (by omega)).symm

variable {s : BlockIndex.Status}

/-- A part behind the end of the file has no bits. -/
theorem setResult_behind (hpos : 0 < set.totalSize) (hi : i < set.hashSet.length)
    (hbytes : set.totalSize ≤ i * set.partSize) (hsized : Sized (sizesOf set) s) (bResult : Bool) :
    ∃ s', BlockIndex.setResult (sizesOf set) s bResult (i * set.partSize) set.totalSize = some s' ∧
      Sized (sizesOf set) s' ∧ ∀ j, bitOf s' j = bitOf s j := by
  have hhashes := hok.hashes
  have hnone : indices (BlockIndex.indexRange (sizesOf set) (i * set.partSize) set.totalSize true) = [] := by
    refine List.eq_nil_iff_forall_not_mem.mpr fun j hj => ?_
    have htotal : (sizesOf set).totalSize = set.totalSize := rfl
    have hlast := rangeSecond_envelope (sizesOk hok) hpos (le_refl _)
    rw [htotal] at hlast
    rw [mem_indices_iff, mem_indexRange_iff, hlast] at hj
    have hfirst : rangeFirst (sizesOf set) (i * set.partSize) true = i := by
      have hzero : uBlockCount (sizesOf set) = 0 := if_neg (not_both set)
      rw [rangeFirst, hzero, if_neg (not_not.mpr rfl), if_pos rfl, uPartSize_sizesOf hok,
        Nat.mul_div_cancel _ (Nat.pos_of_ne_zero hok.part), Nat.mod_eq_of_lt (by omega)]
    have hsecond := (lt_ceilIndex_iff (sizesOk hok) (le_refl _) i).not
    rw [blockBegin_part hok hpos] at hsecond
    have hle := hsecond.mpr (not_lt.mpr hbytes)
    rw [htotal] at hle
    omega
  refine ⟨⟨resized (sizesOf set) s,
    if bResult then s.corruptionSet else s.corruptionSet ++ [(i * set.partSize, set.totalSize)]⟩,
    ?_, Or.inr (resized_length hsized), fun j => resized_getD _ _ j⟩
  rw [BlockIndex.setResult, hnone]
  rfl

/-- The result of a part with bytes is its bit, and no other one. -/
theorem setResult_part (hbytes : i * set.partSize < set.totalSize) (hsized : Sized (sizesOf set) s) (bResult : Bool) :
    ∃ s', BlockIndex.setResult (sizesOf set) s bResult (i * set.partSize)
        (min ((i + 1) * set.partSize) set.totalSize) = some s' ∧
      Sized (sizesOf set) s' ∧ (∀ j, j ≠ i → bitOf s' j = bitOf s j) ∧ bitOf s' i = bResult := by
  have hpos : 0 < set.totalSize := by omega
  have hi := (lt_count_iff hok hpos i).mpr hbytes
  have hbounds := own_bounds (sizesOk hok) hpos hi
  have hmeets := meets_own_iff (sizesOk hok) hpos hi
  rw [blockBegin_part hok hpos, blockEnd_part hok hpos] at hbounds hmeets
  obtain ⟨s', hset, hsized', hbits, -⟩ :=
    BlockIndex.setResult_spec (sizesOk hok) hsized hbounds.1 hbounds.2 bResult
  exact ⟨s', hset, hsized', fun j hj => (hbits j).2 (mt (hmeets j).mp hj), (hbits i).1 ((hmeets i).mpr rfl)⟩

omit hok in
/-- The bit of a part that has one is read. -/
theorem isVerified_eq {s : BlockIndex.Status} (hsized : Sized (sizesOf set) s)
    (hi : i < BlockIndex.getStatusCount (sizesOf set)) : isVerified memory s.statusMap i = bitOf s i := by
  rw [isVerified, bitOf, List.getD_eq_getElem?_getD]
  rcases hsized with hnil | hlength
  · rw [hnil]
    rfl
  · have hne : s.statusMap ≠ [] := by
      intro hnil
      rw [hnil] at hlength
      rw [← hlength] at hi
      exact absurd hi (Nat.not_lt_zero i)
    rw [if_neg (mt List.isEmpty_iff.mp hne), List.getElem?_eq_getElem (by omega)]
    rfl

theorem getRange_part (hp : Canonical partMapOps set.totalSize parts) (hbytes : i * set.partSize < set.totalSize) :
    (parts.getRange partMapOps (i * set.partSize) (min ((i + 1) * set.partSize) set.totalSize)
        EMerge.eInter (SPartRange.ofStates 0)).and Part.Available ≠ 0 ↔ AllAvailable set parts i := by
  have hpart := hok.part
  have hnext : (i + 1) * set.partSize = i * set.partSize + set.partSize := by
    rw [Nat.add_mul, Nat.one_mul]
  rw [getRange_available hp hok.size (by omega) (min_le_right _ _)]
  refine forall₂_congr fun x _ => ?_
  rw [lt_min_iff, and_imp]

/-- A part with bytes is compared, and no other bit changes. -/
theorem comparePart_spec (hi : i < set.hashSet.length) {pHash : List UInt8}
    (hsized : Sized (sizesOf set) s) (hdue : Due set parts uFrom uTo Mode i (bitOf s i)) :
    ∃ s', comparePart H set file Mode i pHash s = some s' ∧
      Sized (sizesOf set) s' ∧ (∀ j, j ≠ i → bitOf s' j = bitOf s j) ∧
      Checked H set file parts uFrom uTo Mode i pHash (bitOf s i) (bitOf s' i) := by
  obtain ⟨hbegin, hend⟩ := part_bounds hok hi
  have hmatch : calculatePart H file (i * set.partSize)
      (min ((i + 1) * set.partSize) set.totalSize) = some pHash ↔ Matches H set file i pHash :=
    calculatePart_eq_some_iff hok hdue.bytes pHash
  rw [comparePart, hbegin, hend]
  by_cases hmatches : Matches H set file i pHash
  · rw [decide_eq_true (hmatch.mpr hmatches), if_pos (Or.inr rfl)]
    obtain ⟨s', hset, hsized', hothers, hbit⟩ := setResult_part hok hdue.bytes hsized true
    exact ⟨s', hset, hsized', hothers, fun hnot => absurd hdue hnot, fun _ _ => hbit,
      fun _ hnot => absurd hmatches hnot⟩
  · rw [decide_eq_false (mt hmatch.mp hmatches)]
    by_cases hrecover : Mode = EHashingMode.eRecoverParts
    · rw [if_neg fun hc => hc.elim (fun hne => hne hrecover) Bool.false_ne_true]
      exact ⟨s, rfl, hsized, fun _ _ => rfl, fun _ => rfl, fun _ h => absurd h hmatches,
        fun _ _ => (if_pos hrecover).symm⟩
    · rw [if_pos (Or.inl hrecover)]
      obtain ⟨s', hset, hsized', hothers, hbit⟩ := setResult_part hok hdue.bytes hsized false
      exact ⟨s', hset, hsized', hothers, fun hnot => absurd hdue hnot, fun _ h => absurd h hmatches,
        fun _ _ => hbit.trans (if_neg hrecover).symm⟩

/-- A part without bytes changes no bit. -/
theorem comparePart_behind (hpos : 0 < set.totalSize) (hi : i < set.hashSet.length)
    (hbytes : set.totalSize ≤ i * set.partSize) (pHash : List UInt8) (hsized : Sized (sizesOf set) s) :
    ∃ s', comparePart H set file Mode i pHash s = some s' ∧ Sized (sizesOf set) s' ∧ ∀ j, bitOf s' j = bitOf s j := by
  obtain ⟨hbegin, hend⟩ := part_bounds hok hi
  have hnext : (i + 1) * set.partSize = i * set.partSize + set.partSize := by
    rw [Nat.add_mul, Nat.one_mul]
  rw [comparePart, hbegin, hend, min_eq_right (by omega)]
  split_ifs
  · exact setResult_behind hok hpos hi hbytes hsized _
  · exact ⟨s, rfl, hsized, fun _ => rfl⟩

section

variable (hp : Canonical partMapOps set.totalSize parts)

include hp

/-- What one part hash does: it is not compared, or it sets the bit of its part. -/
theorem verifyPart_spec (hi : i < set.hashSet.length) (pHash : List UInt8) (hsized : Sized (sizesOf set) s) :
    ∃ s', verifyPart H set file parts memory uFrom uTo Mode i pHash s = some s' ∧
      Sized (sizesOf set) s' ∧ (∀ j, j ≠ i → bitOf s' j = bitOf s j) ∧
      Checked H set file parts uFrom uTo Mode i pHash (bitOf s i) (bitOf s' i) := by
  obtain ⟨hbegin, hend⟩ := part_bounds hok hi
  have hsame : ¬Due set parts uFrom uTo Mode i (bitOf s i) → ∃ s', some s = some s' ∧
      Sized (sizesOf set) s' ∧ (∀ j, j ≠ i → bitOf s' j = bitOf s j) ∧
      Checked H set file parts uFrom uTo Mode i pHash (bitOf s i) (bitOf s' i) := fun hnot =>
    ⟨s, rfl, hsized, fun _ _ => rfl, fun _ => rfl, fun hdue => absurd hdue hnot, fun hdue => absurd hdue hnot⟩
  rw [verifyPart, hbegin, hend]
  by_cases hwindow : uFrom < min ((i + 1) * set.partSize) set.totalSize ∧ uTo > i * set.partSize
  · rw [if_neg (not_not.mpr hwindow)]
    by_cases hbytes : i * set.partSize < set.totalSize
    · have hcount := (lt_count_iff hok (by omega) i).mpr hbytes
      have havailable := (getRange_part hok hp hbytes).not
      rw [not_not] at havailable
      rw [isVerified_eq hsized hcount]
      split_ifs with hskip
      · refine hsame fun hdue => ?_
        obtain ⟨hmode, hreason⟩ := hskip
        obtain ⟨hfresh, hall⟩ := hdue.fresh hmode
        rcases hreason with hmarked | hmissing
        · rw [hmarked] at hfresh
          exact Bool.noConfusion hfresh
        · exact havailable.mp hmissing hall
      · refine comparePart_spec hok hi hsized ⟨hbytes, hwindow.1, hwindow.2, fun hmode => ?_⟩
        rw [not_and, not_or] at hskip
        obtain ⟨hunmarked, hpresent⟩ := hskip hmode
        exact ⟨Bool.eq_false_iff.mpr hunmarked, not_not.mp (mt havailable.mpr hpresent)⟩
    · have hnot : ¬Due set parts uFrom uTo Mode i (bitOf s i) := fun hdue => hbytes hdue.bytes
      split_ifs with hskip
      · exact hsame hnot
      · obtain ⟨s', hcompare, hsized', hbits⟩ :=
          comparePart_behind hok (by omega) hi (not_lt.mp hbytes) pHash hsized
        exact ⟨s', hcompare, hsized', fun j _ => hbits j, fun _ => hbits i,
          fun hdue => absurd hdue hnot, fun hdue => absurd hdue hnot⟩
  · rw [if_pos hwindow]
    exact hsame fun hdue => hwindow ⟨hdue.before, hdue.behind⟩

/-- The part hashes from one on change the bits of their parts only. -/
theorem verifyFrom_spec (hashes : List (List UInt8)) (i : ℕ) (hi : i + hashes.length ≤ set.hashSet.length)
    (hsized : Sized (sizesOf set) s) : ∃ s', verifyFrom H set file parts memory uFrom uTo Mode i hashes s = some s' ∧
      Sized (sizesOf set) s' ∧ (∀ j, j < i ∨ i + hashes.length ≤ j → bitOf s' j = bitOf s j) ∧
      ∀ k pHash, hashes[k]? = some pHash →
        Checked H set file parts uFrom uTo Mode (i + k) pHash (bitOf s (i + k)) (bitOf s' (i + k)) := by
  induction hashes generalizing i s with
  | nil =>
    exact ⟨s, rfl, hsized, fun _ _ => rfl, fun k pHash hk =>
      absurd (List.getElem?_nil.symm.trans hk) nofun⟩
  | cons head rest ih =>
    rw [List.length_cons] at hi ⊢
    obtain ⟨first, hfirst, hsizedFirst, hothers, hhead⟩ :=
      verifyPart_spec (H := H) (i := i) hok hp (by omega) head hsized
    obtain ⟨s', hrest, hsized', hkept, hchecked⟩ := ih (i + 1) (by omega) hsizedFirst
    refine ⟨s', ?_, hsized', fun j hj => ?_, fun k pHash hk => ?_⟩
    · rw [verifyFrom, hfirst, Option.bind_some]
      exact hrest
    · rw [hkept j (by omega), hothers j (by omega)]
    · cases k with
      | zero =>
        rw [List.getElem?_cons_zero, Option.some_inj] at hk
        rw [Nat.add_zero, hkept i (Or.inl (Nat.lt_succ_self i)), ← hk]
        exact hhead
      | succ k =>
        rw [List.getElem?_cons_succ] at hk
        have hsame := hothers (i + 1 + k) (by omega)
        have hnext := hchecked k pHash hk
        rw [hsame] at hnext
        rw [Nat.add_comm k 1, ← Nat.add_assoc]
        exact hnext

/-- Hashes of parts that have a bit do not read behind the bits. -/
theorem verifyFrom_memory (memory' : ℕ → Bool)
    (hashes : List (List UInt8)) (i : ℕ) (hi : i + hashes.length ≤ set.hashSet.length)
    (hbits : i + hashes.length ≤ BlockIndex.getStatusCount (sizesOf set)) (hsized : Sized (sizesOf set) s) :
    verifyFrom H set file parts memory' uFrom uTo Mode i hashes s =
      verifyFrom H set file parts memory uFrom uTo Mode i hashes s := by
  induction hashes generalizing i s with
  | nil => rfl
  | cons head rest ih =>
    rw [List.length_cons] at hi hbits
    have hcount : i < BlockIndex.getStatusCount (sizesOf set) := by omega
    obtain ⟨first, hfirst, hsizedFirst, -⟩ :=
      verifyPart_spec (H := H) (i := i) hok hp (by omega) head hsized
    have hsame : verifyPart H set file parts memory' uFrom uTo Mode i head s =
        verifyPart H set file parts memory uFrom uTo Mode i head s := by
      rw [verifyPart, verifyPart, isVerified_eq hsized hcount, isVerified_eq hsized hcount]
    rw [verifyFrom, verifyFrom, hsame, hfirst, Option.bind_some, Option.bind_some]
    exact ih (i + 1) (by omega) (by omega) hsizedFirst

end

/-- There are as many parts as bits, but for the additional part of an ed2k set. -/
theorem getPartCount_eq (hpos : 0 < set.totalSize)
    (hwhole : ¬(set.eType = EFileHashType.HashEd2k ∧ set.partSize ∣ set.totalSize)) :
    getPartCount set = BlockIndex.getStatusCount (sizesOf set) := by
  have hpart := hok.part
  have hsum := hok.sum
  have hcount := hok.count
  have hstatus : BlockIndex.getStatusCount (sizesOf set) =
      ShareMapBits.divUp set.totalSize set.partSize := by
    rw [getStatusCount_eq (sizesOk hok) hpos, ceilIndex, if_neg (not_both set), uPartSize_sizesOf hok]
    rfl
  rw [hstatus, getPartCount]
  cases htype : set.eType with
  | HashEd2k =>
    have hdvd : ¬set.partSize ∣ set.totalSize := fun hd => hwhole ⟨htype, hd⟩
    have hrest := mt Nat.dvd_of_mod_eq_zero hdvd
    have hdm := Nat.div_add_mod set.totalSize set.partSize
    have hmod := Nat.mod_lt set.totalSize (Nat.pos_of_ne_zero hpart)
    have hup : ShareMapBits.divUp set.totalSize set.partSize = set.totalSize / set.partSize + 1 := by
      have hsplit : set.totalSize + set.partSize - 1 =
          set.totalSize % set.partSize - 1 + set.partSize * (set.totalSize / set.partSize + 1) := by
        rw [Nat.mul_succ]
        omega
      rw [ShareMapBits.divUp, hsplit, Nat.add_mul_div_left _ _ (Nat.pos_of_ne_zero hpart),
        Nat.div_eq_of_lt (by omega), Nat.zero_add]
    dsimp only
    rw [← hup, Nat.mod_eq_of_lt hcount]
  | HashTorrent =>
    have hup : HashSetRoot.divUp set.totalSize set.partSize =
        ShareMapBits.divUp set.totalSize set.partSize := divUp_eq hsum
    dsimp only
    rw [hup, Nat.mod_eq_of_lt hcount]

end Step

section Claim

variable (H : List UInt8 → List UInt8) (set : CFileHashSet) (file : List UInt8)
variable (parts : CRangeMap SPartRange) (uFrom uTo : ℕ) (Mode : EHashingMode)

/-- What a verification leaves in the status. -/
structure Verified (s s' : BlockIndex.Status) : Prop where
  /-- There is still a bit for each part. -/
  sized : Sized (sizesOf set) s'
  /-- A part that becomes marked has a bit and a hash; its data has the hash; and in part mode all of
  it is available. -/
  marked : ∀ i, bitOf s i = false → bitOf s' i = true →
    i < BlockIndex.getStatusCount (sizesOf set) ∧ ∃ pHash, set.hashSet[i]? = some pHash ∧
      Matches H set file i pHash ∧ (Mode = EHashingMode.eVerifyParts → AllAvailable set parts i)
  /-- Each part hash is checked. -/
  checked : ∀ i pHash, set.hashSet[i]? = some pHash →
    Checked H set file parts uFrom uTo Mode i pHash (bitOf s i) (bitOf s' i)
  /-- Bits without a part hash stay. -/
  others : ∀ i, set.hashSet.length ≤ i → bitOf s' i = bitOf s i

variable {H set file parts uFrom uTo Mode}

/-- A torrent of a few bytes in parts of two. -/
def smallSet (uSize : ℕ) (hashes : List (List UInt8)) : CFileHashSet :=
  ⟨.HashTorrent, uSize, 2, [], hashes⟩

/-- The map of a file of which nothing is there. -/
def emptyMap (uSize : ℕ) : CRangeMap SPartRange := ⟨[(uSize, SPartRange.ofStates 0)], 1⟩

theorem setOk_smallSet : SetOk (smallSet 3 [[1], [2]]) :=
  ⟨by decide, by decide, by decide, by decide, by decide, by decide⟩

/-- The map of such a file is in order. -/
theorem canonical_emptyMap : Canonical partMapOps 3 (emptyMap 3) where
  increasing := List.pairwise_singleton _ _
  last := rfl
  positive := fun part hm => by
    rw [List.mem_singleton.mp hm]
    decide
  distinct := List.isChain_singleton _
  stored := fun part hm => by
    rw [List.mem_singleton.mp hm]
    exact ⟨rfl, rfl⟩
  revision_pos := Nat.one_pos

end Claim

end NeoLoader.HashSetVerify
