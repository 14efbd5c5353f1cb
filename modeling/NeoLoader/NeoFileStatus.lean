import Mathlib.Data.Nat.Log
import Mathlib.Tactic.Ring
import NeoLoader.BitArrays

/-!
# File status of a Neo peer

A peer that does not have the whole file sends one bit for each group of parts, and the
receiver finds the size of a group from the numbers of bits and parts. A group is as many
parts as are needed for the bits to fit into a kilobyte.
-/

namespace NeoLoader.NeoFileStatus

open StepFunction RangeMap PartStates ShareMapBits BitArrays

/-- `DivUp`, in 64 bits. -/
def divUp64 (size value : ℕ) : ℕ := (size + value + (2 ^ 64 - 1)) % 2 ^ 64 / value

/-- A file hash with one status bit for each part, or for each block if it has no parts. -/
structure CFileHashEx (uFileSize : ℕ) where
  /-- `GetPartSize`. -/
  partSize : ℕ
  /-- `GetBlockSize`. -/
  blockSize : ℕ
  canHashParts : Bool
  /-- `GetStatusMap`. -/
  statusMap : List Bool
  /-- Only one of the sizes is set, as both are only for blocks that do not fit into parts. -/
  one : partSize = 0 ∨ blockSize = 0
  /-- There is a status for each part. -/
  length_statusMap : statusMap.length = divUp uFileSize (partSize + blockSize)
  /-- The number of statuses is an `int`. -/
  length_lt : statusMap.length < 2 ^ 31
  /-- The end of the last part is an offset. -/
  fits : uFileSize + (partSize + blockSize) ≤ 2 ^ 64

/-- The part size, or the block size without one. -/
def CFileHashEx.unit {uFileSize : ℕ} (hash : CFileHashEx uFileSize) : ℕ :=
  if hash.partSize ≠ 0 then hash.partSize else hash.blockSize

/-- A status packet. -/
structure StatusPacket where
  /-- `PC`, or zero without one. -/
  pc : ℕ
  /-- `PS`, or zero without one. -/
  ps : ℕ
  pm : List (BitVec 8)
  deriving DecidableEq, Repr

/-- The loop that joins parts until the bits fit, with the number of joined parts and of bits. -/
def joinLoop (uFileSize partSize : ℕ) : ℕ → ℕ → ℕ → ℕ × ℕ
  | 0, joinBlocks, partCount => (joinBlocks, partCount)
  | fuel + 1, joinBlocks, partCount =>
    if 8 * 1024 < partCount then
      joinLoop uFileSize partSize fuel (joinBlocks * 2)
        (divUp64 uFileSize (partSize * (joinBlocks * 2) % 2 ^ 64) % 2 ^ 32)
    else (joinBlocks, partCount)

/-- The numbers of joined parts and of bits; a number of parts is halved no more than 32 times. -/
def joinParts (uFileSize partSize : ℕ) : ℕ × ℕ :=
  joinLoop uFileSize partSize 32 1 (divUp64 uFileSize partSize % 2 ^ 32)

def testBits (bits : List Bool) (first last : ℕ) : Bool :=
  !bits.isEmpty && (List.range (last - first)).all fun i => bits.getD (first + i) false

/-- The bits of joined parts, which are set as far as there are parts. -/
def joinBits (statusMap : List Bool) (joinBlocks partCount : ℕ) : List Bool :=
  (List.range partCount).map fun k => decide (k * joinBlocks < statusMap.length) &&
    testBits statusMap (k * joinBlocks) (min (k * joinBlocks + joinBlocks) statusMap.length)

/-- The bits of a hash, with their part size, if it has statuses. -/
def statusBits {uFileSize : ℕ} (hash : CFileHashEx uFileSize) : Option (ℕ × List Bool) :=
  if hash.unit ≠ 0 && uFileSize ≠ 0 && hash.canHashParts && !hash.statusMap.isEmpty then
    let joined := joinParts uFileSize hash.unit
    some (hash.unit, if joined.1 = 1 then hash.statusMap else joinBits hash.statusMap joined.1 joined.2)
  else none

/-- `CNeoClient::ProcessFileStatusRequest`, the packet that is sent. -/
def processFileStatusRequest {uFileSize : ℕ} (isComplete : Bool)
    (pHashEx : Option (CFileHashEx uFileSize)) : StatusPacket :=
  if isComplete then ⟨0, 0, []⟩
  else
    match pHashEx.bind statusBits with
    | none => ⟨1, 0, bits2Bytes [false] false⟩
    | some (partSize, bits) =>
      -- an empty array is replaced by one unset bit
      let bits := if bits.isEmpty then [false] else bits
      ⟨bits.length % 2 ^ 32, partSize, bits2Bytes bits false⟩

/-- What becomes of a status packet. -/
inductive StatusResult
  /-- The packet is refused. -/
  | refused (error : String)
  /-- A division by zero. -/
  | divisionByZero
  /-- A bit array of a negative size. -/
  | negativeSize
  /-- The parts of the peer. -/
  | available (parts : CRangeMap (BitVec 16))
  deriving DecidableEq, Repr

/-- `CP2PTransfer::PartsAvailable`, with the parts so far. -/
def partsAvailable (uFileSize : ℕ) (parts : Option (CRangeMap (BitVec 16))) (bits : List Bool)
    (uPartSize uBlockSize : ℕ) : CRangeMap (BitVec 16) :=
  (fromBitArray (parts.getD (CRangeMap.create shareMapOps uFileSize)) bits uPartSize uBlockSize
    (BitVec.ofNat 16 (Part.Available ||| Part.Verified)) []).map

/-- The bits and part size of a packet are taken over, unless there is no part size. -/
def takeStatus (uFileSize : ℕ) (parts : Option (CRangeMap (BitVec 16))) (bits : List Bool)
    (partSize : ℕ) : StatusResult :=
  if partSize = 0 then .refused "PV"
  else .available (partsAvailable uFileSize parts bits partSize 0)

/-- The part size that the receiver finds from the numbers of parts and bits. -/
def foundPartSize (uFileSize ps pc : ℕ) : ℕ :=
  ps * (divUp64 uFileSize ps % 2 ^ 32 / pc) % 2 ^ 64

/-- `CNeoClient::ProcessFileStatus`, with the parts so far. -/
def processFileStatus (uFileSize : ℕ) (parts : Option (CRangeMap (BitVec 16))) (packet : StatusPacket) : StatusResult :=
  if packet.pc = 0 then takeStatus uFileSize parts [true] uFileSize
  else if packet.pc = 1 then
    takeStatus uFileSize parts (bytes2Bits packet.pm 1 false) uFileSize
  else if packet.ps = 0 then .divisionByZero
  else if 2 ^ 31 ≤ packet.pc then .negativeSize
  else
    takeStatus uFileSize parts (bytes2Bits packet.pm packet.pc false) (foundPartSize uFileSize packet.ps packet.pc)

section Bits

variable (uPartSize uBlockCount uBlockSize : ℕ) (uState : BitVec 16)

theorem bitLoop_append (bits bits' : List Bool) (i : ℕ) (run : BitRun) :
    bitLoop uPartSize uBlockCount uBlockSize uState (bits ++ bits') i run =
      bitLoop uPartSize uBlockCount uBlockSize uState bits' (i + bits.length)
        (bitLoop uPartSize uBlockCount uBlockSize uState bits i run) := by
  induction bits generalizing i run with
  | nil => rfl
  | cons bit rest ih =>
    rw [List.cons_append, bitLoop, bitLoop, ih, List.length_cons, Nat.add_right_comm, Nat.add_assoc i]

theorem bCur_bitLoop (bits : List Bool) (i : ℕ) (run : BitRun) :
    (bitLoop uPartSize uBlockCount uBlockSize uState bits i run).bCur =
      bits.getLastD run.bCur := by
  induction bits generalizing i run with
  | nil => rfl
  | cons bit rest ih =>
    rw [bitLoop, ih, List.getLastD_cons]
    split_ifs with hne
    · rfl
    · rw [not_not.mp hne]

theorem bitLoop_replicate (m i : ℕ) (run : BitRun) :
    ∃ uEnd, bitLoop uPartSize uBlockCount uBlockSize uState (List.replicate m run.bCur) i run =
      { run with uEnd := uEnd } := by
  induction m generalizing i run with
  | zero => exact ⟨run.uEnd, rfl⟩
  | succ m ih =>
    rw [List.replicate_succ, bitLoop, if_neg (not_not.mpr rfl)]
    exact ih (i + 1) { run with uEnd := getBitMapOffset (i + 1) uPartSize uBlockCount uBlockSize }

/-- The map after more bits like the last one is the same. -/
theorem map_fromBitArray_pad (map : CRangeMap (BitVec 16)) (bit : Bool) (rest : List Bool) (m : ℕ)
    (availDiff : List SAvailDiff) :
    (fromBitArray map (bit :: rest ++ List.replicate m (rest.getLastD bit)) uPartSize uBlockSize uState availDiff).map =
      (fromBitArray map (bit :: rest) uPartSize uBlockSize uState availDiff).map := by
  unfold fromBitArray
  simp only [List.cons_append, List.tail_cons, List.headD_cons, bitLoop_append]
  have hlast := bCur_bitLoop uPartSize (blockCountOf uPartSize uBlockSize) uBlockSize uState rest 1
    ⟨0, 0, uPartSize, bit, availDiff, map⟩
  rw [← hlast]
  generalize bitLoop uPartSize (blockCountOf uPartSize uBlockSize) uBlockSize uState rest 1
    ⟨0, 0, uPartSize, bit, availDiff, map⟩ = run
  obtain ⟨uEnd, hrun⟩ := bitLoop_replicate uPartSize (blockCountOf uPartSize uBlockSize) uBlockSize
    uState m (1 + rest.length) run
  rw [hrun]
  rfl

/-- A number of parts rounded up is not more than another one. -/
theorem divUp_le_iff {a b m : ℕ} (hb : 0 < b) : divUp a b ≤ m ↔ a ≤ m * b := by
  have hle := le_divUp_mul a hb
  have hlt := divUp_mul_lt a hb
  constructor
  · intro h
    exact hle.trans (Nat.mul_le_mul_right b h)
  · intro h
    by_contra hgt
    have hmul : (m + 1) * b ≤ divUp a b * b := Nat.mul_le_mul_right b (not_le.mp hgt)
    rw [Nat.add_mul, Nat.one_mul] at hmul
    omega

/-- Bits for parts that start in the file decide which bytes are available, the last one up to
the end of the file. -/
theorem fromBitArray_parts {uState : BitVec 16} {uFileSize partSize : ℕ} (hsize : 0 < uFileSize) (hpart : 0 < partSize)
    (hfits : uFileSize + partSize ≤ 2 ^ 64) {bits : List Bool} (hbits : bits ≠ [])
    (hstart : (bits.length - 1) * partSize < uFileSize) {map : CRangeMap (BitVec 16)}
    (h : Canonical shareMapOps uFileSize map) (ha : isAvailable uState = true) :
    let parts := (fromBitArray map bits partSize 0 uState []).map
    Canonical shareMapOps uFileSize parts ∧ ∀ x < uFileSize,
      isAvailable (stateAt shareMapOps parts x) = bits.getD (min (x / partSize) (bits.length - 1)) false := by
  let L : BitLayout := ⟨uFileSize, partSize, 0, hsize, hpart, hfits, fun hne => absurd rfl hne⟩
  have hcount : L.bitCount = divUp uFileSize partSize := if_neg (not_not.mpr rfl)
  cases bits with
  | nil => exact absurd rfl hbits
  | cons bit rest =>
    rw [List.length_cons, Nat.add_sub_cancel] at hstart ⊢
    have hlt : rest.length < divUp uFileSize partSize := by
      by_contra hge
      have hle := (divUp_le_iff hpart).mp (not_lt.mp hge)
      omega
    have hpad := map_fromBitArray_pad partSize 0 uState map bit rest (divUp uFileSize partSize - (rest.length + 1)) []
    have hlength : (bit :: rest ++ List.replicate (divUp uFileSize partSize - (rest.length + 1))
        (rest.getLastD bit)).length = L.bitCount := by
      rw [List.length_append, List.length_cons, List.length_replicate, hcount]
      omega
    have hstate : uState ≠ 0 := by
      rintro rfl
      exact absurd ha (by decide)
    have hprogress := fromBitArray_progress L hlength h hstate fun hlong => absurd rfl hlong.1
    have hmap : (fromBitArray map (bit :: rest ++ List.replicate
        (divUp uFileSize partSize - (rest.length + 1)) (rest.getLastD bit)) L.partSize L.blockSize
        uState []).map = (fromBitArray map (bit :: rest) partSize 0 uState []).map := hpad
    have hcanonical := hprogress.canonical
    have hstates := hprogress.state
    rw [hmap] at hcanonical hstates
    refine ⟨hcanonical, fun x hx => ?_⟩
    have hindex : L.index x = x / partSize := by
      change x / partSize * L.blockCount + (if (0 : ℕ) ≠ 0 then _ else 0) = _
      rw [L.blockCount_of_part (not_not.mpr rfl), if_neg (not_not.mpr rfl), Nat.mul_one, Nat.add_zero]
    rw [hstates x, if_pos ⟨Nat.zero_le _, hx⟩, isAvailable_applyBit ha]
    unfold bitAt
    rw [hindex]
    have hdiv : x / partSize < divUp uFileSize partSize := by
      by_contra hge
      have hle := (divUp_le_iff hpart).mp (not_lt.mp hge)
      have hmul := Nat.div_mul_le_self x partSize
      omega
    by_cases hin : x / partSize ≤ rest.length
    · rw [min_eq_left hin, List.getD_append _ _ _ _ (by rw [List.length_cons]; omega)]
    · rw [min_eq_right (by omega), List.getD_append_right _ _ _ _ (by rw [List.length_cons]; omega),
        List.getD_replicate _ (by rw [List.length_cons]; omega)]
      cases rest with
      | nil => rfl
      | cons b rest =>
        rw [List.getLastD_cons, List.getLastD_eq_getLast?, List.getLast?_eq_getElem?, List.length_cons,
          List.getD_cons_succ]
        cases rest with
        | nil => rfl
        | cons c rest => simp

end Bits

section Join

/-- The number of parts that are joined, the least power of two such that the bits fit. -/
def groupSize (partCount : ℕ) : ℕ := 2 ^ Nat.clog 2 (divUp partCount (8 * 1024))

theorem divUp64_eq {size value : ℕ} (hvalue : 0 < value) (hfits : size + value ≤ 2 ^ 64) :
    divUp64 size value = divUp size value := by
  unfold divUp64 divUp
  have hsum : size + value + (2 ^ 64 - 1) = size + value - 1 + 2 ^ 64 := by omega
  rw [hsum, Nat.add_mod_right, Nat.mod_eq_of_lt (by omega)]

theorem divUp_mul (size : ℕ) {part joined : ℕ} (hpart : 0 < part) (hjoined : 0 < joined) :
    divUp size (part * joined) = divUp (divUp size part) joined := by
  refine eq_of_forall_ge_iff fun m => ?_
  rw [divUp_le_iff (Nat.mul_pos hpart hjoined), divUp_le_iff hjoined, divUp_le_iff hpart,
    Nat.mul_comm part, Nat.mul_assoc]

/-- The number of joined parts is a power of two that is not larger than needed. -/
structure JoinOk (uFileSize partSize joinBlocks partCount : ℕ) : Prop where
  /-- A bit for each group of parts. -/
  count : partCount = divUp (divUp uFileSize partSize) joinBlocks
  /-- A power of two, the half of which is not enough. -/
  power : ∃ k, joinBlocks = 2 ^ k ∧ (k = 0 ∨ 8 * 1024 * 2 ^ (k - 1) < divUp uFileSize partSize)
  /-- The size of a group does not overflow. -/
  fits : uFileSize + partSize * joinBlocks ≤ 2 ^ 64

variable {uFileSize partSize : ℕ}

/-- The loop stops at the least power of two. -/
theorem joinLoop_ok (hsize : uFileSize < 2 ^ 63) (hpart : 0 < partSize)
    (hcount : divUp uFileSize partSize < 2 ^ 31) (fuel : ℕ) {joinBlocks partCount : ℕ}
    (h : JoinOk uFileSize partSize joinBlocks partCount)
    (hfuel : divUp uFileSize partSize ≤ 8 * 1024 * (joinBlocks * 2 ^ fuel)) :
    let joined := joinLoop uFileSize partSize fuel joinBlocks partCount
    JoinOk uFileSize partSize joined.1 joined.2 ∧ divUp uFileSize partSize ≤ 8 * 1024 * joined.1 := by
  induction fuel generalizing joinBlocks partCount with
  | zero =>
    rw [Nat.pow_zero, Nat.mul_one] at hfuel
    exact ⟨h, hfuel⟩
  | succ fuel ih =>
    obtain ⟨k, rfl, -⟩ := h.power
    have hjoined : 0 < 2 ^ k := Nat.two_pow_pos k
    have hle := divUp_le_iff (a := divUp uFileSize partSize) (m := 8 * 1024) hjoined
    rw [← h.count] at hle
    rw [joinLoop]
    split_ifs with hlarge
    · have hmore : 8 * 1024 * 2 ^ k < divUp uFileSize partSize :=
        not_le.mp fun hnot => absurd (hle.mpr hnot) (not_le.mpr hlarge)
      have hbytes : 8 * 1024 * 2 ^ k * partSize < uFileSize :=
        not_le.mp fun hnot => absurd ((divUp_le_iff hpart).mpr hnot) (not_le.mpr hmore)
      have hassoc : 8 * 1024 * 2 ^ k * partSize = 8 * 1024 * (partSize * 2 ^ k) := by
        rw [Nat.mul_assoc, Nat.mul_comm (2 ^ k)]
      have htwice : partSize * (2 ^ k * 2) = 2 * (partSize * 2 ^ k) := by ring
      have hfits : uFileSize + partSize * (2 ^ k * 2) ≤ 2 ^ 64 := by omega
      have hpos : 0 < partSize * (2 ^ k * 2) := Nat.mul_pos hpart (Nat.mul_pos hjoined Nat.two_pos)
      have hnext : divUp64 uFileSize (partSize * (2 ^ k * 2) % 2 ^ 64) % 2 ^ 32 =
          divUp (divUp uFileSize partSize) (2 ^ k * 2) := by
        have hsmall : divUp (divUp uFileSize partSize) (2 ^ k * 2) ≤ divUp uFileSize partSize :=
          (divUp_le_iff (Nat.mul_pos hjoined Nat.two_pos)).mpr
            (Nat.le_mul_of_pos_right _ (Nat.mul_pos hjoined Nat.two_pos))
        have hgroup : partSize * (2 ^ k * 2) % 2 ^ 64 = partSize * (2 ^ k * 2) :=
          Nat.mod_eq_of_lt (by omega)
        rw [hgroup, divUp64_eq hpos hfits, divUp_mul _ hpart (Nat.mul_pos hjoined Nat.two_pos),
          Nat.mod_eq_of_lt (by omega)]
      refine ih ⟨hnext, ⟨k + 1, pow_succ 2 k, Or.inr ?_⟩, hfits⟩ ?_
      · rw [Nat.add_sub_cancel]
        exact hmore
      · rwa [Nat.mul_assoc (2 ^ k), ← Nat.pow_succ']
    · exact ⟨h, hle.mp (not_lt.mp hlarge)⟩

/-- The parts are joined into groups, with a bit for each. -/
theorem joinParts_eq (hsize : uFileSize < 2 ^ 63) (hpart : 0 < partSize)
    (hfits : uFileSize + partSize ≤ 2 ^ 64) (hcount : divUp uFileSize partSize < 2 ^ 31) :
    joinParts uFileSize partSize = (groupSize (divUp uFileSize partSize),
      divUp (divUp uFileSize partSize) (groupSize (divUp uFileSize partSize))) := by
  have hfirst : JoinOk uFileSize partSize 1 (divUp64 uFileSize partSize % 2 ^ 32) := by
    refine ⟨?_, ⟨0, rfl, Or.inl rfl⟩, by rwa [Nat.mul_one]⟩
    rw [divUp64_eq hpart hfits, Nat.mod_eq_of_lt (by omega), ← divUp_mul _ hpart Nat.one_pos, Nat.mul_one]
  obtain ⟨hok, hle⟩ := joinLoop_ok hsize hpart hcount 32 hfirst (by omega)
  unfold joinParts
  generalize joinLoop uFileSize partSize 32 1 _ = joined at hok hle
  obtain ⟨k, hk, hleast⟩ := hok.power
  have hpow : divUp (divUp uFileSize partSize) (8 * 1024) ≤ 2 ^ k :=
    (divUp_le_iff (by omega)).mpr (by rw [← hk, Nat.mul_comm]; exact hle)
  have hclog : Nat.clog 2 (divUp (divUp uFileSize partSize) (8 * 1024)) = k := by
    refine le_antisymm ((Nat.clog_le_iff_le_pow Nat.one_lt_two).mpr hpow) ?_
    rcases hleast with rfl | hleast
    · exact Nat.zero_le _
    · have hlt : k - 1 < Nat.clog 2 (divUp (divUp uFileSize partSize) (8 * 1024)) := by
        rw [Nat.lt_clog_iff_pow_lt Nat.one_lt_two]
        refine not_le.mp fun hnot => ?_
        have hback := (divUp_le_iff (by omega)).mp hnot
        rw [Nat.mul_comm] at hback
        omega
      omega
  have hgroup : joined.1 = groupSize (divUp uFileSize partSize) := by
    rw [groupSize, hclog, hk]
  exact Prod.ext hgroup (by rw [hok.count, hgroup])

end Join

section Sender

variable {uFileSize : ℕ}

/-- All parts of the group that a byte is in are verified. -/
def GroupVerified (hash : CFileHashEx uFileSize) (x : ℕ) : Prop :=
  ∀ i < hash.statusMap.length, i / groupSize hash.statusMap.length =
    x / hash.unit / groupSize hash.statusMap.length → hash.statusMap.getD i false = true

/-- The statuses of the hash can be sent. -/
structure Usable (hash : CFileHashEx uFileSize) : Prop where
  /-- There is a part size. -/
  unit_pos : 0 < hash.unit
  /-- There are bytes. -/
  size_pos : 0 < uFileSize
  /-- The parts can be verified. -/
  canHashParts : hash.canHashParts = true

theorem unit_eq (hash : CFileHashEx uFileSize) : hash.unit = hash.partSize + hash.blockSize := by
  unfold CFileHashEx.unit
  rcases hash.one with hzero | hzero
  · rw [if_neg (not_not.mpr hzero), hzero, Nat.zero_add]
  · rw [hzero, Nat.add_zero]
    split_ifs with hne
    · rfl
    · exact (not_not.mp hne).symm

theorem length_eq (hash : CFileHashEx uFileSize) : hash.statusMap.length = divUp uFileSize hash.unit := by
  rw [unit_eq, hash.length_statusMap]

theorem groupSize_pos (n : ℕ) : 0 < groupSize n := Nat.two_pow_pos _

theorem div_lt_divUp {i n m : ℕ} (hm : 0 < m) (hi : i < n) : i / m < divUp n m := by
  by_contra hge
  have hle := (divUp_le_iff hm).mp (not_lt.mp hge)
  have hmul := Nat.div_mul_le_self i m
  omega

/-- A test of bits in a row. -/
theorem testBits_iff {bits : List Bool} (hbits : bits ≠ []) (first last : ℕ) :
    testBits bits first last = true ↔ ∀ i, first ≤ i → i < last → bits.getD i false = true := by
  unfold testBits
  rw [Bool.and_eq_true, List.all_eq_true]
  constructor
  · rintro ⟨-, hall⟩ i hfirst hlast
    have hi := hall (i - first) (List.mem_range.mpr (by omega))
    rwa [Nat.add_sub_cancel' hfirst] at hi
  · intro h
    refine ⟨by cases bits with | nil => exact absurd rfl hbits | cons _ _ => rfl, fun k hk => ?_⟩
    exact h (first + k) (Nat.le_add_right _ _) (by have := List.mem_range.mp hk; omega)

/-- The bits of a hash: one for each group, set if all of its parts are verified. -/
theorem statusBits_spec (hsize : uFileSize < 2 ^ 63) {hash : CFileHashEx uFileSize} (h : Usable hash) :
    ∃ bits, statusBits hash = some (hash.unit, bits) ∧
      bits.length = divUp hash.statusMap.length (groupSize hash.statusMap.length) ∧
      ∀ g < bits.length, bits.getD g false = true ↔ ∀ i < hash.statusMap.length,
        i / groupSize hash.statusMap.length = g → hash.statusMap.getD i false = true := by
  have hlength := length_eq hash
  have hjoin := joinParts_eq hsize h.unit_pos (by rw [unit_eq]; exact hash.fits)
    (by rw [← hlength]; exact hash.length_lt)
  rw [← hlength] at hjoin
  have hpos := groupSize_pos hash.statusMap.length
  have hne : hash.statusMap ≠ [] := by
    intro hnil
    rw [hnil, List.length_nil] at hlength
    have hle := (divUp_le_iff h.unit_pos).mp hlength.ge
    have hsizePos := h.size_pos
    omega
  have husable : (hash.unit ≠ 0 && uFileSize ≠ 0 && hash.canHashParts && !hash.statusMap.isEmpty) = true := by
    simp [h.unit_pos.ne', h.size_pos.ne', h.canHashParts, hne]
  unfold statusBits
  rw [if_pos husable, hjoin]
  dsimp only
  refine ⟨_, rfl, ?_⟩
  split_ifs with hone
  · rw [hone]
    refine ⟨?_, fun g hg => ⟨fun hbit i _ hi => ?_, fun hall => hall g hg (Nat.div_one g)⟩⟩
    · unfold divUp
      rw [Nat.div_one, Nat.add_sub_cancel]
    · rw [Nat.div_one] at hi
      rw [hi]
      exact hbit
  · rw [joinBits, List.length_map, List.length_range]
    refine ⟨rfl, fun g hg => ?_⟩
    have hstart : g * groupSize hash.statusMap.length < hash.statusMap.length :=
      not_le.mp fun hle => absurd ((divUp_le_iff hpos).mpr hle) (not_le.mpr hg)
    rw [List.getD_eq_getElem _ _ (by rwa [List.length_map, List.length_range]), List.getElem_map,
      List.getElem_range, decide_eq_true hstart, Bool.true_and, testBits_iff hne]
    constructor
    · intro hall i hi hgroup
      have hdm := Nat.div_add_mod i (groupSize hash.statusMap.length)
      have hmod := Nat.mod_lt i hpos
      rw [hgroup, Nat.mul_comm] at hdm
      exact hall i (by omega) (by omega)
    · intro hall i hfirst hlast
      refine hall i (by omega) ?_
      rw [Nat.div_eq_iff hpos]
      omega

end Sender

section Receiver

variable {uFileSize : ℕ} {parts : Option (CRangeMap (BitVec 16))}

theorem isAvailable_flags : isAvailable (BitVec.ofNat 16 (Part.Available ||| Part.Verified)) = true := by
  decide

/-- Bits for parts that start in the file are taken over. -/
theorem takeStatus_spec (hparts : ∀ map ∈ parts, Canonical shareMapOps uFileSize map)
    (hsize : 0 < uFileSize) {partSize : ℕ} (hpart : 0 < partSize)
    (hfits : uFileSize + partSize ≤ 2 ^ 64) {bits : List Bool} (hbits : bits ≠ [])
    (hstart : (bits.length - 1) * partSize < uFileSize) :
    ∃ map, takeStatus uFileSize parts bits partSize = .available map ∧
      Canonical shareMapOps uFileSize map ∧ ∀ x < uFileSize, isAvailable (stateAt shareMapOps map x) =
          bits.getD (min (x / partSize) (bits.length - 1)) false := by
  have hmap : Canonical shareMapOps uFileSize (parts.getD (CRangeMap.create shareMapOps uFileSize)) := by
    cases parts with
    | none => exact canonical_create shareMapOps hsize
    | some map => exact hparts map rfl
  unfold takeStatus
  rw [if_neg hpart.ne']
  exact ⟨_, rfl, fromBitArray_parts hsize hpart hfits hbits hstart hmap isAvailable_flags⟩

/-- The part size that the receiver finds: the parts that are joined, rounded down. -/
theorem foundPartSize_eq {ps : ℕ} (pc : ℕ) (hps : 0 < ps) :
    ∃ n, foundPartSize uFileSize ps pc = ps * n ∧ pc * n ≤ divUp uFileSize ps ∧
      (uFileSize + ps ≤ 2 ^ 64 → divUp uFileSize ps < 2 ^ 32 → n = divUp uFileSize ps / pc) := by
  have hcount : divUp64 uFileSize ps ≤ divUp uFileSize ps := by
    unfold divUp64 divUp
    refine Nat.div_le_div_right ?_
    have hsum : uFileSize + ps + (2 ^ 64 - 1) = uFileSize + ps - 1 + 2 ^ 64 := by omega
    rw [hsum, Nat.add_mod_right]
    exact Nat.mod_le _ _
  have hmod : divUp64 uFileSize ps % 2 ^ 32 ≤ divUp64 uFileSize ps := Nat.mod_le _ _
  have hbytes : ps * divUp64 uFileSize ps < 2 ^ 64 := by
    unfold divUp64
    refine (Nat.mul_div_le _ _).trans_lt (Nat.mod_lt _ (by omega))
  have hdiv : divUp64 uFileSize ps % 2 ^ 32 / pc ≤ divUp64 uFileSize ps % 2 ^ 32 := Nat.div_le_self _ _
  refine ⟨divUp64 uFileSize ps % 2 ^ 32 / pc, ?_, ?_, fun hfits hlt => ?_⟩
  · unfold foundPartSize
    refine Nat.mod_eq_of_lt (lt_of_le_of_lt (Nat.mul_le_mul_left ps ?_) hbytes)
    omega
  · have hle := Nat.mul_div_le (divUp64 uFileSize ps % 2 ^ 32) pc
    omega
  · rw [divUp64_eq hps hfits, Nat.mod_eq_of_lt hlt]

/-- Joined parts of the size that the receiver finds start in the file. -/
theorem joined_start {ps pc n : ℕ} (hps : 0 < ps) (hpc : 2 ≤ pc) (hn : 0 < n) (hle : pc * n ≤ divUp uFileSize ps) :
    (pc - 1) * (ps * n) < uFileSize ∧ ps * n < uFileSize := by
  have hlt := divUp_mul_lt uFileSize hps
  have hmul : pc * n * ps ≤ divUp uFileSize ps * ps := Nat.mul_le_mul_right ps hle
  have hsplit : pc * n * ps = (pc - 1) * (ps * n) + ps * n := by
    obtain ⟨k, rfl⟩ : ∃ k, pc = k + 1 := ⟨pc - 1, by omega⟩
    rw [Nat.add_sub_cancel]
    ring
  have hone : ps ≤ ps * n := Nat.le_mul_of_pos_right ps hn
  have htwo : ps * n ≤ (pc - 1) * (ps * n) := Nat.le_mul_of_pos_left _ (by omega)
  omega

/-- A packet is refused, or the parts stay inside the file. -/
def StaysInside (uFileSize : ℕ) : StatusResult → Prop
  | .refused _ => True
  | .available map => Canonical shareMapOps uFileSize map
  | _ => False

/-- A packet is refused or the parts stay inside the file, unless it has several bits and no part
size, or their number is no positive `int`. -/
theorem processFileStatus_iff (hsize : uFileSize < 2 ^ 63)
    (hparts : ∀ map ∈ parts, Canonical shareMapOps uFileSize map) (packet : StatusPacket) :
    StaysInside uFileSize (processFileStatus uFileSize parts packet) ↔
      ¬(2 ≤ packet.pc ∧ (packet.ps = 0 ∨ 2 ^ 31 ≤ packet.pc)) := by
  have hwhole : ∀ bits : List Bool, bits.length = 1 →
      StaysInside uFileSize (takeStatus uFileSize parts bits uFileSize) := by
    intro bits hbits
    by_cases hzero : uFileSize = 0
    · unfold takeStatus
      rw [if_pos hzero]
      trivial
    · obtain ⟨map, hmap, hcanonical, -⟩ := takeStatus_spec hparts (Nat.pos_of_ne_zero hzero)
        (Nat.pos_of_ne_zero hzero) (by omega) (List.ne_nil_of_length_eq_add_one hbits)
        (by rw [hbits]; omega)
      rw [hmap]
      exact hcanonical
  unfold processFileStatus
  split_ifs with hnone hone hps hneg
  · exact iff_of_true (hwhole _ rfl) fun h => by omega
  · exact iff_of_true (hwhole _ (length_bytes2Bits _ _ _)) fun h => by omega
  · exact iff_of_false id (not_not.mpr ⟨by omega, Or.inl hps⟩)
  · exact iff_of_false id (not_not.mpr ⟨by omega, Or.inr hneg⟩)
  · refine iff_of_true ?_ fun h => by omega
    obtain ⟨n, hfound, hle, -⟩ :=
      foundPartSize_eq packet.pc (Nat.pos_of_ne_zero hps)
    rw [hfound]
    by_cases hzero : n = 0
    · unfold takeStatus
      rw [if_pos (by rw [hzero, Nat.mul_zero])]
      trivial
    · obtain ⟨hstart, hin⟩ := joined_start (Nat.pos_of_ne_zero hps) (by omega : 2 ≤ packet.pc)
        (Nat.pos_of_ne_zero hzero) hle
      have hlength := length_bytes2Bits packet.pm packet.pc false
      have hne : bytes2Bits packet.pm packet.pc false ≠ [] := by
        intro hnil
        rw [hnil, List.length_nil] at hlength
        exact hnone hlength.symm
      obtain ⟨map, hmap, hcanonical, -⟩ := takeStatus_spec hparts (by omega)
        (Nat.mul_pos (Nat.pos_of_ne_zero hps) (Nat.pos_of_ne_zero hzero)) (by omega) hne
        (by rwa [hlength])
      rw [hmap]
      exact hcanonical

end Receiver

section RoundTrip

variable {uFileSize : ℕ} {parts : Option (CRangeMap (BitVec 16))}

/-- The sender has a byte: the file is complete, or all parts of its group are verified. -/
def SenderHas (isComplete : Bool) (pHashEx : Option (CFileHashEx uFileSize)) (x : ℕ) : Prop :=
  isComplete = true ∨ ∃ hash ∈ pHashEx, Usable hash ∧ GroupVerified hash x

/-- The bytes that the sender has are available, exactly. -/
def Carried (has : ℕ → Prop) (uFileSize : ℕ) : StatusResult → Prop
  | .refused _ => uFileSize = 0
  | .available map => ∀ x < uFileSize, isAvailable (stateAt shareMapOps map x) = true ↔ has x
  | _ => False

/-- The groups of the sender divide the parts, or are all alike. -/
def GroupsFound (isComplete : Bool) (pHashEx : Option (CFileHashEx uFileSize)) : Prop :=
  isComplete = false → ∀ hash ∈ pHashEx, Usable hash → groupSize hash.statusMap.length ∣ hash.statusMap.length ∨
      (∀ x < uFileSize, GroupVerified hash x) ∨ ∀ x < uFileSize, ¬GroupVerified hash x

section

variable (hsize : uFileSize < 2 ^ 63) (hparts : ∀ map ∈ parts, Canonical shareMapOps uFileSize map)

include hsize hparts

/-- One bit for the whole file. -/
theorem carried_whole {has : ℕ → Prop} (bit : Bool) (hhas : ∀ x < uFileSize, bit = true ↔ has x) :
    Carried has uFileSize (takeStatus uFileSize parts [bit] uFileSize) := by
  by_cases hzero : uFileSize = 0
  · unfold takeStatus
    rw [if_pos hzero]
    exact hzero
  · obtain ⟨map, hmap, -, hbytes⟩ := takeStatus_spec hparts (Nat.pos_of_ne_zero hzero)
      (Nat.pos_of_ne_zero hzero) (by omega) (List.cons_ne_nil bit [])
      (by rw [List.length_singleton]; omega)
    rw [hmap]
    intro x hx
    rw [hbytes x hx, List.length_singleton, Nat.sub_self, Nat.min_zero]
    exact hhas x hx

/-- The bits of groups, read with the part size that the receiver finds, are those of the bytes
exactly if the groups divide the parts, or are all alike. -/
theorem carried_groups {unit group n : ℕ}
    (hunit : 0 < unit) (hgroup : 0 < group) {bits : List Bool} (htwo : 2 ≤ bits.length)
    (hlength : bits.length = divUp (divUp uFileSize unit) group)
    (hn : n = divUp uFileSize unit / bits.length) {has : ℕ → Prop}
    (hhas : ∀ x < uFileSize, bits.getD (x / unit / group) false = true ↔ has x) :
    Carried has uFileSize (takeStatus uFileSize parts bits (unit * n)) ↔
      group ∣ divUp uFileSize unit ∨ (∀ x < uFileSize, has x) ∨ ∀ x < uFileSize, ¬has x := by
  have hcountLe : bits.length ≤ divUp uFileSize unit :=
    hlength ▸ (divUp_le_iff hgroup).mpr (Nat.le_mul_of_pos_right _ hgroup)
  have hpos : 0 < n := by
    rw [hn]
    exact Nat.div_pos hcountLe (by omega)
  have hle : bits.length * n ≤ divUp uFileSize unit := by
    rw [hn]
    exact Nat.mul_div_le _ _
  obtain ⟨hstart, hin⟩ := joined_start hunit htwo hpos hle
  have hne : bits ≠ [] := by
    rintro rfl
    exact absurd htwo (by decide)
  obtain ⟨map, hmap, -, hbytes⟩ := takeStatus_spec hparts (by omega) (Nat.mul_pos hunit hpos) (by omega) hne hstart
  rw [hmap]
  -- a byte is read through the bit at its place among parts of the size found
  have hread : ∀ x < uFileSize, isAvailable (stateAt shareMapOps map x) =
      bits.getD (min (x / unit / n) (bits.length - 1)) false := by
    intro x hx
    rw [hbytes x hx, Nat.div_div_eq_div_mul]
  have hplace : ∀ x < uFileSize, x / unit / group < bits.length := by
    intro x hx
    rw [hlength]
    exact div_lt_divUp hgroup (div_lt_divUp hunit hx)
  have hreach := le_divUp_mul (divUp uFileSize unit) hgroup
  rw [← hlength] at hreach
  -- the first byte of a group
  have hfirst : ∀ g < bits.length, g * group * unit < uFileSize ∧
      (bits.getD g false = true ↔ has (g * group * unit)) := by
    intro g hg
    have hlt : g * group < divUp uFileSize unit :=
      not_le.mp fun hnot => absurd ((divUp_le_iff hgroup).mpr hnot) (by rw [← hlength]; omega)
    have hgx : g * group * unit < uFileSize :=
      not_le.mp fun hnot => absurd ((divUp_le_iff hunit).mpr hnot) (by omega)
    have hbyte := hhas _ hgx
    rw [Nat.mul_div_cancel _ hunit, Nat.mul_div_cancel _ hgroup] at hbyte
    exact ⟨hgx, hbyte⟩
  constructor
  · intro hcarried
    by_cases hdvd : group ∣ divUp uFileSize unit
    · exact Or.inl hdvd
    right
    -- the group found is too small, and each bit is also read for a byte of an earlier group
    have hsmall : n < group := by
      refine not_le.mp fun hnot => hdvd ⟨bits.length, ?_⟩
      have hmul := Nat.mul_le_mul_left bits.length hnot
      rw [Nat.mul_comm group]
      omega
    have hsame : ∀ g < bits.length, bits.getD g false = bits.getD 0 false := by
      intro g
      induction g using Nat.strong_induction_on with
      | _ g ih =>
        intro hg
        by_cases hzero : g = 0
        · rw [hzero]
        have hx : g * (unit * n) < uFileSize :=
          lt_of_le_of_lt (Nat.mul_le_mul_right _ (by omega : g ≤ bits.length - 1)) hstart
        have hunits : g * (unit * n) / unit = g * n := by
          rw [Nat.mul_comm unit, ← Nat.mul_assoc, Nat.mul_div_cancel _ hunit]
        have hold : g * n / group < g := by
          rw [Nat.div_lt_iff_lt_mul hgroup]
          exact Nat.mul_lt_mul_of_pos_left hsmall (Nat.pos_of_ne_zero hzero)
        have hbyte := (hcarried _ hx).trans (hhas _ hx).symm
        rw [hread _ hx, hunits, Nat.mul_div_cancel _ hpos, min_eq_left (by omega)] at hbyte
        exact (Bool.eq_iff_iff.mpr hbyte).trans (ih _ hold (hold.trans hg))
    cases hbit : bits.getD 0 false with
    | true => exact Or.inl fun x hx => (hhas x hx).mp ((hsame _ (hplace x hx)).trans hbit)
    | false =>
      refine Or.inr fun x hx hyes => ?_
      have hset := (hhas x hx).mpr hyes
      rw [hsame _ (hplace x hx), hbit] at hset
      exact Bool.false_ne_true hset
  · intro h x hx
    rw [hread x hx, ← hhas x hx]
    rcases h with hdvd | hall | hnone
    · obtain ⟨m, hm⟩ := hdvd
      have hbits : bits.length = m := by
        refine le_antisymm ?_ ?_
        · rw [hlength]
          exact (divUp_le_iff hgroup).mpr (by rw [hm, Nat.mul_comm])
        · rw [hm, Nat.mul_comm] at hreach
          exact Nat.le_of_mul_le_mul_right hreach hgroup
      have hfound : n = group := by
        rw [hn, hm, hbits, Nat.mul_div_cancel _ (by omega)]
      have hxplace := hplace x hx
      rw [hfound, min_eq_left (by omega)]
    · have hall' : ∀ g < bits.length, bits.getD g false = true := fun g hg =>
        (hfirst g hg).2.mpr (hall _ (hfirst g hg).1)
      rw [hall' _ (by omega), hall' _ (hplace x hx)]
    · have hnone' : ∀ g < bits.length, bits.getD g false = false := fun g hg =>
        Bool.eq_false_iff.mpr fun hset => hnone _ (hfirst g hg).1 ((hfirst g hg).2.mp hset)
      rw [hnone' _ (by omega), hnone' _ (hplace x hx)]

end

variable {hash : CFileHashEx uFileSize}

theorem statusBits_none (h : ¬Usable hash) : statusBits hash = none := by
  unfold statusBits
  refine if_neg fun hyes => h ?_
  simp only [Bool.and_eq_true, decide_eq_true_eq] at hyes
  exact ⟨Nat.pos_of_ne_zero hyes.1.1.1, Nat.pos_of_ne_zero hyes.1.1.2, hyes.1.2⟩

/-- The packet of a sender with statuses. -/
theorem carried_usable (hsize : uFileSize < 2 ^ 63) (hparts : ∀ map ∈ parts, Canonical shareMapOps uFileSize map)
    (h : Usable hash) : Carried (GroupVerified hash) uFileSize
        (processFileStatus uFileSize parts (processFileStatusRequest false (some hash))) ↔
      groupSize hash.statusMap.length ∣ hash.statusMap.length ∨
        (∀ x < uFileSize, GroupVerified hash x) ∨ ∀ x < uFileSize, ¬GroupVerified hash x := by
  obtain ⟨bits, hbits, hlength, hset⟩ := statusBits_spec hsize h
  have hcount := length_eq hash
  have hgroup := groupSize_pos hash.statusMap.length
  have hlt := hash.length_lt
  have hfits : uFileSize + hash.unit ≤ 2 ^ 64 := by
    rw [unit_eq]
    exact hash.fits
  have hhas : ∀ x < uFileSize,
      bits.getD (x / hash.unit / groupSize hash.statusMap.length) false = true ↔ GroupVerified hash x := by
    intro x hx
    refine hset _ ?_
    rw [hlength, hcount]
    exact div_lt_divUp (groupSize_pos _) (div_lt_divUp h.unit_pos hx)
  have hplace : 0 < bits.length := by
    have hfirst := div_lt_divUp h.unit_pos h.size_pos
    rw [hlength]
    exact (Nat.zero_le _).trans_lt (div_lt_divUp hgroup (by rw [hcount]; exact hfirst))
  have hle : bits.length ≤ hash.statusMap.length := by
    rw [hlength]
    exact (divUp_le_iff hgroup).mpr (Nat.le_mul_of_pos_right _ hgroup)
  have hpacket : processFileStatusRequest false (some hash) = ⟨bits.length, hash.unit, bits2Bytes bits false⟩ := by
    have hne : bits.isEmpty = false := by
      cases bits with
      | nil => exact absurd hplace (by simp)
      | cons bit rest => rfl
    have hmod : bits.length % 2 ^ 32 = bits.length := Nat.mod_eq_of_lt (by omega)
    simp only [processFileStatusRequest, Bool.false_eq_true, if_false, Option.bind_some, hbits, hne, hmod]
  rw [hpacket]
  unfold processFileStatus
  dsimp only
  rw [if_neg hplace.ne']
  split_ifs with hone hunit hneg
  · have hread : bytes2Bits (bits2Bytes bits false) 1 false = [bits.getD 0 false] := by
      rw [← hone, bytes2Bits_bits2Bytes]
      obtain ⟨bit, rfl⟩ := List.length_eq_one_iff.mp hone
      rfl
    have hall : ∀ x < uFileSize, bits.getD 0 false = true ↔ GroupVerified hash x := by
      intro x hx
      have hzero := div_lt_divUp (groupSize_pos hash.statusMap.length) (div_lt_divUp h.unit_pos hx)
      rw [← hcount, ← hlength, hone, Nat.lt_one_iff] at hzero
      have hx' := hhas x hx
      rwa [hzero] at hx'
    rw [hread]
    refine iff_of_true (carried_whole hsize hparts _ hall) (Or.inr ?_)
    cases hbit : bits.getD 0 false with
    | true => exact Or.inl fun x hx => (hall x hx).mp hbit
    | false =>
      refine Or.inr fun x hx hyes => ?_
      have hyes' := (hall x hx).mpr hyes
      rw [hbit] at hyes'
      exact Bool.false_ne_true hyes'
  · exact absurd hunit h.unit_pos.ne'
  · omega
  · obtain ⟨n, hfound, -, hn⟩ := foundPartSize_eq bits.length h.unit_pos
    have hcarried := carried_groups hsize hparts h.unit_pos hgroup (by omega) (by rw [hlength, hcount])
      (hn hfits (by rw [← hcount]; omega)) hhas
    rw [bytes2Bits_bits2Bytes, hfound]
    rw [← hcount] at hcarried
    exact hcarried

theorem senderHas_usable (h : Usable hash) : SenderHas false (some hash) = GroupVerified hash := by
  funext x
  refine propext ⟨?_, fun hverified => Or.inr ⟨hash, rfl, h, hverified⟩⟩
  rintro (hfalse | ⟨hash', hmem, -, hverified⟩)
  · cases hfalse
  · cases hmem
    exact hverified

/-- The status that a peer sends makes exactly the bytes available that it has, if and only if
the groups of joined parts divide the parts or are all alike. Any packet is refused or keeps
the parts inside the file, if and only if it does not have several bits and no part size, or
more bits than an array can have. -/
theorem fileStatus_iff (hsize : uFileSize < 2 ^ 63) (hparts : ∀ map ∈ parts, Canonical shareMapOps uFileSize map) :
    (∀ (isComplete : Bool) (pHashEx : Option (CFileHashEx uFileSize)), Carried (SenderHas isComplete pHashEx) uFileSize
        (processFileStatus uFileSize parts (processFileStatusRequest isComplete pHashEx)) ↔
      GroupsFound isComplete pHashEx) ∧
    ∀ packet, StaysInside uFileSize (processFileStatus uFileSize parts packet) ↔
      ¬(2 ≤ packet.pc ∧ (packet.ps = 0 ∨ 2 ^ 31 ≤ packet.pc)) := by
  refine ⟨fun isComplete pHashEx => ?_, processFileStatus_iff hsize hparts⟩
  cases isComplete with
  | true =>
    refine iff_of_true (carried_whole hsize hparts true fun x _ => ?_) fun hfalse => by cases hfalse
    exact iff_of_true rfl (Or.inl rfl)
  | false =>
    by_cases husable : ∃ hash ∈ pHashEx, Usable hash
    · obtain ⟨hash, hhash, h⟩ := husable
      obtain rfl := Option.mem_def.mp hhash
      rw [senderHas_usable h, carried_usable hsize hparts h]
      exact ⟨fun hcond _ hash' hmem _ => by cases hmem; exact hcond, fun hcond => hcond rfl hash rfl h⟩
    · have hnone : pHashEx.bind statusBits = none := by
        cases pHashEx with
        | none => rfl
        | some hash => exact statusBits_none fun h => husable ⟨hash, rfl, h⟩
      have hpacket : processFileStatusRequest false pHashEx = ⟨1, 0, bits2Bytes [false] false⟩ := by
        simp [processFileStatusRequest, hnone]
      rw [hpacket]
      refine iff_of_true ?_ fun _ hash hmem h => absurd ⟨hash, hmem, h⟩ husable
      refine carried_whole hsize hparts false fun x _ => iff_of_false Bool.false_ne_true ?_
      rintro (hfalse | ⟨hash, hmem, h, -⟩)
      · cases hfalse
      · exact husable ⟨hash, hmem, h⟩

/-- A file of three bytes, in parts of one byte. -/
theorem fileStatus_iff_three :
    (∀ (isComplete : Bool) (pHashEx : Option (CFileHashEx 3)), Carried (SenderHas isComplete pHashEx) 3
        (processFileStatus 3 none (processFileStatusRequest isComplete pHashEx)) ↔
      GroupsFound isComplete pHashEx) ∧
    ∀ packet, StaysInside 3 (processFileStatus 3 none packet) ↔
      ¬(2 ≤ packet.pc ∧ (packet.ps = 0 ∨ 2 ^ 31 ≤ packet.pc)) :=
  fileStatus_iff (by decide) fun _ hmap => by cases hmap

/-- A file of 8193 blocks of 256 KB, the first two of which are verified. -/
def exampleHash : CFileHashEx (8193 * 262144) where
  partSize := 0
  blockSize := 262144
  canHashParts := true
  statusMap := true :: true :: List.replicate 8191 false
  one := Or.inl rfl
  length_statusMap := by
    rw [List.length_cons, List.length_cons, List.length_replicate]
    rfl
  length_lt := by
    rw [List.length_cons, List.length_cons, List.length_replicate]
    decide
  fits := by decide

/-- The receiver does not find the two blocks of a group of that file, and divides by zero when a
packet with two bits has no part size. -/
theorem fileStatus_wrong : ¬Carried (SenderHas false (some exampleHash)) (8193 * 262144)
        (processFileStatus (8193 * 262144) none (processFileStatusRequest false (some exampleHash))) ∧
      processFileStatus 3 none ⟨2, 0, []⟩ = .divisionByZero := by
  have husable : Usable exampleHash := ⟨by decide, by decide, rfl⟩
  have hlength : exampleHash.statusMap.length = 8193 := by
    change (true :: true :: List.replicate 8191 false).length = 8193
    rw [List.length_cons, List.length_cons, List.length_replicate]
  refine ⟨?_, rfl⟩
  rw [senderHas_usable husable, carried_usable (by decide) (fun _ hmap => by cases hmap) husable, hlength]
  rintro (hdvd | hall | hnone)
  · exact absurd hdvd (by decide)
  · have hthird := hall (2 * 262144) (by decide) 2 (by rw [hlength]; decide) (by rw [hlength]; decide)
    exact absurd hthird (by decide)
  · refine hnone 0 (by decide) fun i _ hi => ?_
    rw [hlength] at hi
    have hgroup : groupSize 8193 = 2 := by decide
    rw [hgroup, Nat.zero_div, Nat.zero_div] at hi
    obtain rfl | rfl : i = 0 ∨ i = 1 := by omega
    · rfl
    · rfl

end RoundTrip

end NeoLoader.NeoFileStatus
