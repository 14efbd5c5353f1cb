import NeoLoader.ByteReader
import NeoLoader.NeoFileStatus

/-!
# File status of an eMule peer

A peer sends one bit for each part of a file, for each crumb of it, or for some blocks that
are joined within a part. Only the number of bits is sent with them, and the receiver finds
from it what the bits stand for.
-/

namespace NeoLoader.MuleFileStatus

open StepFunction RangeMap PartStates ShareMapBits BitArrays NeoFileStatus ByteReader

/-- `ED2K_PARTSIZE`. -/
abbrev partSize : ℕ := 9728000

/-- `ED2K_CRUMBSIZE`. -/
abbrev crumbSize : ℕ := 486400

/-- `ED2K_BLOCKSIZE`. -/
abbrev blockSize : ℕ := 184320

def CT_REVISION_NETFWARP : ℤ := 2

/-- A status map with as many statuses as a file has, or none yet. -/
structure StatusMap (count : ℕ) where
  /-- `m_StatusMap`. -/
  bits : List Bool
  /-- The number of statuses. -/
  length_bits : bits = [] ∨ bits.length = count

/-- `CFileHashEx::GetStatusMap`. -/
def StatusMap.getStatusMap {count : ℕ} (m : StatusMap count) : List Bool :=
  if m.bits = [] then List.replicate count false else m.bits

/-- The number of parts of a file. -/
def partCount (uFileSize : ℕ) : ℕ := divUp uFileSize partSize

/-- The number of blocks of a file, counted in each part. -/
def blockCount (uFileSize : ℕ) : ℕ :=
  uFileSize / partSize * 53 + divUp (uFileSize % partSize) blockSize

/-- A file that is shared with eMule peers. -/
structure SharedFile (uFileSize : ℕ) where
  isComplete : Bool
  /-- The statuses of the hash set. -/
  pHashSet : StatusMap (partCount uFileSize)
  /-- The statuses of the hash tree, if there is one. -/
  pHashTree : Option (StatusMap (blockCount uFileSize))

/-- `uMultis` and `uDivs`: the blocks that are put into a bit, and the bits of a part. -/
def granularities : List (ℕ × ℕ) := [(1, 53), (2, 27), (4, 14), (8, 7), (16, 4), (32, 2)]

/-- The number of bits for joined blocks. -/
def totalBits (uFileSize : ℕ) (g : ℕ × ℕ) : ℕ :=
  uFileSize / partSize * g.2 + divUp (uFileSize % partSize) (blockSize * g.1)

/-- The blocks that are joined, such that there are no more than 8000 bits. -/
def chosen (uFileSize : ℕ) : Option (ℕ × ℕ) :=
  granularities.find? fun g => totalBits uFileSize g ≤ 8000

/-- A bit of the loops over parts and their blocks. -/
def joinedBit (statusMap : List Bool) (g : ℕ × ℕ) (index : ℕ) : Bool :=
  let i := index / g.2 * 53
  let j := index % g.2 * g.1
  decide (i < statusMap.length) && testBits statusMap (i + j) (min (min (i + j + g.1) (i + 53)) statusMap.length)

/-- The bits for blocks that are joined, if there is a choice that is not one block for a bit. -/
def joinedBits (uFileSize : ℕ) (statusMap : List Bool) : Option (ℕ × ℕ) → List Bool
  | none => statusMap
  | some g =>
    if g.1 = 1 then statusMap
    else (List.range (totalBits uFileSize g)).map (joinedBit statusMap g)

/-- The bits for joined blocks. -/
def treeBits (uFileSize : ℕ) (statusMap : List Bool) : List Bool :=
  joinedBits uFileSize statusMap (chosen uFileSize)

/-- `CFileHashEx::GetResult` of a hash set. -/
def getResult (statusMap : List Bool) (uBegin uEnd : ℕ) : Bool :=
  testBits statusMap (uBegin / partSize) (divUp uEnd partSize)

/-- The bits for crumbs. -/
def crumbBits (uFileSize : ℕ) (statusMap : List Bool) : List Bool :=
  (List.range (divUp uFileSize crumbSize)).map fun i =>
    getResult statusMap (crumbSize * i) (min (crumbSize * i + crumbSize) uFileSize)

/-- `QBitArray::resize`. -/
def resize (bits : List Bool) (n : ℕ) : List Bool := bits.take n ++ List.replicate (n - bits.length) false

/-- The number of bits and their bytes. -/
def writeBits (bits : List Bool) : List UInt8 :=
  littleEndian 2 (bits.length % 2 ^ 16) ++ (bits2Bytes bits true).map UInt8.ofBitVec

/-- The bits of an incomplete file, for a peer with a revision of the protocol. -/
def revisionBits {uFileSize : ℕ} (protocolRevision : ℤ) (file : SharedFile uFileSize) : List Bool :=
  match if CT_REVISION_NETFWARP ≤ protocolRevision then file.pHashTree else none with
  | some tree => treeBits uFileSize tree.getStatusMap
  | none =>
    if uFileSize ≤ 8000 * crumbSize then crumbBits uFileSize file.pHashSet.bits
    else resize file.pHashSet.getStatusMap (partCount uFileSize)

/-- `CMuleClient::WriteFileStatus`. -/
def writeFileStatus {uFileSize : ℕ} (protocolRevision : ℤ) (file : SharedFile uFileSize) :
    List UInt8 :=
  if file.isComplete then littleEndian 2 0
  else if protocolRevision ≠ 0 then writeBits (revisionBits protocolRevision file)
  else writeBits (resize file.pHashSet.getStatusMap (uFileSize / partSize + 1))

/-- Read so many bits. -/
def readBits (n : ℕ) : Reader (List Bool) := do
  let bytes ← readBytes (divUp n 8)
  return bytes2Bits (bytes.map UInt8.toBitVec) n true

/-- The size of what a bit stands for, and their number in a part. -/
def subChunk (uFileSize count : ℕ) : Option (ℕ × ℕ) :=
  if count = partCount uFileSize then some (partSize, 1)
  else if count = divUp uFileSize crumbSize then some (crumbSize, partSize / crumbSize)
  else (granularities.find? fun g => count = totalBits uFileSize g).map fun g => (blockSize * g.1, g.2)

/-- The bits for several chunks, with the size of one, unless their number fits none. -/
def readSubChunks (uFileSize count : ℕ) : Reader (List Bool × ℕ) :=
  match subChunk uFileSize count with
  | none => fun _ => none
  | some (uSubChunkSize, uSubChunkCount) =>
    if count ≠ uSubChunkCount * (uFileSize / partSize) + divUp (uFileSize % partSize) uSubChunkSize then
      fun _ => none
    else do
      let bits ← readBits count
      return (bits, uSubChunkSize)

/-- The bits of a peer with a revision of the protocol, with the size of a chunk. -/
def readRevision (uFileSize : ℕ) : Reader (List Bool × ℕ) := do
  let count ← readNumber 2
  if count = 0 then return (List.replicate (partCount uFileSize) true, 0)
  else if count = 1 then
    let bit ← readNumber 1
    return (List.replicate (partCount uFileSize) (decide (bit ≠ 0)), 0)
  else readSubChunks uFileSize count

/-- The bits of other peers. -/
def readParts (uFileSize : ℕ) : Reader (List Bool × ℕ) := do
  let count ← readNumber 2
  if count = 0 then return (List.replicate (partCount uFileSize) true, 0)
  else
    let bits ← readBits count
    return (bits.take (partCount uFileSize), 0)

/-- `CMuleClient::ReadFileStatus`, the bits and block size it makes available. -/
def readFileStatus (protocolRevision : ℤ) (uFileSize : ℕ) : Reader (List Bool × ℕ) :=
  if protocolRevision ≠ 0 then readRevision uFileSize else readParts uFileSize

/-- The bits that are sent for an incomplete file. -/
def sentBits {uFileSize : ℕ} (protocolRevision : ℤ) (file : SharedFile uFileSize) : List Bool :=
  if protocolRevision ≠ 0 then revisionBits protocolRevision file
  else resize file.pHashSet.getStatusMap (uFileSize / partSize + 1)

/-- The hash tree that is shared with a peer. -/
def sharedTree {uFileSize : ℕ} (protocolRevision : ℤ) (file : SharedFile uFileSize) :
    Option (StatusMap (blockCount uFileSize)) :=
  if CT_REVISION_NETFWARP ≤ protocolRevision then file.pHashTree else none

/-- The size of what a bit stands for. -/
def unitSize {uFileSize : ℕ} (protocolRevision : ℤ) (file : SharedFile uFileSize) : ℕ :=
  match sharedTree protocolRevision file with
  | some _ => blockSize * ((chosen uFileSize).getD (1, 53)).1
  | none => if protocolRevision ≠ 0 ∧ uFileSize ≤ 8000 * crumbSize then crumbSize else partSize

/-- The blocks that are joined for a byte are verified. -/
def BlocksVerified (statusMap : List Bool) (m x : ℕ) : Prop :=
  ∀ k < statusMap.length, k / 53 = x / partSize → k % 53 / m = x % partSize / (blockSize * m) →
    statusMap.getD k false = true

/-- All that was hashed of the unit of a byte is verified: the joined blocks, or its part. -/
def UnitVerified {uFileSize : ℕ} (protocolRevision : ℤ) (file : SharedFile uFileSize) (x : ℕ) : Prop :=
  match sharedTree protocolRevision file with
  | some tree => BlocksVerified tree.getStatusMap ((chosen uFileSize).getD (1, 53)).1 x
  | none => file.pHashSet.getStatusMap.getD (x / partSize) false = true

/-- The number of bits is sent as it is, the receiver takes exactly the packet, finds the size of
a unit, and makes exactly the bytes of verified units available. -/
structure Carried {uFileSize : ℕ} (protocolRevision : ℤ) (file : SharedFile uFileSize)
    (parts : Option (CRangeMap (BitVec 16))) : Prop where
  /-- The number of bits fits into 16 bits. -/
  fits : file.isComplete = false → (sentBits protocolRevision file).length < 2 ^ 16
  /-- The packet is read. -/
  reads : ∃ bits uSubChunkSize,
    Reads (readFileStatus protocolRevision uFileSize) (writeFileStatus protocolRevision file) (bits, uSubChunkSize) ∧
    (uSubChunkSize ≠ 0 → uSubChunkSize = unitSize protocolRevision file) ∧
    ∀ x < uFileSize,
      isAvailable (stateAt shareMapOps (partsAvailable uFileSize parts bits partSize uSubChunkSize) x) = true ↔
        file.isComplete = true ∨ UnitVerified protocolRevision file x

/-- The blocks of a tree are no more than can be joined into 8000 bits, and in a file with a
part that is not whole the first block is like the second one, or was announced before. -/
def TreeCarried {uFileSize : ℕ} (protocolRevision : ℤ) (file : SharedFile uFileSize)
    (parts : Option (CRangeMap (BitVec 16))) : Prop :=
  file.isComplete = false → ∀ tree ∈ sharedTree protocolRevision file, uFileSize ≤ 4000 * partSize ∧
      (uFileSize < partSize → blockSize < uFileSize →
        tree.getStatusMap.getD 0 false ≠ tree.getStatusMap.getD 1 false → ∀ x < blockSize,
          isAvailable (stateAt shareMapOps (parts.getD (CRangeMap.create shareMapOps uFileSize)) x) =
            tree.getStatusMap.getD 0 false)

section Layout

/-- The bits decide which bytes are available, unless the range of the first one ends past the
file and its block was something else before. -/
theorem fromBitArray_bytes_iff (L : BitLayout) {bits : List Bool} (hlen : bits.length = L.bitCount)
    {map : CRangeMap (BitVec 16)} (h : Canonical shareMapOps L.size map) {uState : BitVec 16}
    (ha : isAvailable uState = true) : (∀ x < L.size, isAvailable (stateAt shareMapOps
        (fromBitArray map bits L.partSize L.blockSize uState []).map x) = bitAt L bits x) ↔
      (LongFirstRun L bits → L.size < L.partSize → ∀ x < L.blockSize,
        isAvailable (stateAt shareMapOps map x) = bits.getD 0 false) := by
  have hstate : uState ≠ 0 := by
    rintro rfl
    exact absurd ha (by decide)
  by_cases hlong : LongFirstRun L bits
  · have hf := longRunFacts L hlen h ha hstate hlong
    have hlt := hf.block_lt
    constructor
    · intro hbytes _ hpart x hx
      have hbyte := hbytes x (by omega)
      rwa [hf.low x hx, if_neg (by omega), hf.first x hx] at hbyte
    · intro hfirst x hx
      rcases Nat.lt_or_ge x L.blockSize with hlow | hhigh
      · rw [hf.low x hlow, hf.first x hlow]
        split_ifs with hpart
        · exact isAvailable_applyBit ha _ _
        · exact hfirst hlong (by omega) x hlow
      · exact hf.high x hhigh hx
  · refine iff_of_true (fun x hx => ?_) fun hyes => absurd hyes hlong
    rw [(fromBitArray_progress L hlen h hstate hlong).state x, if_pos ⟨Nat.zero_le x, hx⟩]
    exact isAvailable_applyBit ha _ _

end Layout

section Packets

/-- Bits that were written. -/
theorem reads_bits (bits : List Bool) :
    Reads (readBits bits.length) ((bits2Bytes bits true).map UInt8.ofBitVec) bits := by
  have hbytes := reads_bytes ((bits2Bytes bits true).map UInt8.ofBitVec)
  have hlength : ((bits2Bytes bits true).map UInt8.ofBitVec).length = divUp bits.length 8 := by
    rw [List.length_map, bits2Bytes, List.length_map, List.length_range]
  rw [hlength] at hbytes
  have hread := reads_bind_pure (f := fun bytes : List UInt8 =>
    bytes2Bits (bytes.map UInt8.toBitVec) bits.length true) hbytes
  have hback : ((bits2Bytes bits true).map UInt8.ofBitVec).map UInt8.toBitVec = bits2Bytes bits true := by
    rw [List.map_map]
    exact List.map_id _
  rwa [hback, bytes2Bits_bits2Bytes] at hread

theorem reads_bit (bit : Bool) :
    Reads (readNumber 1) ((bits2Bytes [bit] true).map UInt8.ofBitVec) (if bit then 1 else 0) := by
  cases bit with
  | false => exact reads_number (k := 0) (by decide)
  | true => exact reads_number (k := 1) (by decide)

variable {bits : List Bool}

theorem reads_writeBits {β : Type} (hfits : bits.length < 2 ^ 16) {f : ℕ → Reader β} {v : β}
    (hf : Reads (f bits.length) ((bits2Bytes bits true).map UInt8.ofBitVec) v) :
    Reads (readNumber 2 >>= f) (writeBits bits) v := by
  unfold writeBits
  rw [Nat.mod_eq_of_lt hfits]
  exact reads_bind (reads_number hfits) hf

theorem reads_complete (protocolRevision : ℤ) (uFileSize : ℕ) :
    Reads (readFileStatus protocolRevision uFileSize) (littleEndian 2 0)
      (List.replicate (partCount uFileSize) true, 0) := by
  have hzero := reads_number (n := 2) (k := 0) (by decide)
  unfold readFileStatus readRevision readParts
  split_ifs
  all_goals
    have hread := reads_bind (f := fun _ : ℕ => pure (List.replicate (partCount uFileSize) true, 0)) hzero
      (reads_pure (List.replicate (partCount uFileSize) true, 0))
    exact hread

theorem reads_one {uFileSize : ℕ} (bit : Bool) :
    Reads (readRevision uFileSize) (writeBits [bit]) (List.replicate (partCount uFileSize) bit, 0) := by
  refine reads_writeBits (by rw [List.length_singleton]; decide) ?_
  have hread := reads_bind_pure (f := fun byte : ℕ =>
    (List.replicate (partCount uFileSize) (decide (byte ≠ 0)), 0)) (reads_bit bit)
  cases bit with
  | false => exact hread
  | true => exact hread

theorem reads_several {uFileSize uSubChunkSize uSubChunkCount : ℕ}
    (htwo : 2 ≤ bits.length) (hfits : bits.length < 2 ^ 16)
    (hsub : subChunk uFileSize bits.length = some (uSubChunkSize, uSubChunkCount))
    (hcount : bits.length = uSubChunkCount * (uFileSize / partSize) + divUp (uFileSize % partSize) uSubChunkSize) :
    Reads (readRevision uFileSize) (writeBits bits) (bits, uSubChunkSize) := by
  refine reads_writeBits hfits ?_
  rw [if_neg (by omega), if_neg (by omega), readSubChunks, hsub]
  dsimp only
  rw [if_neg (not_not.mpr hcount)]
  exact reads_bind_pure (reads_bits bits)

theorem reads_parts (uFileSize : ℕ) (hpos : 0 < bits.length) (hfits : bits.length < 2 ^ 16) :
    Reads (readParts uFileSize) (writeBits bits) (bits.take (partCount uFileSize), 0) := by
  refine reads_writeBits hfits ?_
  rw [if_neg hpos.ne']
  exact reads_bind_pure (f := fun bits : List Bool => (bits.take (partCount uFileSize), 0)) (reads_bits bits)

end Packets

section Units

variable {uFileSize : ℕ}

theorem divUp_parts (size : ℕ) {part chunk n : ℕ} (hchunk : 0 < chunk) (hpart : part = chunk * n) :
    divUp size chunk = n * (size / part) + divUp (size % part) chunk := by
  have hdm := Nat.div_add_mod size part
  unfold divUp
  conv_lhs => rw [← hdm, hpart, Nat.mul_assoc, ← hpart, Nat.add_assoc, Nat.add_sub_assoc (by omega)]
  rw [Nat.mul_add_div hchunk]

theorem partCount_eq (uFileSize : ℕ) :
    partCount uFileSize = 1 * (uFileSize / partSize) + divUp (uFileSize % partSize) partSize :=
  divUp_parts uFileSize (by decide) (by decide)

theorem crumbCount_eq (uFileSize : ℕ) :
    divUp uFileSize crumbSize = 20 * (uFileSize / partSize) + divUp (uFileSize % partSize) crumbSize :=
  divUp_parts uFileSize (by decide) (by decide)

theorem find?_of_imp {α : Type*} {p q : α → Bool} {l : List α} {a : α} (h : l.find? p = some a)
    (hq : q a = true) (himp : ∀ b, q b = true → p b = true) : l.find? q = some a := by
  obtain ⟨-, front, back, hl, hfront⟩ := List.find?_eq_some_iff_append.mp h
  refine List.find?_eq_some_iff_append.mpr ⟨hq, front, back, hl, fun b hb => ?_⟩
  rw [Bool.not_eq_true']
  refine Bool.eq_false_iff.mpr fun hyes => ?_
  have hno := hfront b hb
  rw [himp b hyes] at hno
  exact Bool.false_ne_true hno

/-- What is known of the blocks that are joined. -/
structure Chosen (uFileSize : ℕ) (g : ℕ × ℕ) : Prop where
  /-- A choice of the table. -/
  mem : g ∈ granularities
  /-- There are no more than 8000 bits. -/
  le : totalBits uFileSize g ≤ 8000
  /-- Blocks are only joined where there would be more. -/
  first : g = (1, 53) ∨ 8000 < totalBits uFileSize (1, 53)

variable {g : ℕ × ℕ}

theorem chosen_spec (h : chosen uFileSize = some g) : Chosen uFileSize g := by
  refine ⟨List.mem_of_find?_eq_some h, of_decide_eq_true (List.find?_some h :), ?_⟩
  by_cases hone : totalBits uFileSize (1, 53) ≤ 8000
  · left
    have hfind : chosen uFileSize = some (1, 53) := List.find?_cons_of_pos (decide_eq_true hone)
    rw [hfind] at h
    exact (Option.some.inj h).symm
  · exact Or.inr (not_le.mp hone)

theorem granularity_spec (h : g ∈ granularities) :
    0 < g.1 ∧ blockCountOf partSize (blockSize * g.1) = g.2 ∧ divUp partSize (blockSize * g.1) = g.2 := by
  revert g
  decide

/-- The number of bits fits to no other chunks that the receiver tries before. -/
theorem totalBits_ne (h : Chosen uFileSize g) (htwo : 2 ≤ totalBits uFileSize g) :
    totalBits uFileSize g ≠ partCount uFileSize ∧ totalBits uFileSize g ≠ divUp uFileSize crumbSize := by
  obtain ⟨hmem, -, hfirst⟩ := h
  have hr : uFileSize % partSize < 9728000 := Nat.mod_lt _ (by decide)
  have hpart : divUp (uFileSize % partSize) partSize ≤ 1 :=
    (divUp_le_iff (by decide)).mpr (by rw [Nat.one_mul]; exact hr.le)
  have hcrumb : divUp (uFileSize % partSize) crumbSize ≤ 20 := (divUp_le_iff (by decide)).mpr hr.le
  have hcrumbs : divUp (uFileSize % partSize) crumbSize * 486400 < uFileSize % partSize + 486400 :=
    divUp_mul_lt _ (by decide)
  have hblocks : uFileSize % partSize ≤ divUp (uFileSize % partSize) (blockSize * 1) * 184320 :=
    le_divUp_mul _ (by decide)
  have hblock : ∀ m, 0 < m → divUp (uFileSize % partSize) (blockSize * m) ≤ 53 := by
    intro m hm
    have hle : blockSize * 1 ≤ blockSize * m := Nat.mul_le_mul_left _ hm
    have hmul := Nat.mul_le_mul_left 53 hle
    exact (divUp_le_iff (Nat.mul_pos (by decide) hm)).mpr (hr.le.trans (le_trans (by decide) hmul))
  rw [partCount_eq, crumbCount_eq]
  unfold totalBits at *
  generalize uFileSize / partSize = w at *
  generalize uFileSize % partSize = r at *
  rcases hfirst with rfl | hmany
  · dsimp only at *
    generalize divUp r (blockSize * 1) = b at *
    constructor <;> omega
  · -- blocks are joined from 150 whole parts on
    have hwhole : 150 ≤ w := by
      have hle := hblock 1 Nat.one_pos
      dsimp only at hmany
      omega
    have hle := hblock g.1 (granularity_spec hmem).1
    generalize divUp r (blockSize * g.1) = b at *
    have hcases : ∀ g ∈ granularities, g.2 = 53 ∨ g.2 = 27 ∨ g.2 = 14 ∨ g.2 = 7 ∨ g.2 = 4 ∨ g.2 = 2 := by
      decide
    rcases hcases g hmem with h | h | h | h | h | h <;> rw [h] <;> constructor <;> omega

theorem totalBits_one (uFileSize : ℕ) : totalBits uFileSize (1, 53) = blockCount uFileSize := by
  unfold totalBits blockCount
  dsimp only
  rw [Nat.mul_one]

theorem subChunk_totalBits (h : chosen uFileSize = some g) (htwo : 2 ≤ totalBits uFileSize g) :
    subChunk uFileSize (totalBits uFileSize g) = some (blockSize * g.1, g.2) := by
  have hspec := chosen_spec h
  obtain ⟨hparts, hcrumbs⟩ := totalBits_ne hspec htwo
  have hfind : granularities.find? (fun g' => totalBits uFileSize g = totalBits uFileSize g') = some g := by
    refine find?_of_imp h (decide_eq_true rfl) fun g' hg' => decide_eq_true ?_
    rw [← of_decide_eq_true hg']
    exact hspec.le
  rw [subChunk, if_neg hparts, if_neg hcrumbs, hfind]
  rfl

/-- Blocks can be joined into 8000 bits up to 4000 whole parts. -/
theorem chosen_eq_none_iff : chosen uFileSize = none ↔ 4000 * partSize < uFileSize := by
  have hdm := Nat.div_add_mod uFileSize partSize
  have hr : uFileSize % partSize < 9728000 := Nat.mod_lt _ (by decide)
  have hlast : totalBits uFileSize (32, 2) ≤ 8000 ↔ uFileSize ≤ 4000 * partSize := by
    have hle : divUp (uFileSize % partSize) (blockSize * 32) ≤ 2 :=
      (divUp_le_iff (by decide)).mpr (hr.le.trans (by decide))
    have hreach : uFileSize % partSize ≤ divUp (uFileSize % partSize) (blockSize * 32) * 5898240 :=
      le_divUp_mul _ (by decide)
    have hstart : divUp (uFileSize % partSize) (blockSize * 32) * 5898240 < uFileSize % partSize + 5898240 :=
      divUp_mul_lt _ (by decide)
    change uFileSize / partSize * 2 + divUp (uFileSize % partSize) (blockSize * 32) ≤ 8000 ↔ _
    generalize divUp (uFileSize % partSize) (blockSize * 32) = b at *
    generalize uFileSize / partSize = w at *
    generalize uFileSize % partSize = r at *
    change 9728000 * w + r = uFileSize at hdm
    change w * 2 + b ≤ 8000 ↔ uFileSize ≤ 38912000000
    omega
  rw [← not_le, ← hlast, chosen, List.find?_eq_none]
  constructor
  · intro h hle
    exact h (32, 2) (by decide) (decide_eq_true hle)
  · intro h g hg hyes
    refine h (le_trans ?_ (of_decide_eq_true hyes))
    -- joining more blocks takes fewer bits
    have hmore : ∀ g ∈ granularities, 2 ≤ g.2 ∧ 0 < g.1 ∧ g.1 ≤ 32 := by decide
    obtain ⟨htwo, hpos, hle⟩ := hmore g hg
    have hwhole : uFileSize / partSize * 2 ≤ uFileSize / partSize * g.2 := Nat.mul_le_mul_left _ htwo
    have hlast : divUp (uFileSize % partSize) (blockSize * 32) ≤ divUp (uFileSize % partSize) (blockSize * g.1) := by
      have hblock : 0 < blockSize * g.1 := Nat.mul_pos (by decide) hpos
      refine (divUp_le_iff (by decide)).mpr ((le_divUp_mul _ hblock).trans ?_)
      exact Nat.mul_le_mul_left _ (Nat.mul_le_mul_left _ hle)
    exact Nat.add_le_add hwhole hlast

/-- The layout of chunks of some size, counted in each part. -/
def chunkLayout (hsize : 0 < uFileSize) (hlimit : uFileSize ≤ 256 * 2 ^ 30) {chunk n : ℕ}
    (hcount : divUp partSize chunk = n) (hn : n < 2 ^ 16) : BitLayout where
  size := uFileSize
  partSize := partSize
  blockSize := chunk
  size_pos := hsize
  partSize_pos := by decide
  fits := by
    change uFileSize + 9728000 ≤ 2 ^ 64
    omega
  count_lt _ := hcount ▸ hn

theorem index_lt (L : BitLayout) {x : ℕ} (hx : x < L.size) : L.index x < L.bitCount :=
  L.offset_strictMono.lt_iff_lt.mp ((L.offset_index x).1.trans_lt (hx.trans_le L.bitCount_spec.2))

/-- The numbers of bits of a layout, and the bit of a byte. -/
theorem chunkLayout_spec (hsize : 0 < uFileSize) (hlimit : uFileSize ≤ 256 * 2 ^ 30) {chunk n : ℕ}
    (hcount : divUp partSize chunk = n) (hn : n < 2 ^ 16) (hchunk : 0 < chunk) :
    (chunkLayout hsize hlimit hcount hn).blockCount = n ∧ (chunkLayout hsize hlimit hcount hn).bitCount =
        uFileSize / partSize * n + divUp (uFileSize % partSize) chunk ∧
      ∀ x, (chunkLayout hsize hlimit hcount hn).index x = x / partSize * n + x % partSize / chunk := by
  have hne : (chunkLayout hsize hlimit hcount hn).blockSize ≠ 0 := hchunk.ne'
  have hunit : (chunkLayout hsize hlimit hcount hn).unit = chunk := if_pos hne
  have hblocks : (chunkLayout hsize hlimit hcount hn).blockCount = n := by
    rw [BitLayout.blockCount_eq, hunit]
    exact hcount
  refine ⟨hblocks, ?_, fun x => ?_⟩
  · rw [BitLayout.bitCount_eq, hblocks, hunit]
    rfl
  · rw [BitLayout.index, hblocks, getBitMapIndex, if_pos hne]
    rfl

theorem granularity_lt (h : g ∈ granularities) : g.2 < 2 ^ 16 := by
  revert g
  decide

theorem treeBits_some (h : chosen uFileSize = some g) (statusMap : List Bool) :
    treeBits uFileSize statusMap = if g.1 = 1 then statusMap
      else (List.range (totalBits uFileSize g)).map (joinedBit statusMap g) := by
  rw [treeBits, h, joinedBits]

/-- The bits of a tree: one for the joined blocks of each byte. -/
theorem treeBits_spec (hsize : 0 < uFileSize) (hfits : uFileSize ≤ 256 * 2 ^ 30)
    (h : chosen uFileSize = some g) {statusMap : List Bool} (hlength : statusMap.length = blockCount uFileSize) :
    (treeBits uFileSize statusMap).length = totalBits uFileSize g ∧ ∀ x < uFileSize,
      (treeBits uFileSize statusMap).getD (x / partSize * g.2 + x % partSize / (blockSize * g.1)) false = true ↔
        BlocksVerified statusMap g.1 x := by
  have hmem := (chosen_spec h).mem
  obtain ⟨hpos, -, hcount⟩ := granularity_spec hmem
  have hplace : ∀ x < uFileSize, ∀ g' (hg' : g' ∈ granularities),
      x / partSize * g'.2 + x % partSize / (blockSize * g'.1) < totalBits uFileSize g' := by
    intro x hx g' hg'
    obtain ⟨hpos', -, hcount'⟩ := granularity_spec hg'
    obtain ⟨-, hbits, hindex⟩ := chunkLayout_spec hsize hfits hcount' (granularity_lt hg')
      (Nat.mul_pos (by decide : 0 < blockSize) hpos')
    change _ < uFileSize / partSize * g'.2 + divUp (uFileSize % partSize) (blockSize * g'.1)
    rw [← hbits, ← hindex]
    exact index_lt (chunkLayout hsize hfits hcount' (granularity_lt hg')) hx
  have hwhole : ∀ x < uFileSize, x / partSize * 53 < statusMap.length := by
    intro x hx
    rw [hlength, ← totalBits_one]
    exact (Nat.le_add_right _ _).trans_lt (hplace x hx (1, 53) (by decide))
  have hlt : ∀ x, x % partSize / (blockSize * g.1) < g.2 := by
    intro x
    have hchunk : 0 < blockSize * g.1 := Nat.mul_pos (by decide) hpos
    have hreach : partSize ≤ g.2 * (blockSize * g.1) := (divUp_le_iff hchunk).mp hcount.le
    have hmod : x % partSize < partSize := Nat.mod_lt x (by decide)
    rw [Nat.div_lt_iff_lt_mul hchunk]
    exact hmod.trans_le hreach
  rw [treeBits_some h]
  split_ifs with hjoin
  · have hfirst : ∀ g ∈ granularities, g.1 = 1 → g = (1, 53) := by decide
    obtain rfl := hfirst g hmem hjoin
    refine ⟨hlength.trans (totalBits_one uFileSize).symm, fun x hx => ?_⟩
    have hin := hplace x hx (1, 53) hmem
    have hsmall := hlt x
    rw [totalBits_one, ← hlength] at hin
    unfold BlocksVerified
    dsimp only at *
    generalize x % partSize / (blockSize * 1) = t at *
    generalize x / partSize = q at *
    constructor
    · intro hset k _ hpart hblock
      have hk : k = q * 53 + t := by omega
      rw [hk]
      exact hset
    · intro hall
      exact hall _ hin (by omega) (by omega)
  · refine ⟨by rw [List.length_map, List.length_range], fun x hx => ?_⟩
    have hin := hplace x hx g hmem
    have hsmall := hlt x
    have hpart := hwhole x hx
    rw [List.getD_eq_getElem _ _ (by rwa [List.length_map, List.length_range])]
    simp only [List.getElem_map, List.getElem_range]
    unfold BlocksVerified joinedBit
    generalize x % partSize / (blockSize * g.1) = t at *
    generalize x / partSize = q at *
    have hdiv : (q * g.2 + t) / g.2 = q := by
      rw [Nat.mul_comm, Nat.mul_add_div (by omega), Nat.div_eq_of_lt hsmall, Nat.add_zero]
    have hmod : (q * g.2 + t) % g.2 = t := by
      rw [Nat.mul_comm, Nat.mul_add_mod, Nat.mod_eq_of_lt hsmall]
    have hne : statusMap ≠ [] := by
      rintro rfl
      exact absurd hpart (Nat.not_lt_zero _)
    rw [hdiv, hmod]
    dsimp only
    rw [decide_eq_true hpart, Bool.true_and, testBits_iff hne]
    constructor
    · intro hall k hk hq ht
      obtain ⟨hle, hlt⟩ := (Nat.div_eq_iff hpos).mp ht
      exact hall k (by omega) (by omega)
    · intro hall k hle hlt
      exact hall k (by omega) (by omega) ((Nat.div_eq_iff hpos).mpr (by omega))

theorem part_lt {x : ℕ} (hx : x < uFileSize) : x / partSize < partCount uFileSize :=
  div_lt_divUp (by decide) hx

theorem length_getStatusMap {count : ℕ} (m : StatusMap count) : m.getStatusMap.length = count := by
  unfold StatusMap.getStatusMap
  split_ifs with hnone
  · exact List.length_replicate
  · exact m.length_bits.resolve_left hnone

theorem length_resize (bits : List Bool) (n : ℕ) : (resize bits n).length = n := by
  rw [resize, List.length_append, List.length_take, List.length_replicate]
  omega

theorem take_resize (bits : List Bool) (n : ℕ) (h : bits.length ≤ n) : (resize bits n).take bits.length = bits := by
  rw [resize, List.take_of_length_le h, List.take_left]

/-- A status of a hash set, tested as it is. -/
theorem testBits_getStatusMap {count : ℕ} (m : StatusMap count) (q : ℕ) :
    testBits m.bits q (q + 1) = m.getStatusMap.getD q false := by
  unfold StatusMap.getStatusMap
  split_ifs with hnone
  · rw [hnone]
    by_cases hq : q < count
    · rw [List.getD_replicate _ hq]
      rfl
    · rw [List.getD_eq_default _ _ (by rw [List.length_replicate]; omega)]
      rfl
  · refine Bool.eq_iff_iff.mpr ((testBits_iff hnone q (q + 1)).trans ⟨fun h => h q le_rfl (Nat.lt_succ_self q), ?_⟩)
    intro h i hle hlt
    rwa [show i = q by omega]

/-- The bit of a crumb is the status of its part. -/
theorem getD_crumbBits (file : SharedFile uFileSize) {i : ℕ} (hi : i < divUp uFileSize crumbSize) :
    (crumbBits uFileSize file.pHashSet.bits).getD i false = file.pHashSet.getStatusMap.getD (i / 20) false := by
  have hstart : crumbSize * i < uFileSize := by
    refine not_le.mp fun hge => absurd ((divUp_le_iff (by decide)).mpr ?_) (not_le.mpr hi)
    rwa [Nat.mul_comm]
  have hfirst : crumbSize * i / partSize = i / 20 := by
    change 486400 * i / 9728000 = i / 20
    omega
  have hlast : divUp (min (crumbSize * i + crumbSize) uFileSize) partSize = i / 20 + 1 := by
    refine le_antisymm ((divUp_le_iff (by decide)).mpr ?_) ?_
    · change min (486400 * i + 486400) uFileSize ≤ (i / 20 + 1) * 9728000
      omega
    · rw [← hfirst]
      exact div_lt_divUp (by decide) (lt_min (Nat.lt_add_of_pos_right (by decide)) hstart)
  unfold crumbBits
  rw [List.getD_eq_getElem _ _ (by rwa [List.length_map, List.length_range])]
  simp only [List.getElem_map, List.getElem_range]
  rw [getResult, hfirst, hlast, testBits_getStatusMap]

end Units

section Exchange

variable {uFileSize : ℕ} {protocolRevision : ℤ} {file : SharedFile uFileSize}
  {parts : Option (CRangeMap (BitVec 16))}

theorem unitVerified_part (h : sharedTree protocolRevision file = none) (x : ℕ) :
    UnitVerified protocolRevision file x ↔ file.pHashSet.getStatusMap.getD (x / partSize) false = true := by
  unfold UnitVerified
  rw [h]

variable {bits : List Bool}

/-- With the values that are read, only the bytes are left to compare. -/
theorem carried_iff {uSubChunkSize : ℕ}
    (hfits : file.isComplete = false → (sentBits protocolRevision file).length < 2 ^ 16)
    (hreads : Reads (readFileStatus protocolRevision uFileSize) (writeFileStatus protocolRevision file)
      (bits, uSubChunkSize))
    (hunit : uSubChunkSize ≠ 0 → uSubChunkSize = unitSize protocolRevision file) :
    Carried protocolRevision file parts ↔ ∀ x < uFileSize,
      isAvailable (stateAt shareMapOps (partsAvailable uFileSize parts bits partSize uSubChunkSize) x) = true ↔
        file.isComplete = true ∨ UnitVerified protocolRevision file x := by
  constructor
  · rintro ⟨-, bits', uSubChunkSize', hreads', -, hbytes⟩
    have hsame := (hreads []).symm.trans (hreads' [])
    simp only [Option.some.injEq, Prod.mk.injEq, and_true] at hsame
    obtain ⟨rfl, rfl⟩ := hsame
    exact hbytes
  · exact fun hbytes => ⟨hfits, bits, uSubChunkSize, hreads, hunit, hbytes⟩

theorem canonical_parts (hsize : 0 < uFileSize) (hparts : ∀ map ∈ parts, Canonical shareMapOps uFileSize map) :
    Canonical shareMapOps uFileSize (parts.getD (CRangeMap.create shareMapOps uFileSize)) := by
  cases parts with
  | none => exact canonical_create shareMapOps hsize
  | some map => exact hparts map rfl

theorem sentBits_revision (hrevision : protocolRevision ≠ 0) (hmissing : file.isComplete = false) :
    sentBits protocolRevision file = revisionBits protocolRevision file ∧
      writeFileStatus protocolRevision file = writeBits (revisionBits protocolRevision file) ∧
      readFileStatus protocolRevision uFileSize = readRevision uFileSize := by
  refine ⟨if_pos hrevision, ?_, if_pos hrevision⟩
  rw [writeFileStatus, if_neg (by rw [hmissing]; exact Bool.false_ne_true), if_pos hrevision]

theorem not_longFirstRun {L : BitLayout} (part : ℕ → Bool)
    (hunits : ∀ i < bits.length, bits.getD i false = part (i / L.blockCount)) : ¬LongFirstRun L bits := by
  rintro ⟨-, hcount, htwo, hne⟩
  refine hne ?_
  rw [hunits 0 (by omega), hunits 1 (by omega), Nat.zero_div, Nat.div_eq_of_lt (by omega)]

variable {tree : StatusMap (blockCount uFileSize)}

theorem revisionBits_tree (h : sharedTree protocolRevision file = some tree) :
    revisionBits protocolRevision file = treeBits uFileSize tree.getStatusMap := by
  unfold revisionBits
  change (match sharedTree protocolRevision file with | some tree => _ | none => _) = _
  rw [h]

theorem revision_ne_zero (h : sharedTree protocolRevision file = some tree) : protocolRevision ≠ 0 := by
  rintro rfl
  rw [sharedTree, if_neg (by decide)] at h
  cases h

variable (hsize : 0 < uFileSize) (hlimit : uFileSize ≤ 256 * 2 ^ 30)
  (hparts : ∀ map ∈ parts, Canonical shareMapOps uFileSize map)

include hsize hlimit hparts

theorem partsAvailable_parts (hlength : bits.length = partCount uFileSize) {x : ℕ} (hx : x < uFileSize) :
    isAvailable (stateAt shareMapOps (partsAvailable uFileSize parts bits partSize 0) x) =
      bits.getD (x / partSize) false := by
  have hplace : x / partSize < bits.length := by
    rw [hlength]
    exact part_lt hx
  have hne : bits ≠ [] := by
    rintro rfl
    exact absurd hplace (Nat.not_lt_zero _)
  have hstart : (bits.length - 1) * partSize < uFileSize := by
    have hlt := divUp_mul_lt uFileSize (by decide : 0 < partSize)
    change partCount uFileSize * partSize < _ at hlt
    rw [← hlength] at hlt
    rw [Nat.sub_mul]
    omega
  have hfits : uFileSize + 9728000 ≤ 2 ^ 64 := by omega
  have hbyte := (fromBitArray_parts hsize (by decide) hfits hne hstart (canonical_parts hsize hparts)
    isAvailable_flags).2 x hx
  rw [min_eq_left (Nat.le_sub_one_of_lt hplace)] at hbyte
  exact hbyte

theorem carried_complete (hcomplete : file.isComplete = true) : Carried protocolRevision file parts := by
  have hwrite : writeFileStatus protocolRevision file = littleEndian 2 0 := if_pos hcomplete
  refine (carried_iff (fun hno => by rw [hcomplete] at hno; cases hno)
    (by rw [hwrite]; exact reads_complete protocolRevision uFileSize) fun hne => absurd rfl hne).mpr
      fun x hx => iff_of_true ?_ (Or.inl hcomplete)
  rw [partsAvailable_parts hsize hlimit hparts List.length_replicate hx, List.getD_replicate _ (part_lt hx)]

/-- The bits of a peer without a revision of the protocol. -/
theorem carried_old (hrevision : protocolRevision = 0) (hmissing : file.isComplete = false) :
    Carried protocolRevision file parts := by
  subst hrevision
  have hmany : partCount uFileSize ≤ uFileSize / partSize + 1 := by
    have hdm := Nat.div_add_mod uFileSize partSize
    have hmod := Nat.mod_lt uFileSize (by decide : 0 < partSize)
    refine (divUp_le_iff (by decide)).mpr ?_
    rw [Nat.add_mul, Nat.one_mul, Nat.mul_comm]
    omega
  have hsent : sentBits 0 file = resize file.pHashSet.getStatusMap (uFileSize / partSize + 1) :=
    if_neg (not_not.mpr rfl)
  have hlength := length_resize file.pHashSet.getStatusMap (uFileSize / partSize + 1)
  have hfits : uFileSize / 9728000 + 1 < 2 ^ 16 := by omega
  have hwrite : writeFileStatus 0 file = writeBits (resize file.pHashSet.getStatusMap (uFileSize / partSize + 1)) := by
    rw [writeFileStatus, if_neg (by rw [hmissing]; exact Bool.false_ne_true), if_neg (not_not.mpr rfl)]
  have hreads := reads_parts uFileSize (by rw [hlength]; exact Nat.succ_pos _) (by rw [hlength]; exact hfits)
  rw [← hwrite] at hreads
  have htake : (resize file.pHashSet.getStatusMap (uFileSize / partSize + 1)).take (partCount uFileSize) =
      file.pHashSet.getStatusMap := by
    have htake := take_resize file.pHashSet.getStatusMap (uFileSize / partSize + 1) (by rwa [length_getStatusMap])
    rwa [length_getStatusMap] at htake
  rw [htake] at hreads
  have hread : readFileStatus 0 uFileSize = readParts uFileSize := if_neg (not_not.mpr rfl)
  rw [← hread] at hreads
  refine (carried_iff (fun _ => by rw [hsent, hlength]; exact hfits) hreads fun hne => absurd rfl hne).mpr
    fun x hx => ?_
  have hnone : sharedTree 0 file = none := if_neg (by decide)
  rw [partsAvailable_parts hsize hlimit hparts (length_getStatusMap _) hx, hmissing, unitVerified_part hnone]
  exact ⟨Or.inr, fun h => h.resolve_left Bool.false_ne_true⟩

/-- One bit for the whole file. -/
theorem carried_one (hrevision : protocolRevision ≠ 0) (hmissing : file.isComplete = false) {bit : Bool}
    (hbits : revisionBits protocolRevision file = [bit])
    (hunits : ∀ x < uFileSize, bit = true ↔ UnitVerified protocolRevision file x) :
    Carried protocolRevision file parts := by
  obtain ⟨hsent, hwrite, hread⟩ := sentBits_revision hrevision hmissing
  rw [hbits] at hsent hwrite
  refine (carried_iff (fun _ => by rw [hsent, List.length_singleton]; decide)
    (by rw [hwrite, hread]; exact reads_one bit) fun hne => absurd rfl hne).mpr fun x hx => ?_
  rw [partsAvailable_parts hsize hlimit hparts List.length_replicate hx,
    List.getD_replicate _ (part_lt hx), hunits x hx, hmissing]
  exact ⟨Or.inr, fun h => h.resolve_left Bool.false_ne_true⟩

omit hlimit in
/-- Several bits, for chunks of the size that the receiver finds. -/
theorem carried_several (hrevision : protocolRevision ≠ 0) (hmissing : file.isComplete = false)
    {bits : List Bool} (hbits : revisionBits protocolRevision file = bits) (htwo : 2 ≤ bits.length)
    (hfits : bits.length < 2 ^ 16) {L : BitLayout} (hfile : L.size = uFileSize) (hpart : L.partSize = partSize)
    (hchunk : L.blockSize ≠ 0) (hlength : bits.length = L.bitCount)
    (hsub : subChunk uFileSize bits.length = some (L.blockSize, L.blockCount))
    (hunit : L.blockSize = unitSize protocolRevision file)
    (hunits : ∀ x < uFileSize, bits.getD (L.index x) false = true ↔ UnitVerified protocolRevision file x) :
    Carried protocolRevision file parts ↔ (LongFirstRun L bits → uFileSize < partSize → ∀ x < L.blockSize,
      isAvailable (stateAt shareMapOps (parts.getD (CRangeMap.create shareMapOps uFileSize)) x) =
        bits.getD 0 false) := by
  obtain ⟨hsent, hwrite, hread⟩ := sentBits_revision hrevision hmissing
  rw [hbits] at hsent hwrite
  have hcount : bits.length = L.blockCount * (uFileSize / partSize) + divUp (uFileSize % partSize) L.blockSize := by
    rw [hlength, BitLayout.bitCount_eq, hfile, hpart, Nat.mul_comm, BitLayout.unit, if_pos hchunk]
  have hcanonical := canonical_parts hsize hparts
  rw [carried_iff (fun _ => by rw [hsent]; exact hfits)
    (by rw [hwrite, hread]; exact reads_several htwo hfits hsub hcount) fun _ => hunit]
  rw [← hfile] at hcanonical
  have hbytes := fromBitArray_bytes_iff L hlength hcanonical isAvailable_flags
  rw [hpart, hfile] at hbytes
  rw [← hbytes]
  refine forall₂_congr fun x hx => ?_
  rw [hmissing, ← hunits x hx]
  unfold partsAvailable
  exact ⟨fun h => Bool.eq_iff_iff.mpr (h.trans ⟨fun h' => h'.resolve_left Bool.false_ne_true, Or.inr⟩),
    fun h => by rw [h]; exact ⟨Or.inr, fun h' => h'.resolve_left Bool.false_ne_true⟩⟩

section

variable (hrevision : protocolRevision ≠ 0) (hmissing : file.isComplete = false)
  (hnone : sharedTree protocolRevision file = none)

include hrevision hmissing hnone

/-- Bits for chunks that divide a part, with the status of their part. -/
theorem carried_chunks {chunk n : ℕ} (hchunk : 0 < chunk)
    (hpart : partSize = chunk * n) (hcount : divUp partSize chunk = n) (hn : n < 2 ^ 16)
    {bits : List Bool} (hbits : revisionBits protocolRevision file = bits)
    (hlength : bits.length = divUp uFileSize chunk)
    (hstatus : ∀ i < divUp uFileSize chunk, bits.getD i false = file.pHashSet.getStatusMap.getD (i / n) false)
    (hfits : divUp uFileSize chunk < 2 ^ 16)
    (hsub : 2 ≤ divUp uFileSize chunk → subChunk uFileSize (divUp uFileSize chunk) = some (chunk, n))
    (hunit : chunk = unitSize protocolRevision file) : Carried protocolRevision file parts := by
  have hplace : ∀ x < uFileSize, x / chunk < divUp uFileSize chunk := fun x hx => div_lt_divUp hchunk hx
  have hindex : ∀ x, x / partSize = x / chunk / n := fun x => by rw [hpart, Nat.div_div_eq_div_mul]
  have hunits : ∀ x < uFileSize, bits.getD (x / chunk) false = true ↔ UnitVerified protocolRevision file x := by
    intro x hx
    rw [unitVerified_part hnone, hstatus _ (hplace x hx), hindex]
  by_cases hone : divUp uFileSize chunk = 1
  · obtain ⟨bit, hbit⟩ := List.length_eq_one_iff.mp (hlength.trans hone)
    rw [hbit] at hbits hunits
    refine carried_one hsize hlimit hparts hrevision hmissing hbits fun x hx => ?_
    have hx' := hunits x hx
    have hfirst := hplace x hx
    rw [hone, Nat.lt_one_iff] at hfirst
    rw [hfirst] at hx'
    exact hx'
  · have hpos := (Nat.zero_le _).trans_lt (hplace 0 hsize)
    obtain ⟨hblocks, hmany, hplaces⟩ := chunkLayout_spec hsize hlimit hcount hn hchunk
    have hsame : ∀ x, (chunkLayout hsize hlimit hcount hn).index x = x / chunk := by
      intro x
      have hdm := Nat.div_add_mod x partSize
      rw [hplaces]
      conv_rhs => rw [← hdm, hpart, Nat.mul_assoc, ← hpart, Nat.mul_add_div hchunk]
      rw [Nat.mul_comm n]
    refine (carried_several hsize hparts hrevision hmissing hbits (L := chunkLayout hsize hlimit hcount hn)
      (by omega) (by omega) rfl rfl hchunk.ne' ?_ ?_ hunit fun x hx => ?_).mpr fun hlong => absurd hlong ?_
    · rw [hlength, hmany, divUp_parts uFileSize hchunk hpart, Nat.mul_comm]
    · rw [hlength, hblocks]
      exact hsub (by omega)
    · rw [hsame]
      exact hunits x hx
    · refine not_longFirstRun (fun q => file.pHashSet.getStatusMap.getD q false) fun i hi => ?_
      rw [hblocks, hstatus i (hlength ▸ hi)]

/-- The bits of crumbs. -/
theorem carried_crumbs (hcrumbs : uFileSize ≤ 8000 * crumbSize) : Carried protocolRevision file parts := by
  have hbits : revisionBits protocolRevision file = crumbBits uFileSize file.pHashSet.bits := by
    unfold revisionBits
    change (match sharedTree protocolRevision file with | some tree => _ | none => _) = _
    rw [hnone]
    exact if_pos hcrumbs
  have hmany : divUp uFileSize crumbSize ≤ 8000 := (divUp_le_iff (by decide)).mpr hcrumbs
  refine carried_chunks hsize hlimit hparts hrevision hmissing hnone (n := 20) (by decide) (by decide)
    (by decide) (by decide) hbits (by rw [crumbBits, List.length_map, List.length_range])
    (fun i hi => getD_crumbBits file hi) (by omega) (fun htwo => ?_) ?_
  · have hne : divUp uFileSize crumbSize ≠ partCount uFileSize := by
      have hle : divUp (uFileSize % partSize) partSize ≤ 1 :=
        (divUp_le_iff (by decide)).mpr (by rw [Nat.one_mul]; exact (Nat.mod_lt _ (by decide)).le)
      have hcrumb := crumbCount_eq uFileSize
      rw [partCount_eq]
      omega
    rw [subChunk, if_neg hne, if_pos rfl]
    rfl
  · unfold unitSize
    rw [hnone]
    exact (if_pos ⟨hrevision, hcrumbs⟩).symm

/-- The bits of parts. -/
theorem carried_parts (hcrumbs : ¬uFileSize ≤ 8000 * crumbSize) : Carried protocolRevision file parts := by
  have hbits : revisionBits protocolRevision file = resize file.pHashSet.getStatusMap (partCount uFileSize) := by
    unfold revisionBits
    change (match sharedTree protocolRevision file with | some tree => _ | none => _) = _
    rw [hnone]
    exact if_neg hcrumbs
  have hsame : resize file.pHashSet.getStatusMap (partCount uFileSize) = file.pHashSet.getStatusMap := by
    have htake := take_resize file.pHashSet.getStatusMap (partCount uFileSize) (by rw [length_getStatusMap])
    rwa [length_getStatusMap, List.take_of_length_le (by rw [length_resize])] at htake
  rw [hsame] at hbits
  refine carried_chunks hsize hlimit hparts hrevision hmissing hnone (n := 1) (by decide)
    (Nat.mul_one partSize).symm (by decide) (by decide) hbits (length_getStatusMap _)
    (fun i _ => by rw [Nat.div_one]) ?_ (fun _ => if_pos rfl) ?_
  · have hmany : divUp uFileSize partSize ≤ 28257 :=
      (divUp_le_iff (by decide)).mpr (hlimit.trans (by decide))
    omega
  · unfold unitSize
    rw [hnone]
    exact (if_neg fun hyes => hcrumbs hyes.2).symm

end

/-- The bits of a tree with no more blocks than can be joined. -/
theorem carried_tree (hmissing : file.isComplete = false)
    (htree : sharedTree protocolRevision file = some tree) {g : ℕ × ℕ} (hg : chosen uFileSize = some g) :
    Carried protocolRevision file parts ↔ (uFileSize < partSize → blockSize < uFileSize →
        tree.getStatusMap.getD 0 false ≠ tree.getStatusMap.getD 1 false → ∀ x < blockSize,
          isAvailable (stateAt shareMapOps (parts.getD (CRangeMap.create shareMapOps uFileSize)) x) =
            tree.getStatusMap.getD 0 false) := by
  have hspec := chosen_spec hg
  obtain ⟨hpos, -, hcount⟩ := granularity_spec hspec.mem
  have hchunk : 0 < blockSize * g.1 := Nat.mul_pos (by decide) hpos
  have hlt := granularity_lt hspec.mem
  obtain ⟨hlength, hset⟩ := treeBits_spec hsize hlimit hg (length_getStatusMap tree)
  obtain ⟨hblocks, hmany, hindex⟩ := chunkLayout_spec hsize hlimit hcount hlt hchunk
  have hbits := revisionBits_tree htree
  have hrevision := revision_ne_zero htree
  have hle := hspec.le
  have hunits : ∀ x < uFileSize, (treeBits uFileSize tree.getStatusMap).getD
      (x / partSize * g.2 + x % partSize / (blockSize * g.1)) false = true ↔
        UnitVerified protocolRevision file x := by
    intro x hx
    rw [hset x hx]
    unfold UnitVerified
    rw [htree, hg]
    rfl
  -- a file with a part that is not whole has a bit for each block
  have hsmall : uFileSize < partSize → g = (1, 53) ∧ treeBits uFileSize tree.getStatusMap = tree.getStatusMap ∧
      totalBits uFileSize g = divUp uFileSize blockSize := by
    intro hpart
    have hzero : uFileSize / partSize = 0 := Nat.div_eq_of_lt hpart
    have hmod : uFileSize % partSize = uFileSize := Nat.mod_eq_of_lt hpart
    have hfew : divUp uFileSize blockSize ≤ 53 := by
      refine (divUp_le_iff (by decide)).mpr (hpart.le.trans (by decide))
    have hone : totalBits uFileSize (1, 53) = divUp uFileSize blockSize := by
      rw [totalBits, hzero, hmod, Nat.zero_mul, Nat.zero_add]
      rfl
    obtain rfl : g = (1, 53) := hspec.first.resolve_right (by omega)
    refine ⟨rfl, ?_, hone⟩
    rw [treeBits_some hg]
    exact if_pos rfl
  have hplace : ∀ x < uFileSize, x / partSize * g.2 + x % partSize / (blockSize * g.1) < totalBits uFileSize g := by
    intro x hx
    rw [← hindex, totalBits, ← hmany]
    exact index_lt (chunkLayout hsize hlimit hcount hlt) hx
  by_cases hone : totalBits uFileSize g = 1
  · obtain ⟨bit, hbit⟩ := List.length_eq_one_iff.mp (hlength.trans hone)
    refine iff_of_true ?_ fun hpart hblock => ?_
    · rw [hbit] at hbits hunits
      refine carried_one hsize hlimit hparts hrevision hmissing hbits fun x hx => ?_
      have hx' := hunits x hx
      have hfirst := hplace x hx
      rw [hone, Nat.lt_one_iff] at hfirst
      rw [hfirst] at hx'
      exact hx'
    · have hle := (divUp_le_iff (by decide)).mp ((hsmall hpart).2.2.symm.trans hone).le
      rw [Nat.one_mul] at hle
      exact absurd hblock (not_lt.mpr hle)
  · have hbit := (Nat.zero_le _).trans_lt (hplace 0 hsize)
    have hmore : 2 ≤ totalBits uFileSize g := by omega
    have hseveral := carried_several hsize hparts hrevision hmissing hbits
      (L := chunkLayout hsize hlimit hcount hlt) (by omega) (by omega) rfl rfl hchunk.ne'
      (by rw [hlength, hmany]; rfl) (by rw [hlength, hblocks]; exact subChunk_totalBits hg hmore)
      (by unfold unitSize; rw [htree, hg]; rfl) (fun x hx => by rw [hindex]; exact hunits x hx)
    rw [hseveral]
    constructor
    · intro h hpart _ hne
      obtain ⟨rfl, hsame, -⟩ := hsmall hpart
      rw [hsame] at h hlength
      exact h ⟨hchunk.ne', by rw [hblocks]; decide, by omega, hne⟩ hpart
    · rintro h ⟨-, -, -, hne⟩ hpart
      obtain ⟨rfl, hsame, hfew⟩ := hsmall hpart
      rw [hsame] at hne ⊢
      refine h hpart (not_le.mp fun hle => ?_) hne
      have hle' := (divUp_le_iff (by decide : 0 < blockSize)).mpr (hle.trans_eq (Nat.one_mul _).symm)
      omega

omit hsize hlimit hparts in
/-- The number of blocks of a larger file does not fit. -/
theorem not_carried_large (hmissing : file.isComplete = false) {tree : StatusMap (blockCount uFileSize)}
    (htree : sharedTree protocolRevision file = some tree) (hlarge : 4000 * partSize < uFileSize) :
    ¬Carried protocolRevision file parts := by
  intro h
  have hfits := h.fits hmissing
  have hmany : 4000 * 53 ≤ blockCount uFileSize := by
    have hwhole := Nat.div_le_div_right (c := partSize) hlarge.le
    rw [Nat.mul_div_cancel _ (by decide : 0 < partSize)] at hwhole
    exact (Nat.mul_le_mul_right 53 hwhole).trans (Nat.le_add_right _ _)
  have hbits : treeBits uFileSize tree.getStatusMap = tree.getStatusMap := by
    rw [treeBits, chosen_eq_none_iff.mpr hlarge, joinedBits]
  rw [(sentBits_revision (revision_ne_zero htree) hmissing).1, revisionBits_tree htree, hbits,
    length_getStatusMap] at hfits
  omega

/-- The status of a file is carried to a peer exactly, if and only if the blocks of its tree are
no more than can be joined, and the first one of a small file is like the second one or was
announced before. -/
theorem carried_iff_treeCarried : Carried protocolRevision file parts ↔ TreeCarried protocolRevision file parts := by
  cases hcomplete : file.isComplete with
  | true =>
    refine iff_of_true (carried_complete hsize hlimit hparts hcomplete) fun hmissing => ?_
    rw [hcomplete] at hmissing
    cases hmissing
  | false =>
    cases htree : sharedTree protocolRevision file with
    | none =>
      have hright : TreeCarried protocolRevision file parts := by
        intro _ tree hmem
        rw [htree] at hmem
        cases hmem
      refine iff_of_true ?_ hright
      by_cases hrevision : protocolRevision = 0
      · exact carried_old hsize hlimit hparts hrevision hcomplete
      by_cases hcrumbs : uFileSize ≤ 8000 * crumbSize
      · exact carried_crumbs hsize hlimit hparts hrevision hcomplete htree hcrumbs
      · exact carried_parts hsize hlimit hparts hrevision hcomplete htree hcrumbs
    | some tree =>
      have hright : TreeCarried protocolRevision file parts ↔ uFileSize ≤ 4000 * partSize ∧ _ :=
        ⟨fun h => h hcomplete tree htree, fun h _ tree' hmem => by
          obtain rfl := Option.some.inj (htree.symm.trans hmem)
          exact h⟩
      rw [hright]
      by_cases hlarge : 4000 * partSize < uFileSize
      · exact iff_of_false (not_carried_large hcomplete htree hlarge) fun h => absurd hlarge (not_lt.mpr h.1)
      · have hsome : chosen uFileSize ≠ none := fun hnone => hlarge (chosen_eq_none_iff.mp hnone)
        obtain ⟨g, hg⟩ := Option.ne_none_iff_exists'.mp hsome
        rw [carried_tree hsize hlimit hparts hcomplete htree hg]
        exact (and_iff_right (not_lt.mp hlarge)).symm

end Exchange

/-- A file of a megabyte, the first of its blocks is verified. -/
def exampleFile : SharedFile 1000000 where
  isComplete := false
  pHashSet := ⟨[], Or.inl rfl⟩
  pHashTree := some ⟨[true, false, false, false, false, false], Or.inr rfl⟩

/-- A file of forty gigabytes, nothing of which is verified. -/
def exampleLarge : SharedFile 40000000000 where
  isComplete := false
  pHashSet := ⟨[], Or.inl rfl⟩
  pHashTree := some ⟨[], Or.inl rfl⟩

/-- The condition for a file of a megabyte, with a peer that nothing is known of. -/
theorem carried_iff_treeCarried_example : Carried 2 exampleFile none ↔ TreeCarried 2 exampleFile none :=
  carried_iff_treeCarried (by decide) (by decide) fun _ hmap => by cases hmap

/-- The first block of a small file is not announced, and the number of blocks of a large file
does not fit. -/
theorem carried_wrong : ¬Carried 2 exampleFile none ∧ ¬Carried 2 exampleLarge none := by
  constructor
  · have htree : sharedTree 2 exampleFile = some ⟨[true, false, false, false, false, false], Or.inr rfl⟩ := rfl
    rw [carried_tree (by decide) (by decide) (fun _ hmap => by cases hmap) rfl htree (g := (1, 53)) (by decide)]
    intro h
    have hfirst := h (by decide) (by decide) (by decide) 0 (by decide)
    revert hfirst
    decide
  · have htree : sharedTree 2 exampleLarge = some ⟨[], Or.inl rfl⟩ := rfl
    exact not_carried_large rfl htree (by decide)

end NeoLoader.MuleFileStatus
