import NeoLoader.InflateStream
import NeoLoader.MuleUpload
import NeoLoader.Tiling

/-!
# Blocks downloaded from an eMule peer

A peer that was asked for blocks sends their data in plain or packed pieces. A plain piece says where it belongs, a
packed one belongs behind what was written of its block. How much of a block was written tells when it is done.
-/

namespace NeoLoader.MuleDownload

open InflateStream Tiling
open MuleUpload hiding CMuleClient

section Operations

structure SRequestedBlock (Z : Type*) where
  /-- First offset. -/
  uBegin : ℕ
  /-- First offset after the block. -/
  uEnd : ℕ
  uWriten : ℕ
  /-- `zStream`, if there is one. -/
  zStream : Option Z

/-- The file of a source that is downloaded from. -/
structure DownFile where
  /-- Its hash. -/
  hash : ℕ
  isIncomplete : Bool

/-- The peer that is downloaded from. -/
structure CMuleClient (Z : Type*) where
  /-- The file of `m_DownSource`, if there is one. -/
  m_DownSource : Option DownFile
  m_IncomingBlocks : List (SRequestedBlock Z)
  m_RecivedPartSize : ℕ

variable {Z : Type*}

/-- The blocks that `SendBlockRequest` adds. -/
def newBlocks (ranges : List (UInt64 × UInt64)) : List (SRequestedBlock Z) :=
  (ranges.filter fun range => range.1 < range.2).map fun range =>
    ⟨range.1.toNat, range.2.toNat, 0, none⟩

def sendBlockRequest (ranges : List (UInt64 × UInt64)) (c : CMuleClient Z) : CMuleClient Z :=
  { c with m_IncomingBlocks := c.m_IncomingBlocks ++ newBlocks ranges }

/-- The first one that meets a condition is changed or taken out. -/
def atFirst {α : Type*} (p : α → Bool) (f : α → Option α) : List α → List α
  | [] => []
  | a :: l => if p a then (f a).toList ++ l else a :: atFirst p f l

/-- Some bytes of a block were written, which may be the last ones. -/
def writeBlock (uLength : ℕ) (zStream : Option Z) (pBlock : SRequestedBlock Z) : Option (SRequestedBlock Z) :=
  if pBlock.uEnd - pBlock.uBegin ≤ (pBlock.uWriten + uLength) % 2 ^ 64 then none
  else some { pBlock with uWriten := (pBlock.uWriten + uLength) % 2 ^ 64, zStream := zStream }

/-- The data that a packed piece gives for its block, and the stream after it. -/
def unpackFor (zlib : Zlib Z) (PackedData : List UInt8) (pBlock : SRequestedBlock Z) : List UInt8 × Option Z :=
  ungzipArr zlib pBlock.zStream PackedData

/-- A packed piece says that it belongs to a block. -/
def beginsAt (uBegin : ℕ) (pCurBlock : SRequestedBlock Z) : Bool := pCurBlock.uBegin = uBegin

/-- The blocks after a packed piece, and what is handed to `RangeReceived`. -/
def processPacked (zlib : Zlib Z) (uBegin : ℕ) (PackedData : List UInt8) (blocks : List (SRequestedBlock Z)) :
    List (SRequestedBlock Z) × List (Span (List UInt8)) :=
  match blocks.find? (beginsAt uBegin) with
  | none => (blocks, [])
  | some pBlock =>
    let unpacked := unpackFor zlib PackedData pBlock
    if unpacked.1 = [] then
      (atFirst (beginsAt uBegin) (fun pBlock => some { pBlock with zStream := unpacked.2 }) blocks, [])
    else
      (atFirst (beginsAt uBegin) (writeBlock unpacked.1.length unpacked.2) blocks,
        [⟨(uBegin + pBlock.uWriten) % 2 ^ 64, ((uBegin + pBlock.uWriten) % 2 ^ 64 + unpacked.1.length) % 2 ^ 64,
          unpacked.1⟩])

/-- A plain piece says that it belongs to a block. -/
def isWithin (uBegin uEnd : ℕ) (pCurBlock : SRequestedBlock Z) : Bool :=
  pCurBlock.uBegin ≤ uBegin ∧ uEnd ≤ pCurBlock.uEnd

/-- The blocks after a plain piece, and what is handed to `RangeReceived`. -/
def processPlain (uBegin uEnd : ℕ) (Data : List UInt8) (blocks : List (SRequestedBlock Z)) :
    List (SRequestedBlock Z) × List (Span (List UInt8)) :=
  match blocks.find? (isWithin uBegin uEnd) with
  | none => (blocks, [])
  | some pBlock =>
    (atFirst (isWithin uBegin uEnd) (writeBlock Data.length pBlock.zStream) blocks,
      if uEnd = uBegin then [] else [⟨uBegin, uEnd, Data⟩])

/-- The file with the hash is the one that is downloaded, and still incomplete. -/
def CMuleClient.isWanted (c : CMuleClient Z) (hash : ℕ) : Bool :=
  c.m_DownSource.any fun pFile => pFile.hash = hash ∧ pFile.isIncomplete

/-- `ProcessBlock`, with what it hands to `RangeReceived`. -/
def processBlock (zlib : Zlib Z) (packet : PartPacket) (c : CMuleClient Z) : CMuleClient Z × List (Span (List UInt8)) :=
  match packet with
  | .compressedPart hash uBegin _ PackedData =>
    if c.isWanted hash then
      let processed := processPacked zlib uBegin PackedData c.m_IncomingBlocks
      ({ c with
        m_IncomingBlocks := processed.1
        m_RecivedPartSize := c.m_RecivedPartSize + PackedData.length }, processed.2)
    else (c, [])
  | .sendingPart hash uBegin uEnd Data =>
    if c.isWanted hash then
      let processed := processPlain uBegin uEnd Data c.m_IncomingBlocks
      ({ c with
        m_IncomingBlocks := processed.1
        m_RecivedPartSize := c.m_RecivedPartSize + Data.length }, processed.2)
    else (c, [])

end Operations

section Ranges

variable {Z : Type*} {zlib : Zlib Z} {c : CMuleClient Z} {blocks : List (SRequestedBlock Z)}

/-- A range lies in an outstanding block and has the length of its data. -/
def RangeRight (blocks : List (SRequestedBlock Z)) (range : Span (List UInt8)) : Prop :=
  ∃ pBlock ∈ blocks, pBlock.uBegin ≤ range.first ∧ range.first + range.value.length = range.last ∧
    range.last ≤ pBlock.uEnd

/-- The data of a packed piece, if there is any, fits into an outstanding block at the place it is put. -/
def FitsAt (zlib : Zlib Z) (PackedData : List UInt8) (blocks : List (SRequestedBlock Z))
    (pBlock : SRequestedBlock Z) : Prop :=
  (unpackFor zlib PackedData pBlock).1 = [] ∨ ∃ other ∈ blocks, other.uBegin ≤ pBlock.uBegin + pBlock.uWriten ∧
    pBlock.uBegin + pBlock.uWriten + (unpackFor zlib PackedData pBlock).1.length ≤ other.uEnd

/-- The condition of a packet: a plain piece has the length it says, and the data of a packed one fits into an
outstanding block. -/
def PacketOk (zlib : Zlib Z) (c : CMuleClient Z) : PartPacket → Prop
  | .compressedPart hash uBegin _ PackedData =>
    c.isWanted hash = true → ∀ pBlock ∈ c.m_IncomingBlocks.find? (beginsAt uBegin),
        FitsAt zlib PackedData c.m_IncomingBlocks pBlock
  | .sendingPart hash uBegin uEnd Data =>
    c.isWanted hash = true →
      ∀ _pBlock ∈ c.m_IncomingBlocks.find? (isWithin uBegin uEnd), uEnd = uBegin ∨ uBegin + Data.length = uEnd

/-- The outstanding blocks are not empty, and not all of one was written. -/
def BlocksOk (blocks : List (SRequestedBlock Z)) : Prop :=
  ∀ pBlock ∈ blocks, pBlock.uBegin < pBlock.uEnd ∧ pBlock.uEnd < 2 ^ 64 ∧ pBlock.uWriten < pBlock.uEnd - pBlock.uBegin

/-- What holds for all keeps holding if it is kept for the first one that meets a condition. -/
theorem forall_atFirst {α : Type*} {P : α → Prop} {p : α → Bool} {f : α → Option α} {l : List α}
    (h : ∀ a ∈ l, P a) (hf : ∀ a, P a → ∀ b ∈ f a, P b) : ∀ a ∈ atFirst p f l, P a := by
  induction l with
  | nil => exact h
  | cons a l ih =>
    rw [List.forall_mem_cons] at h
    rw [atFirst]
    split_ifs
    · intro b hb
      rcases List.mem_append.mp hb with hb | hb
      · exact hf a h.1 b (Option.mem_toList.mp hb)
      · exact h.2 b hb
    · exact List.forall_mem_cons.mpr ⟨h.1, ih h.2⟩

theorem BlocksOk.writeBlock (h : BlocksOk blocks) (p : SRequestedBlock Z → Bool) (uLength : ℕ)
    (zStream : Option Z) : BlocksOk (atFirst p (writeBlock uLength zStream) blocks) := by
  refine forall_atFirst h fun pBlock hok pBlock' hwritten => ?_
  unfold MuleDownload.writeBlock at hwritten
  split_ifs at hwritten with hdone
  · simp at hwritten
  · rw [Option.mem_some_iff] at hwritten
    subst hwritten
    exact ⟨hok.1, hok.2.1, not_le.mp hdone⟩

/-- A plain piece is handed over as it should be, if and only if it has the length it says. -/
theorem processPlain_right {uBegin uEnd : ℕ} {Data : List UInt8} :
    (∀ range ∈ (processPlain uBegin uEnd Data blocks).2, RangeRight blocks range) ↔
      ∀ _pBlock ∈ blocks.find? (isWithin uBegin uEnd), uEnd = uBegin ∨ uBegin + Data.length = uEnd := by
  unfold processPlain
  cases hfind : blocks.find? (isWithin uBegin uEnd) with
  | none => simp
  | some pBlock =>
    have hmem := List.mem_of_find?_eq_some hfind
    have hwithin := List.find?_some hfind
    simp only [isWithin, decide_eq_true_eq] at hwithin
    simp only [Option.mem_some_iff, forall_eq']
    split_ifs with hempty
    · simp [hempty]
    · simp only [List.mem_singleton, forall_eq, hempty, false_or]
      constructor
      · rintro ⟨_, -, -, hlength, -⟩
        exact hlength
      · exact fun hlength => ⟨pBlock, hmem, hwithin.1, hlength, hwithin.2⟩

/-- The data of a packed piece is handed over as it should be, if and only if it fits into a block. -/
theorem processPacked_right (hok : BlocksOk blocks) {uBegin : ℕ} {PackedData : List UInt8} :
    (∀ range ∈ (processPacked zlib uBegin PackedData blocks).2, RangeRight blocks range) ↔
      ∀ pBlock ∈ blocks.find? (beginsAt uBegin),
        FitsAt zlib PackedData blocks pBlock := by
  unfold processPacked
  cases hfind : blocks.find? (beginsAt uBegin) with
  | none => simp
  | some pBlock =>
    have hbegin : pBlock.uBegin = uBegin := by simpa [beginsAt] using List.find?_some hfind
    obtain ⟨-, hend, hwritten⟩ := hok pBlock (List.mem_of_find?_eq_some hfind)
    have hfirst : (uBegin + pBlock.uWriten) % 2 ^ 64 = pBlock.uBegin + pBlock.uWriten := by
      rw [← hbegin]
      exact Nat.mod_eq_of_lt (by omega)
    simp only [Option.mem_some_iff, forall_eq', FitsAt]
    split_ifs with hnone
    · simp [hnone]
    · simp only [List.mem_singleton, forall_eq, hnone, false_or, RangeRight, hfirst]
      constructor
      · rintro ⟨other, hother, hle, hlength, hlast⟩
        exact ⟨other, hother, hle, hlength ▸ hlast⟩
      · rintro ⟨other, hother, hle, hlast⟩
        have hmod := Nat.mod_eq_of_lt (hlast.trans_lt (hok other hother).2.1)
        exact ⟨other, hother, hle, hmod.symm, hmod.trans_le hlast⟩

section

variable (hok : BlocksOk c.m_IncomingBlocks)

include hok

/-- Of a packet only what is as it should be is handed over, if and only if the packet meets the condition. -/
theorem processBlock_right (packet : PartPacket) :
    (∀ range ∈ (processBlock zlib packet c).2, RangeRight c.m_IncomingBlocks range) ↔ PacketOk zlib c packet := by
  cases packet with
  | compressedPart hash uBegin packedSize PackedData =>
    unfold processBlock PacketOk
    dsimp only
    split_ifs with hsource
    · rw [forall_prop_of_true hsource]
      exact processPacked_right hok
    · simp [hsource]
  | sendingPart hash uBegin uEnd Data =>
    unfold processBlock PacketOk
    dsimp only
    split_ifs with hsource
    · rw [forall_prop_of_true hsource]
      exact processPlain_right
    · simp [hsource]

/-- The outstanding blocks stay as they should be. -/
theorem BlocksOk.processBlock (packet : PartPacket) : BlocksOk (processBlock zlib packet c).1.m_IncomingBlocks := by
  cases packet with
  | compressedPart hash uBegin packedSize PackedData =>
    unfold MuleDownload.processBlock
    dsimp only
    split_ifs with hsource
    · unfold processPacked
      cases c.m_IncomingBlocks.find? (beginsAt uBegin) with
      | none => exact hok
      | some pBlock =>
        dsimp only
        split_ifs
        · refine forall_atFirst hok fun pBlock' hold pBlock'' hsome => ?_
          rw [Option.mem_some_iff] at hsome
          subst hsome
          exact hold
        · exact hok.writeBlock _ _ _
    · exact hok
  | sendingPart hash uBegin uEnd Data =>
    unfold MuleDownload.processBlock
    dsimp only
    split_ifs with hsource
    · unfold processPlain
      cases c.m_IncomingBlocks.find? (isWithin uBegin uEnd) with
      | none => exact hok
      | some pBlock => exact hok.writeBlock _ _ _
    · exact hok

theorem BlocksOk.sendBlockRequest (ranges : List (UInt64 × UInt64)) :
    BlocksOk (sendBlockRequest ranges c).m_IncomingBlocks := by
  intro pBlock hpBlock
  rcases List.mem_append.mp hpBlock with hold | hnew
  · exact hok pBlock hold
  · obtain ⟨range, hrange, rfl⟩ := List.mem_map.mp hnew
    have hless : range.1 < range.2 := by simpa using (List.mem_filter.mp hrange).2
    rw [UInt64.lt_iff_toNat_lt] at hless
    exact ⟨hless, range.2.toNat_lt, Nat.sub_pos_of_lt hless⟩

end

/-- What happens to a peer. -/
inductive DownloadOp where
  /-- Blocks are requested. -/
  | request (ranges : List (UInt64 × UInt64))
  /-- A packet is received. -/
  | receive (packet : PartPacket)
  /-- There is another source, or its file is complete now. -/
  | setDownSource (m_DownSource : Option DownFile)

/-- The next state of a peer. -/
def downloadStep (zlib : Zlib Z) (c : CMuleClient Z) : DownloadOp → CMuleClient Z
  | .request ranges => sendBlockRequest ranges c
  | .receive packet => (processBlock zlib packet c).1
  | .setDownSource m_DownSource => { c with m_DownSource := m_DownSource }

/-- In all steps only ranges that are as they should be are handed over. -/
def RangesRight (zlib : Zlib Z) : CMuleClient Z → List DownloadOp → Prop
  | _, [] => True
  | c, op :: ops =>
    (match op with
      | .receive packet => ∀ range ∈ (processBlock zlib packet c).2, RangeRight c.m_IncomingBlocks range
      | _ => True) ∧ RangesRight zlib (downloadStep zlib c op) ops

/-- All packets meet the condition. -/
def PacketsOk (zlib : Zlib Z) : CMuleClient Z → List DownloadOp → Prop
  | _, [] => True
  | c, op :: ops =>
    (match op with
      | .receive packet => PacketOk zlib c packet
      | _ => True) ∧ PacketsOk zlib (downloadStep zlib c op) ops

theorem BlocksOk.downloadStep (hok : BlocksOk c.m_IncomingBlocks) (op : DownloadOp) :
    BlocksOk (downloadStep zlib c op).m_IncomingBlocks := by
  cases op with
  | request ranges => exact hok.sendBlockRequest ranges
  | receive packet => exact hok.processBlock packet
  | setDownSource m_DownSource => exact hok

/-- Only ranges that are as they should be are handed over, if and only if all packets meet the condition. -/
theorem rangesRight_iff (hok : BlocksOk c.m_IncomingBlocks) (ops : List DownloadOp) :
    RangesRight zlib c ops ↔ PacketsOk zlib c ops := by
  induction ops generalizing c with
  | nil => simp [RangesRight, PacketsOk]
  | cons op ops ih =>
    have hrest : RangesRight zlib (downloadStep zlib c op) ops ↔ PacketsOk zlib (downloadStep zlib c op) ops :=
      ih (hok.downloadStep op)
    cases op with
    | request ranges => simpa [RangesRight, PacketsOk] using hrest
    | receive packet =>
      unfold RangesRight PacketsOk
      exact and_congr (processBlock_right hok packet) hrest
    | setDownSource m_DownSource => simpa [RangesRight, PacketsOk] using hrest

end Ranges

end NeoLoader.MuleDownload
