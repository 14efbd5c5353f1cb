import NeoLoader.FileReads
import NeoLoader.ShareMapBits

/-!
# Blocks uploaded to an eMule peer

A peer requests three blocks at a time. A list of the last blocks tells which requests are
repeated, and whether a block whose data was read is still wanted.
-/

namespace NeoLoader.MuleUpload

open StepFunction RangeMap PartStates ShareMapBits FileReads

/-- The file and range of a block. -/
structure BlockKey where
  /-- The hash of the file. -/
  hash : ℕ
  /-- First offset. -/
  uBegin : ℕ
  /-- First offset after the block. -/
  uEnd : ℕ
  deriving DecidableEq, Repr

/-- `SPendingBlock`, blocks are told apart by a number in place of their address. -/
structure SPendingBlock where
  /-- The address. -/
  pBlock : ℕ
  /-- First offset. -/
  uBegin : ℕ
  /-- First offset after the block. -/
  uEnd : ℕ
  hash : ℕ
  deriving DecidableEq, Repr

/-- The file and range of a pending block. -/
def SPendingBlock.key (block : SPendingBlock) : BlockKey := ⟨block.hash, block.uBegin, block.uEnd⟩

/-- A read that the disk has not done yet. -/
structure ReadOperation where
  /-- The file, with the state it had when the block was requested. -/
  pFile : CFile
  /-- `m_Offset`. -/
  uOffset : ℕ
  /-- `m_Length`. -/
  uLength : ℕ
  /-- `m_Aux`. -/
  block : SPendingBlock

/-- A packet with some of the data of a block. -/
inductive PartPacket
  /-- `OP_SENDINGPART`. -/
  | sendingPart (hash uBegin uEnd : ℕ) (data : List UInt8)
  /-- `OP_COMPRESSEDPART`. -/
  | compressedPart (hash uBegin packedSize : ℕ) (data : List UInt8)
  deriving DecidableEq, Repr

/-- What a peer supports. -/
structure Peer where
  /-- `SupportsLargeFiles`. -/
  bI64 : Bool
  /-- `DataCompVer() == 1`. -/
  dataComp : Bool
  pack : List UInt8 → List UInt8

/-- A peer that is uploaded to. -/
structure CMuleClient where
  /-- There is an upload. -/
  m_UpSource : Bool
  m_OutgoingBlocks : List SPendingBlock
  m_SentPartSize : ℕ
  /-- The queue of payload packets, with the address of their block. -/
  queue : List (ℕ × PartPacket)
  /-- The reads that are not done. -/
  reads : List ReadOperation
  /-- The address of the next block. -/
  nextBlock : ℕ
  /-- Not in the source: the available blocks that were requested. -/
  requested : List BlockKey
  /-- Not in the source: the blocks that reads were queued for. -/
  issued : List SPendingBlock
  /-- Not in the source: the blocks whose reads are done. -/
  finished : List SPendingBlock
  /-- Not in the source: the blocks that were treated as redundant, with the entry found. -/
  redundant : List (BlockKey × SPendingBlock)

/-- An upload that was just accepted. -/
def CMuleClient.new : CMuleClient := ⟨true, [], 0, [], [], 0, [], [], [], []⟩

/-- An entry is for the same offsets. -/
def sameOffsets (uBegin uEnd : ℕ) (block : SPendingBlock) : Bool :=
  block.uBegin = uBegin && block.uEnd = uEnd

/-- The entry for a repeated block is moved down, so we keep track of it. -/
def keepTrack (hash uBegin uEnd : ℕ) (block : SPendingBlock) (c : CMuleClient) : CMuleClient :=
  { c with
    m_OutgoingBlocks := c.m_OutgoingBlocks.eraseP (sameOffsets uBegin uEnd) ++ [block]
    redundant := c.redundant ++ [(⟨hash, uBegin, uEnd⟩, block)] }

/-- The entry of a new block. -/
def addBlock (hash uBegin uEnd : ℕ) (c : CMuleClient) : CMuleClient :=
  { c with
    m_OutgoingBlocks := c.m_OutgoingBlocks ++ [⟨c.nextBlock, uBegin, uEnd, hash⟩]
    nextBlock := c.nextBlock + 1 }

/-- `ReadData` for a block. -/
def queueRead (pFile : CFile) (block : SPendingBlock) (c : CMuleClient) : CMuleClient :=
  { c with
    reads := c.reads ++ [⟨pFile, block.uBegin, block.uEnd - block.uBegin, block⟩]
    issued := c.issued ++ [block] }

/-- The loop over the blocks of a request. -/
def blockLoop (pFile : CFile) (hash : ℕ) : List (ℕ × ℕ) → CMuleClient → CMuleClient
  | [], c => c
  | (uBegin, uEnd) :: rest, c =>
    if uEnd ≤ uBegin then blockLoop pFile hash rest c
    else
      match c.m_OutgoingBlocks.find? (sameOffsets uBegin uEnd) with
      | some block => blockLoop pFile hash rest (keepTrack hash uBegin uEnd block c)
      | none =>
        if pFile.isMissing uBegin uEnd then addBlock hash uBegin uEnd c
        else blockLoop pFile hash rest (queueRead pFile ⟨c.nextBlock, uBegin, uEnd, hash⟩ (addBlock hash uBegin uEnd c))

/-- All of a block is available, inside the file. -/
def isAvailableBlock (pFile : CFile) (block : ℕ × ℕ) : Bool :=
  block.1 < block.2 && block.2 ≤ pFile.uFileSize && !pFile.isMissing block.1 block.2

/-- The available blocks of a request are noted down. -/
def noteRequest (pFile : CFile) (hash : ℕ) (blocks : List (ℕ × ℕ)) (c : CMuleClient) : CMuleClient :=
  { c with requested := c.requested ++
      (blocks.filter (isAvailableBlock pFile)).map fun block => ⟨hash, block.1, block.2⟩ }

/-- `CMuleClient::ProcessBlockRequest`, with the file that is found by the hash. -/
def processBlockRequest (hash : ℕ) (pFile : Option CFile) (blocks : List (ℕ × ℕ)) (c : CMuleClient) :
    CMuleClient :=
  match pFile with
  | none => c
  | some pFile =>
    if c.m_UpSource then blockLoop pFile hash blocks (noteRequest pFile hash blocks c) else c

/-- `CMuleClient::CancelUpload`. -/
def cancelUpload (c : CMuleClient) : CMuleClient :=
  { c with m_UpSource := false, m_OutgoingBlocks := [], queue := [] }

/-- The data in pieces of ten kilobytes. -/
def pieces (data : List UInt8) : List (List UInt8) :=
  (List.range (divUp data.length 10240)).map fun k => (data.drop (k * 10240)).take 10240

/-- An offset in a packet. -/
def offsetField (bI64 : Bool) (uOffset : ℕ) : ℕ := if bI64 then uOffset % 2 ^ 64 else uOffset % 2 ^ 32

/-- The packets with compressed data. -/
def compressedPackets (peer : Peer) (block : SPendingBlock) (packed : List UInt8) : List PartPacket :=
  (pieces packed).map fun data =>
    .compressedPart block.hash (offsetField peer.bI64 block.uBegin) (packed.length % 2 ^ 32) data

/-- The packets with plain data. -/
def plainPackets (peer : Peer) (block : SPendingBlock) (data : List UInt8) : List PartPacket :=
  (pieces data).mapIdx fun k piece =>
    .sendingPart block.hash (offsetField peer.bI64 (block.uBegin + k * 10240))
      (offsetField peer.bI64 (block.uBegin + k * 10240 + piece.length)) piece

/-- The data that is sent for a block: it is compressed for a slow upload, if that helps. -/
def sentData (peer : Peer) (slow : Bool) (data : List UInt8) : List UInt8 ⊕ List UInt8 :=
  if peer.dataComp && slow && !(peer.pack data).isEmpty && (peer.pack data).length < data.length then
    .inl (peer.pack data)
  else .inr data

/-- The packets for a block, and the size that is counted. -/
def blockPackets (peer : Peer) (slow : Bool) (block : SPendingBlock) (data : List UInt8) : List PartPacket × ℕ :=
  match sentData peer slow data with
  | .inl packed => (compressedPackets peer block packed, packed.length)
  | .inr data => (plainPackets peer block data, data.length)

/-- The packets for a block are queued, and only the last three blocks are kept track of. -/
def queueBlock (peer : Peer) (slow : Bool) (block : SPendingBlock) (data : List UInt8) (c : CMuleClient) :
    CMuleClient :=
  let packets := blockPackets peer slow block data
  { c with
    m_SentPartSize := c.m_SentPartSize + packets.2
    queue := c.queue ++ packets.1.map fun packet => (block.pBlock, packet)
    m_OutgoingBlocks := c.m_OutgoingBlocks.drop (c.m_OutgoingBlocks.length - 3) }

/-- `CMuleClient::OnDataRead`. -/
def onDataRead (peer : Peer) (slow : Bool) (block : SPendingBlock) (data : List UInt8) (c : CMuleClient) :
    CMuleClient :=
  if !c.m_UpSource then c
  else if !(c.m_OutgoingBlocks.map SPendingBlock.pBlock).contains block.pBlock then c
  else if data.length ≠ block.uEnd - block.uBegin then cancelUpload c
  else queueBlock peer slow block data c

/-- What happens to an upload. -/
inductive Op
  /-- The peer requests blocks. -/
  | request (hash : ℕ) (pFile : Option CFile) (blocks : List (ℕ × ℕ))
  /-- The disk does one of the reads. -/
  | dataRead (i : ℕ) (disk : Disk) (slow : Bool)

/-- The next state of an upload. -/
def step (peer : Peer) (c : CMuleClient) : Op → CMuleClient
  | .request hash pFile blocks => processBlockRequest hash pFile blocks c
  | .dataRead i disk slow =>
    match c.reads[i]? with
    | none => c
    | some op => onDataRead peer slow op.block (execute disk op.uOffset op.uLength).1
        { c with reads := c.reads.eraseIdx i, finished := c.finished ++ [op.block] }

/-- The state after some steps. -/
def run (peer : Peer) (c : CMuleClient) (ops : List Op) : CMuleClient := ops.foldl (step peer) c

/-- The entry found for a repeated block is for the same file, and was read. After a block that is
missing nothing new is requested that is available. -/
def LoopMeets (pFile : CFile) (hash : ℕ) : List (ℕ × ℕ) → CMuleClient → Prop
  | [], _ => True
  | (uBegin, uEnd) :: rest, c =>
    if uEnd ≤ uBegin then LoopMeets pFile hash rest c
    else
      match c.m_OutgoingBlocks.find? (sameOffsets uBegin uEnd) with
      | some block => (block.hash = hash ∧ block ∈ c.issued) ∧
          LoopMeets pFile hash rest (keepTrack hash uBegin uEnd block c)
      | none =>
        if pFile.isMissing uBegin uEnd then
          ∀ later ∈ rest, isAvailableBlock pFile later = true → ∃ block ∈ c.issued, block.key = ⟨hash, later.1, later.2⟩
        else LoopMeets pFile hash rest (queueRead pFile ⟨c.nextBlock, uBegin, uEnd, hash⟩ (addBlock hash uBegin uEnd c))

/-- The condition on a step. A read gives all of its block, and of the blocks that are no longer
kept track of after it all others are read. -/
def Meets (c : CMuleClient) : Op → Prop
  | .request hash pFile blocks => ∀ file ∈ pFile, LoopMeets file hash blocks (noteRequest file hash blocks c)
  | .dataRead i disk _ => ∀ op ∈ c.reads[i]?, Readable disk op.uOffset op.uLength ∧
      ∀ block ∈ c.m_OutgoingBlocks.take (c.m_OutgoingBlocks.length - 3), block ∈ c.issued →
        block = op.block ∨ block ∈ c.finished

/-- The condition on all steps of a run. -/
def RunMeets (peer : Peer) : CMuleClient → List Op → Prop
  | _, [] => True
  | c, op :: ops => Meets c op ∧ RunMeets peer (step peer c op) ops

/-- All packets with the data of a block are in the queue. -/
def Queued (peer : Peer) (queue : List (ℕ × PartPacket)) (block : SPendingBlock) : Prop :=
  ∃ content slow, block.uEnd ≤ List.length content ∧
    ∀ packet ∈ (blockPackets peer slow block ((content.drop block.uBegin).take (block.uEnd - block.uBegin))).1,
      (block.pBlock, packet) ∈ queue

/-- The blocks of an upload, apart from some that are still waiting: what was requested is read,
what is read is queued, only what is served is redundant, and what is served is kept track of. -/
structure Serves (peer : Peer) (waiting : BlockKey → Prop) (c : CMuleClient) : Prop where
  /-- The upload goes on. -/
  active : c.m_UpSource = true
  /-- Each available block that was requested is read. -/
  read : ∀ key ∈ c.requested, waiting key ∨ ∃ block ∈ c.issued, block.key = key
  /-- A read is done some time. -/
  pending : ∀ block ∈ c.issued, block ∈ c.finished ∨ ∃ op ∈ c.reads, op.block = block
  /-- A block that is read is queued for sending. -/
  queued : ∀ block ∈ c.finished, Queued peer c.queue block
  /-- A redundant block is served. -/
  redundant : ∀ entry ∈ c.redundant, entry.2.key = entry.1 ∧ entry.2 ∈ c.issued
  /-- A block is kept track of until it is read. -/
  kept : ∀ block ∈ c.issued, block ∈ c.finished ∨ block ∈ c.m_OutgoingBlocks
  /-- A read is for a block. -/
  reads : ∀ op ∈ c.reads, op.block ∈ c.issued ∧ op.uOffset = op.block.uBegin ∧
    op.uLength = op.block.uEnd - op.block.uBegin

section Loop

variable {peer : Peer} {waiting waiting' : BlockKey → Prop} {c : CMuleClient}

theorem Serves.mono (h : Serves peer waiting c)
    (hread : ∀ key, waiting key → waiting' key ∨ ∃ block ∈ c.issued, block.key = key) : Serves peer waiting' c :=
  { h with read := fun key hkey => (h.read key hkey).elim (hread key) Or.inr }

/-- Only the first entry found is removed. -/
theorem mem_eraseP_of_ne {α : Type*} {p : α → Bool} {l : List α} {a b : α} (hfind : l.find? p = some a)
    (hmem : b ∈ l) (hne : b ≠ a) : b ∈ l.eraseP p := by
  induction l with
  | nil => cases hmem
  | cons x rest ih =>
    cases hp : p x with
    | true =>
      rw [List.find?_cons_of_pos hp, Option.some.injEq] at hfind
      rw [List.eraseP_cons_of_pos hp]
      exact (List.mem_cons.mp hmem).resolve_left fun heq => hne (heq.trans hfind)
    | false =>
      rw [List.find?_cons_of_neg (by rw [hp]; exact Bool.false_ne_true)] at hfind
      rw [List.eraseP_cons_of_neg (by rw [hp]; exact Bool.false_ne_true)]
      exact List.mem_cons.mpr ((List.mem_cons.mp hmem).imp_right (ih hfind))

/-- A repeated block is served by the entry that was found. -/
theorem Serves.keepTrack {hash uBegin uEnd : ℕ} {block : SPendingBlock} (h : Serves peer waiting c)
    (hfind : c.m_OutgoingBlocks.find? (sameOffsets uBegin uEnd) = some block)
    (hhash : block.hash = hash) (hissued : block ∈ c.issued) :
    Serves peer waiting (keepTrack hash uBegin uEnd block c) ∧ block.key = ⟨hash, uBegin, uEnd⟩ := by
  have hsame := List.find?_some hfind
  rw [sameOffsets, Bool.and_eq_true, decide_eq_true_eq, decide_eq_true_eq] at hsame
  have hkey : block.key = ⟨hash, uBegin, uEnd⟩ := by
    rw [SPendingBlock.key, hhash, hsame.1, hsame.2]
  refine ⟨{ h with redundant := fun entry hentry => ?_, kept := fun other hother => ?_ }, hkey⟩
  · rcases List.mem_append.mp hentry with hold | hnew
    · exact h.redundant entry hold
    · rw [List.mem_singleton.mp hnew]
      exact ⟨hkey, hissued⟩
  · refine (h.kept other hother).imp_right fun hmem => List.mem_append.mpr ?_
    by_cases heq : other = block
    · exact Or.inr (List.mem_singleton.mpr heq)
    · exact Or.inl (mem_eraseP_of_ne hfind hmem heq)

theorem Serves.addBlock (hash uBegin uEnd : ℕ) (h : Serves peer waiting c) :
    Serves peer waiting (addBlock hash uBegin uEnd c) :=
  { h with kept := fun other hother => (h.kept other hother).imp_right fun hmem => List.mem_append_left _ hmem }

/-- A block that has an entry is read. -/
theorem Serves.queueRead {block : SPendingBlock} (pFile : CFile) (h : Serves peer waiting c)
    (hentry : block ∈ c.m_OutgoingBlocks) : Serves peer waiting (queueRead pFile block c) where
  active := h.active
  read key hkey := (h.read key hkey).imp_right fun ⟨other, hother, heq⟩ =>
    ⟨other, List.mem_append_left _ hother, heq⟩
  pending other hother := by
    rcases List.mem_append.mp hother with hold | hnew
    · exact (h.pending other hold).imp_right fun ⟨op, hop, heq⟩ => ⟨op, List.mem_append_left _ hop, heq⟩
    · rw [List.mem_singleton.mp hnew]
      exact Or.inr ⟨_, List.mem_append_right _ (List.mem_singleton.mpr rfl), rfl⟩
  queued := h.queued
  redundant entry hmem := ⟨(h.redundant entry hmem).1, List.mem_append_left _ (h.redundant entry hmem).2⟩
  kept other hother := by
    rcases List.mem_append.mp hother with hold | hnew
    · exact h.kept other hold
    · rw [List.mem_singleton.mp hnew]
      exact Or.inr hentry
  reads op hop := by
    rcases List.mem_append.mp hop with hold | hnew
    · obtain ⟨hissued, hrange⟩ := h.reads op hold
      exact ⟨List.mem_append_left _ hissued, hrange⟩
    · rw [List.mem_singleton.mp hnew]
      exact ⟨List.mem_append_right _ (List.mem_singleton.mpr rfl), rfl, rfl⟩

/-- A block that waits in a request. -/
def WaitsIn (pFile : CFile) (hash : ℕ) (blocks : List (ℕ × ℕ)) (key : BlockKey) : Prop :=
  ∃ block ∈ blocks, isAvailableBlock pFile block = true ∧ key = ⟨hash, block.1, block.2⟩

theorem Serves.drop_first {pFile : CFile} {hash : ℕ} {first : ℕ × ℕ} {rest : List (ℕ × ℕ)}
    (h : Serves peer (WaitsIn pFile hash (first :: rest)) c)
    (hfirst : isAvailableBlock pFile first = true → ∃ block ∈ c.issued, block.key = ⟨hash, first.1, first.2⟩) :
    Serves peer (WaitsIn pFile hash rest) c := by
  refine h.mono ?_
  rintro key ⟨block, hblock, havailable, rfl⟩
  rcases List.mem_cons.mp hblock with rfl | hrest
  · exact Or.inr (hfirst havailable)
  · exact Or.inl ⟨block, hrest, havailable, rfl⟩

/-- After the loop no block of the request waits. -/
theorem blockLoop_serves {pFile : CFile} {hash : ℕ} {blocks : List (ℕ × ℕ)}
    (h : Serves peer (WaitsIn pFile hash blocks) c) (hmeets : LoopMeets pFile hash blocks c) :
    Serves peer (fun _ => False) (blockLoop pFile hash blocks c) := by
  induction blocks generalizing c with
  | nil =>
    rw [blockLoop]
    exact h.mono fun key ⟨block, hblock, _⟩ => by cases hblock
  | cons first rest ih =>
    obtain ⟨uBegin, uEnd⟩ := first
    rw [LoopMeets] at hmeets
    rw [blockLoop]
    by_cases hempty : uEnd ≤ uBegin
    · rw [if_pos hempty] at hmeets ⊢
      refine ih (h.drop_first fun havailable => ?_) hmeets
      simp only [isAvailableBlock, Bool.and_eq_true, decide_eq_true_eq] at havailable
      omega
    rw [if_neg hempty] at hmeets ⊢
    cases hfind : c.m_OutgoingBlocks.find? (sameOffsets uBegin uEnd) with
    | some block =>
      rw [hfind] at hmeets
      obtain ⟨⟨hhash, hissued⟩, hrest⟩ := hmeets
      obtain ⟨hserves, hkey⟩ := h.keepTrack hfind hhash hissued
      exact ih (hserves.drop_first fun _ => ⟨block, hissued, hkey⟩) hrest
    | none =>
      rw [hfind] at hmeets
      dsimp only at hmeets ⊢
      have hadd := h.addBlock hash uBegin uEnd
      by_cases hmissing : pFile.isMissing uBegin uEnd = true
      · rw [if_pos hmissing] at hmeets ⊢
        have hafter := hadd.drop_first fun havailable => by
          simp only [isAvailableBlock, hmissing, Bool.not_true, Bool.and_false, Bool.false_eq_true] at havailable
        exact hafter.mono fun key ⟨later, hlater, havailable, hkey⟩ =>
          Or.inr (hkey ▸ hmeets later hlater havailable)
      · rw [if_neg hmissing] at hmeets ⊢
        have hentry : ⟨c.nextBlock, uBegin, uEnd, hash⟩ ∈ (addBlock hash uBegin uEnd c).m_OutgoingBlocks :=
          List.mem_append_right _ (List.mem_singleton.mpr rfl)
        refine ih ((hadd.queueRead pFile hentry).drop_first fun _ => ?_) hmeets
        exact ⟨_, List.mem_append_right _ (List.mem_singleton.mpr rfl), rfl⟩

end Loop

section Packets

/-- The data of a packet. -/
def PartPacket.data : PartPacket → List UInt8
  | .sendingPart _ _ _ data => data
  | .compressedPart _ _ _ data => data

end Packets

/-- A complete file of a hundred bytes. -/
def exampleFile : CFile where
  uFileSize := 100
  isIncomplete := false
  partMap := none
  size_lt := by decide
  has_map hfalse := by cases hfalse
  canonical _ hmap := by cases hmap

/-- The same file with the first ten bytes missing. -/
def exampleIncomplete : CFile where
  uFileSize := 100
  isIncomplete := true
  partMap := some ((CRangeMap.create partMapOps 100).setRange partMapOps 10 100
    (SPartRange.ofStates (BitVec.ofNat 32 Part.Available)) ESet.eSet)
  size_lt := by decide
  has_map _ := rfl
  canonical pMap hmap := by
    obtain rfl := Option.some.inj hmap
    exact setRange_canonical (canonical_create partMapOps (by decide)) (by decide) (by decide) (by decide) _ _

section Runs

variable {peer : Peer} {c : CMuleClient}

theorem request_serves {hash : ℕ} {pFile : Option CFile} {blocks : List (ℕ × ℕ)}
    (h : Serves peer (fun _ => False) c) (hmeets : Meets c (.request hash pFile blocks)) :
    Serves peer (fun _ => False) (processBlockRequest hash pFile blocks c) := by
  cases pFile with
  | none => exact h
  | some file =>
    rw [processBlockRequest, if_pos h.active]
    refine blockLoop_serves { h with read := fun key hkey => ?_ } (hmeets file rfl)
    rcases List.mem_append.mp hkey with hold | hnew
    · exact (h.read key hold).imp_left fun hfalse => hfalse.elim
    · obtain ⟨block, hblock, rfl⟩ := List.mem_map.mp hnew
      obtain ⟨hblock, havailable⟩ := List.mem_filter.mp hblock
      exact Or.inl ⟨block, hblock, havailable, rfl⟩

theorem Queued.append {queue : List (ℕ × PartPacket)} {block : SPendingBlock} (h : Queued peer queue block)
    (more : List (ℕ × PartPacket)) : Queued peer (queue ++ more) block := by
  obtain ⟨content, slow, hend, hall⟩ := h
  exact ⟨content, slow, hend, fun packet hpacket => List.mem_append_left _ (hall packet hpacket)⟩

/-- A read that is done. -/
theorem dataRead_serves {i : ℕ} {disk : Disk} {slow : Bool} (h : Serves peer (fun _ => False) c)
    (hmeets : Meets c (.dataRead i disk slow)) :
    Serves peer (fun _ => False) (step peer c (.dataRead i disk slow)) := by
  rw [step]
  cases hop : c.reads[i]? with
  | none => exact h
  | some op =>
    dsimp only
    obtain ⟨hread, htrim⟩ := hmeets op hop
    have hmem := List.mem_of_getElem? hop
    obtain ⟨hissued, hoffset, hlength⟩ := h.reads op hmem
    obtain ⟨content, -, hend, hexecute, hcount⟩ := hread.execute_spec
    have hdata : (execute disk op.uOffset op.uLength).1 =
        (content.drop op.block.uBegin).take (op.block.uEnd - op.block.uBegin) := by
      rw [hexecute, hoffset, hlength]
    -- the other reads are still to be done
    have hother : ∀ op' ∈ c.reads, op' = op ∨ op' ∈ c.reads.eraseIdx i := by
      intro op' hop'
      obtain ⟨k, hk⟩ := List.mem_iff_getElem?.mp hop'
      by_cases heq : k = i
      · rw [heq, hop] at hk
        exact Or.inl (Option.some.inj hk).symm
      · exact Or.inr (List.mem_eraseIdx_iff_getElem?.mpr ⟨k, heq, hk⟩)
    have hpending : ∀ block ∈ c.issued, block ∈ c.finished ++ [op.block] ∨
        ∃ op' ∈ c.reads.eraseIdx i, op'.block = block := by
      intro block hblock
      rcases h.pending block hblock with hfinished | ⟨op', hop', heq⟩
      · exact Or.inl (List.mem_append_left _ hfinished)
      · rcases hother op' hop' with rfl | hrest
        · exact Or.inl (List.mem_append_right _ (List.mem_singleton.mpr heq.symm))
        · exact Or.inr ⟨op', hrest, heq⟩
    have hreads : ∀ op' ∈ c.reads.eraseIdx i, op'.block ∈ c.issued ∧ op'.uOffset = op'.block.uBegin ∧
        op'.uLength = op'.block.uEnd - op'.block.uBegin := fun op' hop' =>
      h.reads op' (List.mem_of_mem_eraseIdx hop')
    rw [onDataRead, h.active, Bool.not_true, if_neg Bool.false_ne_true]
    cases hcontains : (c.m_OutgoingBlocks.map SPendingBlock.pBlock).contains op.block.pBlock with
    | true =>
      rw [Bool.not_true, if_neg Bool.false_ne_true, if_neg (not_not.mpr (by rw [hcount, hlength]))]
      refine ⟨rfl, h.read, hpending, fun block hblock => ?_, h.redundant, fun block hblock => ?_, hreads⟩
      · rcases List.mem_append.mp hblock with hold | hnew
        · exact (h.queued block hold).append _
        · rw [List.mem_singleton.mp hnew]
          refine ⟨content, slow, by omega, fun packet hpacket => List.mem_append_right _ ?_⟩
          rw [hdata]
          exact List.mem_map_of_mem hpacket
      · rcases h.kept block hblock with hfinished | hentry
        · exact Or.inl (List.mem_append_left _ hfinished)
        · rw [← List.take_append_drop (c.m_OutgoingBlocks.length - 3) c.m_OutgoingBlocks] at hentry
          rcases List.mem_append.mp hentry with hgone | hstays
          · refine Or.inl (List.mem_append.mpr ?_)
            exact (htrim block hgone hblock).symm.imp_right fun heq => List.mem_singleton.mpr heq
          · exact Or.inr hstays
    | false =>
      -- a block without an entry is read already
      have hfinished : op.block ∈ c.finished := by
        refine (h.kept op.block hissued).resolve_right fun hentry => ?_
        rw [List.contains_iff_mem.mpr (List.mem_map_of_mem hentry)] at hcontains
        cases hcontains
      rw [Bool.not_false, if_pos rfl]
      refine ⟨rfl, h.read, hpending, fun block hblock => ?_, h.redundant, fun block hblock =>
        (h.kept block hblock).imp_left (List.mem_append_left _), hreads⟩
      rcases List.mem_append.mp hblock with hold | hnew
      · exact h.queued block hold
      · rw [List.mem_singleton.mp hnew]
        exact h.queued op.block hfinished

theorem step_serves (h : Serves peer (fun _ => False) c) {op : Op} (hmeets : Meets c op) :
    Serves peer (fun _ => False) (step peer c op) := by
  cases op with
  | request hash pFile blocks => exact request_serves h hmeets
  | dataRead i disk slow => exact dataRead_serves h hmeets

theorem new_serves (peer : Peer) : Serves peer (fun _ => False) CMuleClient.new where
  active := rfl
  read _ hkey := by cases hkey
  pending _ hblock := by cases hblock
  queued _ hblock := by cases hblock
  redundant _ hentry := by cases hentry
  kept _ hblock := by cases hblock
  reads _ hop := by cases hop

/-- In every run of an upload that meets the condition, each available block that was requested is
read, and queued for sending when its read is done; only blocks that are served for the same file
are redundant, and an entry is kept until its read is done. -/
theorem run_serves (ops : List Op) (hmeets : RunMeets peer CMuleClient.new ops) :
    Serves peer (fun _ => False) (run peer CMuleClient.new ops) := by
  have hrun : ∀ c, Serves peer (fun _ => False) c → RunMeets peer c ops →
      Serves peer (fun _ => False) (run peer c ops) := by
    clear hmeets
    induction ops with
    | nil => exact fun c h _ => h
    | cons op ops ih => exact fun c h hmeets => ih _ (step_serves h hmeets.1) hmeets.2
  exact hrun _ (new_serves peer) hmeets

/-- Two blocks of a complete file, read in the other order. -/
theorem run_serves_two : Serves ⟨true, false, id⟩ (fun _ => False) (run ⟨true, false, id⟩ CMuleClient.new
      [.request 1 (some exampleFile) [(0, 10), (10, 30), (0, 0)], .dataRead 1 (some (List.replicate 100 0)) false,
        .dataRead 0 (some (List.replicate 100 0)) false]) := by
  refine run_serves _ ⟨?_, ?_, ?_, trivial⟩
  · intro file hfile
    obtain rfl := Option.some.inj hfile
    exact trivial
  · intro op hop
    obtain rfl := Option.some.inj hop
    exact ⟨⟨by decide, by decide, _, rfl, by decide⟩, by decide⟩
  · intro op hop
    obtain rfl := Option.some.inj hop
    exact ⟨⟨by decide, by decide, _, rfl, by decide⟩, by decide⟩

/-- The same offsets of another file count as redundant; a block of a second request is no longer
kept track of before it is read; and after a missing block an available one is not read. -/
theorem run_not_serves : ¬Serves ⟨true, false, id⟩ (fun _ => False) (run ⟨true, false, id⟩ CMuleClient.new
      [.request 1 (some exampleFile) [(0, 10), (0, 0), (0, 0)],
        .request 2 (some exampleFile) [(0, 10), (0, 0), (0, 0)]]) ∧
    ¬Serves ⟨true, false, id⟩ (fun _ => False) (run ⟨true, false, id⟩ CMuleClient.new
      [.request 1 (some exampleFile) [(0, 10), (10, 20), (20, 30)],
        .request 1 (some exampleFile) [(30, 40), (40, 50), (50, 60)],
        .dataRead 0 (some (List.replicate 100 0)) false]) ∧
    ¬Serves ⟨true, false, id⟩ (fun _ => False) (run ⟨true, false, id⟩ CMuleClient.new
      [.request 1 (some exampleIncomplete) [(0, 10), (10, 20), (20, 30)]]) := by
  refine ⟨fun h => ?_, fun h => ?_, fun h => ?_⟩
  · have hsame := (h.redundant (⟨2, 0, 10⟩, ⟨0, 0, 10, 1⟩) (by decide)).1
    revert hsame
    decide
  · have hkept := h.kept ⟨1, 10, 20, 1⟩ (by decide)
    revert hkept
    decide
  · obtain hfalse | ⟨block, hblock, -⟩ := h.read ⟨1, 10, 20⟩ (by decide)
    · exact hfalse
    · revert hblock
      exact List.not_mem_nil

end Runs

end NeoLoader.MuleUpload
